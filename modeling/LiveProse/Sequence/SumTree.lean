import LiveProse.Sequence.Combine

/-!
Trees that keep sums. The elements sit in the leaves from left to right, and every joint keeps the
sum of its left side and the number of leaves below it. An insertion or removal changes the joints
above one leaf, and rotations keep the two sides of each joint within a ratio of three.

Places are given by rank, the number of leaves before them.
-/

namespace LiveProse

open Combine

/-- The name of a vertex: a slot, and how many times the slot was given back before. A name that was
given back is never found again, although its slot is. -/
structure Handle where
  slot : Nat
  generation : UInt32
deriving DecidableEq, Repr

/-- The next name for the same slot. -/
def Handle.renewed (handle : Handle) : Handle :=
  { handle with generation := handle.generation + 1 }

/-- A tree that is not empty. -/
inductive SumTree (α : Type) where
  | leaf (name : Handle) (value : α)
  /-- `sum` is that of the left side, and `size` counts the leaves on both sides. -/
  | joint (name : Handle) (sum : α) (size : Nat) (left right : SumTree α)
deriving Repr

namespace SumTree

variable {α : Type}

/-- One side of a joint may have this many times the leaves of the other. -/
def balanceRatio : Nat := 3

/-- A rotation is doubled when the inner side of the heavier side has this many times the leaves of
its outer side. -/
def doublingRatio : Nat := 2

/-- The number of leaves. -/
def size : SumTree α → Nat
  | leaf _ _ => 1
  | joint _ _ size _ _ => size

/-- The leaves from left to right. -/
def entries : SumTree α → List (Handle × α)
  | leaf name value => [(name, value)]
  | joint _ _ _ left right => left.entries ++ right.entries

/-- The names of the joints. -/
def jointNames : SumTree α → List Handle
  | leaf _ _ => []
  | joint name _ _ left right => name :: (left.jointNames ++ right.jointNames)

/-- The number of vertices on the longest way down. -/
def height : SumTree α → Nat
  | leaf _ _ => 1
  | joint _ _ _ left right => 1 + max left.height right.height

/-- The leaf of a name. -/
def get? (handle : Handle) : SumTree α → Option α
  | leaf name value => if name = handle then some value else none
  | joint _ _ _ left right => (left.get? handle).or (right.get? handle)

/-- The rank of the leaf of a name. -/
def rank? (handle : Handle) : SumTree α → Option Nat
  | leaf name _ => if name = handle then some 0 else none
  | joint _ _ _ left right => (left.rank? handle).or ((right.rank? handle).map (left.size + ·))

/-- The name of the first leaf. -/
def leftmost : SumTree α → Handle
  | leaf name _ => name
  | joint _ _ _ left _ => left.leftmost

/-- The name of the last leaf. -/
def rightmost : SumTree α → Handle
  | leaf name _ => name
  | joint _ _ _ _ right => right.rightmost

/-- The name of the leaf after the one of a name, or `none` inside when that is the last. On the way
up, the first joint that has the leaf on its left side knows it. -/
def next? (handle : Handle) : SumTree α → Option (Option Handle)
  | leaf name _ => if name = handle then some none else none
  | joint _ _ _ left right =>
    match left.next? handle with
    | some following => some (following.or (some right.leftmost))
    | none => right.next? handle

/-- The name of the leaf before the one of a name, or `none` inside when that is the first. -/
def previous? (handle : Handle) : SumTree α → Option (Option Handle)
  | leaf name _ => if name = handle then some none else none
  | joint _ _ _ left right =>
    match left.previous? handle with
    | some preceding => some preceding
    | none => (right.previous? handle).map (·.or (some left.rightmost))

/-- The name of the leaf at a rank. -/
def nth? : SumTree α → Nat → Option Handle
  | leaf name _, rank => if rank = 0 then some name else none
  | joint _ _ _ left right, rank =>
    if rank < left.size then left.nth? rank else right.nth? (rank - left.size)

section Sums

variable [Combine α]

/-- A sum followed by the sum of the whole tree. -/
def sumFrom (sum : α) : SumTree α → α
  | leaf _ value => combine sum value
  | joint _ left _ _ right => right.sumFrom (combine sum left)

/-- The sum of the whole tree. -/
def total (tree : SumTree α) : α :=
  tree.sumFrom neutral

/-- The sum of the leaves before a rank. -/
def sumBefore : SumTree α → Nat → α
  | leaf _ _, _ => neutral
  | joint _ sum _ left right, rank =>
    if rank < left.size then left.sumBefore rank
    else combine sum (right.sumBefore (rank - left.size))

/-- The sum of the leaves of ranks `lo` to `hi`, the last one excluded, where `lo < hi`. -/
def sumBetween : SumTree α → Nat → Nat → α
  | leaf _ value, _, _ => value
  | joint _ sum _ left right, lo, hi =>
    let split := left.size
    if hi ≤ split then left.sumBetween lo hi
    else if split ≤ lo then right.sumBetween (lo - split) (hi - split)
    else
      let before := if lo = 0 then sum else left.sumBetween lo split
      let after :=
        if hi - split = right.size then right.total else right.sumBetween 0 (hi - split)
      combine before after

/-- The leftmost leaf at which the running sum, begun with `sum`, passes a target. -/
def find? (passes : α → Bool) (sum : α) : SumTree α → Option Handle
  | leaf name value => if passes (combine sum value) then some name else none
  | joint _ inner _ left right =>
    let through := combine sum inner
    if passes through then left.find? passes sum else right.find? passes through

/-- Lifts the left side of a joint into its place. -/
def rotateRight : SumTree α → SumTree α
  | joint name _ size (joint pivot sum _ outer inner) right =>
    joint pivot sum size outer (joint name inner.total (inner.size + right.size) inner right)
  | tree => tree

/-- Lifts the right side of a joint into its place. -/
def rotateLeft : SumTree α → SumTree α
  | joint name sum size left (joint pivot inner _ middle outer) =>
    joint pivot (combine sum inner) size
      (joint name sum (left.size + middle.size) left middle) outer
  | tree => tree

/-- Whether the inner side is heavy enough to be lifted first. -/
def needsDoubling (outer inner : SumTree α) : Bool :=
  doublingRatio * outer.size ≤ inner.size

/-- Restores the balance of a joint whose sides are balanced and one of which gained or lost a
leaf. -/
def rebalance : SumTree α → SumTree α
  | leaf name value => leaf name value
  | joint name sum size left right =>
    if balanceRatio * right.size < left.size then
      match left with
      | leaf _ _ => joint name sum size left right
      | joint _ _ _ outer inner =>
        rotateRight (joint name sum size
          (if needsDoubling outer inner then left.rotateLeft else left) right)
    else if balanceRatio * left.size < right.size then
      match right with
      | leaf _ _ => joint name sum size left right
      | joint _ _ _ inner outer =>
        rotateLeft (joint name sum size left
          (if needsDoubling outer inner then right.rotateRight else right))
    else joint name sum size left right

/-- Inserts a leaf before the leaf at a rank, or after the last one. The new leaf and its neighbour
hang on a new joint. -/
def insert (name fork : Handle) (value : α) : SumTree α → Nat → SumTree α
  | leaf other element, rank =>
    if rank = 0 then joint fork value 2 (leaf name value) (leaf other element)
    else joint fork element 2 (leaf other element) (leaf name value)
  | joint here sum size left right, rank =>
    if rank < left.size then
      let left := left.insert name fork value rank
      let sum := if commutative α then combine sum value else left.total
      rebalance (joint here sum (size + 1) left right)
    else
      rebalance (joint here sum (size + 1) left (right.insert name fork value (rank - left.size)))

/-- Removes the leaf at a rank together with the joint above it. A single leaf stays. -/
def erase : SumTree α → Nat → SumTree α
  | leaf name value, _ => leaf name value
  | joint here sum size left right, rank =>
    if rank < left.size then
      match left with
      | leaf _ _ => right
      | joint n s k l r =>
        let left := (joint n s k l r).erase rank
        rebalance (joint here left.total (size - 1) left right)
    else
      match right with
      | leaf _ _ => left
      | joint n s k l r =>
        rebalance (joint here sum (size - 1) left ((joint n s k l r).erase (rank - left.size)))

end Sums

/-- The joint right above the leaf at a rank. -/
def jointAbove? : SumTree α → Nat → Option Handle
  | leaf _ _, _ => none
  | joint here _ _ left right, rank =>
    if rank < left.size then (left.jointAbove? rank).or (some here)
    else (right.jointAbove? (rank - left.size)).or (some here)

end SumTree

end LiveProse
