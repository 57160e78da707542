import LiveProse.Sequence.SumTree

/-!
Sequences of elements with sums. An element keeps its handle while others come and go, and a handle
is never found again once its element is erased. Slots are shared by leaves and joints and are
reused, the one given back last first.
-/

namespace LiveProse

open Combine

/-- A position of a sequence: the element that follows it, or nothing at the end. -/
abbrev Cursor := Option Handle

/-- A sequence, as a balanced tree and the slots of its vertices. -/
structure Sequence (α : Type) where
  root : Option (SumTree α) := none
  /-- The names to be given out next, before any new slot is. -/
  free : List Handle := []
  /-- The number of slots in use or free. -/
  slots : Nat := 0
deriving Repr

namespace Sequence

variable {α : Type}

def empty : Sequence α := {}

/-- The elements in order, each with its handle. -/
def entries (sequence : Sequence α) : List (Handle × α) :=
  (sequence.root.map SumTree.entries).getD []

def toList (sequence : Sequence α) : List α :=
  sequence.entries.map (·.2)

def handles (sequence : Sequence α) : List Handle :=
  sequence.entries.map (·.1)

def length (sequence : Sequence α) : Nat :=
  (sequence.root.map SumTree.size).getD 0

def isEmpty (sequence : Sequence α) : Bool :=
  sequence.root.isNone

/-! ### Positions -/

/-- The element of a handle, unless it has been erased. -/
def get? (sequence : Sequence α) (handle : Handle) : Option α :=
  sequence.root.bind (·.get? handle)

/-- Whether the handle names an element. -/
def contains (sequence : Sequence α) (handle : Handle) : Bool :=
  (sequence.get? handle).isSome

/-- The position of the element of a handle. -/
def cursor? (sequence : Sequence α) (handle : Handle) : Option Cursor :=
  if sequence.contains handle then some (some handle) else none

/-- The element that follows a position. -/
def at? (sequence : Sequence α) (cursor : Cursor) : Option α :=
  cursor.bind sequence.get?

/-- The number of elements before a position. -/
def rank (sequence : Sequence α) (cursor : Cursor) : Nat :=
  (cursor.bind fun handle => sequence.root.bind (·.rank? handle)).getD sequence.length

/-- The position with a number of elements before it, or the end. -/
def nth (sequence : Sequence α) (rank : Nat) : Cursor :=
  sequence.root.bind (·.nth? rank)

/-- The position of the first element, which is the end when there is none. -/
def first (sequence : Sequence α) : Cursor :=
  sequence.root.map SumTree.leftmost

/-- The position of the last element, which is the end when there is none. -/
def last (sequence : Sequence α) : Cursor :=
  sequence.root.map SumTree.rightmost

/-- The position after the next element. The end follows itself. -/
def next (sequence : Sequence α) (cursor : Cursor) : Cursor :=
  cursor.bind fun handle => (sequence.root.bind (·.next? handle)).join

/-- The position before the element in front. Nothing is in front of the first. -/
def previous (sequence : Sequence α) (cursor : Cursor) : Cursor :=
  match cursor with
  | none => sequence.last
  | some handle => (sequence.root.bind (·.previous? handle)).join.or cursor

/-- One call of an iterator that stands at a position: the position and its element, and where the
iterator stands after it. -/
def advance? (sequence : Sequence α) (cursor : Cursor) : Option ((Cursor × α) × Cursor) :=
  (sequence.at? cursor).map fun value => ((cursor, value), sequence.next cursor)

/-! ### Sums -/

section Sums

variable [Combine α]

/-- The sum of all elements. -/
def total (sequence : Sequence α) : α :=
  (sequence.root.map SumTree.total).getD neutral

/-- The sum of the elements before a position. -/
def sumBefore (sequence : Sequence α) (cursor : Cursor) : α :=
  match cursor, sequence.root with
  | some _, some tree => tree.sumBefore (sequence.rank cursor)
  | _, _ => sequence.total

/-- The sum of the elements between two positions, neutral unless the second comes after the
first. -/
def sumBetween (sequence : Sequence α) (source target : Cursor) : α :=
  let lo := sequence.rank source
  let hi := sequence.rank target
  match sequence.root with
  | some tree => if lo < hi then tree.sumBetween lo hi else neutral
  | none => neutral

/-! ### Changes -/

/-- The name that is given out next. -/
def nextName (sequence : Sequence α) : Handle :=
  (sequence.free.head?).getD ⟨sequence.slots, 0⟩

/-- Gives out the next name. -/
def allocate (sequence : Sequence α) : Sequence α :=
  match sequence.free with
  | _ :: free => { sequence with free }
  | [] => { sequence with slots := sequence.slots + 1 }

/-- Inserts an element before a position and answers its handle. -/
def insert (sequence : Sequence α) (cursor : Cursor) (value : α) : Sequence α × Handle :=
  let name := sequence.nextName
  let named := sequence.allocate
  match sequence.root with
  | none => ({ named with root := some (.leaf name value) }, name)
  | some tree =>
    let fork := named.nextName
    let rank := sequence.rank cursor
    ({ named.allocate with root := some (tree.insert name fork value rank) }, name)

/-- Erases the element that follows a position and answers the position after it. At the end there
is nothing to erase. -/
def erase (sequence : Sequence α) (cursor : Cursor) : Sequence α × Cursor :=
  match cursor, sequence.root with
  | some handle, some tree =>
    let rank := sequence.rank cursor
    let following := sequence.next cursor
    match tree.jointAbove? rank with
    | none => ({ sequence with root := none, free := handle.renewed :: sequence.free }, following)
    | some above =>
      let free := above.renewed :: handle.renewed :: sequence.free
      ({ sequence with root := some (tree.erase rank), free }, following)
  | _, _ => (sequence, cursor)

/-- Erases every element and forgets every name. -/
def clear (_ : Sequence α) : Sequence α := empty

end Sums

/-- The leftmost position whose element takes the running sum past a target, or the end. -/
def find [Combine.Ordered α] (sequence : Sequence α) (target : α) : Cursor :=
  sequence.root.bind (·.find? (Combine.Ordered.precedes target) neutral)

end Sequence

end LiveProse
