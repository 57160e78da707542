import LiveProse.Lexical.State

/-!
Effects of text on the lexical state. Lexing a text moves every state to some state, and lexing one
text after another composes the two movements, so effects form a monoid of functions.

Depths have no bound in principle, so a movement is kept as a finite table: the image of every
superstate outside comments, and for each superstate that can hold comments the images of its first
depths followed by a rule that holds for all deeper ones.
-/

namespace LiveProse

/-- The images of one superstate at positive depths: those of depths `1` to `explicit.length` one by
one, and at every deeper depth `target` at the depth changed by `delta`. -/
structure CommentImages where
  explicit : List LexicalState
  target : Superstate
  delta : Int16
deriving DecidableEq, Repr

/-- The depth nearest to a number. -/
def clampDepth (depth : Int) : UInt8 :=
  if depth ≤ 0 then 0 else if 255 ≤ depth then 255 else UInt8.ofNat depth.toNat

namespace CommentImages

/-- Every depth of the superstate stays as it is. -/
def unchanged (s : Superstate) : CommentImages := ⟨[], s, 0⟩

/-- The image of a depth beyond the table. -/
def tail (images : CommentImages) (depth : Nat) : LexicalState :=
  ⟨images.target, clampDepth (depth + images.delta.toInt)⟩

/-- The image of a positive depth. -/
def image (images : CommentImages) (depth : UInt8) : LexicalState :=
  (images.explicit[depth.toNat - 1]?).getD (images.tail depth.toNat)

/-- Drops the deepest images as long as the rule for deeper depths gives them too; the list is read
from its deepest image down. -/
def dropTail (images : CommentImages) : List LexicalState → List LexicalState
  | [] => []
  | deepest :: rest =>
    let depth := rest.length + 1
    if 0 ≤ Int16.ofNat depth + images.delta ∧ images.tail depth = deepest then
      dropTail images rest
    else
      deepest :: rest

/-- The same images with the shortest table that its own rule allows. -/
def trimmed (images : CommentImages) : CommentImages :=
  { images with explicit := (images.dropTail images.explicit.reverse).reverse }

end CommentImages

/-- The movement of the lexical state over some text. -/
structure Effect where
  /-- The image of every superstate at depth zero. -/
  images : Vector LexicalState Superstate.count
  /-- The images of positive depths, for each superstate that can hold comments. -/
  comments : Vector CommentImages Superstate.commentableCount
deriving DecidableEq

/-- Every superstate at its index. -/
def Superstate.table : Vector Superstate Superstate.count :=
  ⟨Superstate.all.toArray, rfl⟩

/-- Every superstate that can hold comments, at its slot. -/
def Superstate.commentableTable : Vector Superstate Superstate.commentableCount :=
  ⟨Superstate.commentable.toArray, rfl⟩

namespace Effect

/-- Moves superstates outside comments, and nothing inside comments. -/
def ofMoves (move : Superstate → Superstate) : Effect where
  images := Superstate.table.map fun s => ⟨move s, 0⟩
  comments := Superstate.commentableTable.map .unchanged

/-- The effect of empty text. -/
def identity : Effect := ofMoves id

instance : Inhabited Effect := ⟨identity⟩

/-- Moves one superstate outside comments. -/
def transition (source target : Superstate) : Effect :=
  ofMoves fun s => if s = source then target else s

/-- Exchanges two superstates outside comments. -/
def swap (a b : Superstate) : Effect :=
  ofMoves fun s => if s = b then a else if s = a then b else s

/-- The same effect, taking the comments of some superstates along to where `carry` says. -/
def carrying (effect : Effect) (carry : Superstate → Superstate) : Effect :=
  { effect with comments := Superstate.commentableTable.map fun s => ⟨[], carry s, 0⟩ }

/-- Moves one superstate together with the comments that are open in it. -/
def carryingComments (source target : Superstate) : Effect :=
  (transition source target).carrying fun s => if s = source then target else s

/-- Opens or closes one comment wherever comments can be. Closing at depth zero does nothing. -/
def depthChange (delta : Int16) : Effect where
  images := Superstate.table.map fun s => ⟨s, if 0 < delta && s.isCommentable then 1 else 0⟩
  comments := Superstate.commentableTable.map fun s => ⟨[], s, delta⟩

/-- Where a state goes. A superstate that cannot hold comments is left alone at a positive depth. -/
def apply (effect : Effect) (state : LexicalState) : LexicalState :=
  if state.inComment then
    match state.superstate.commentSlot? with
    | some slot => effect.comments[slot].image state.depth
    | none => state
  else
    effect.images[state.superstate.index]

/-- The images of one superstate under two effects in a row. The table reaches every depth from
which the rules of both sides apply. -/
def composeComments (first next : Effect) (s : Superstate) (own : CommentImages) : CommentImages :=
  let (target, delta, nextLength) := match own.target.commentSlot? with
    | some slot =>
      let images := next.comments[slot]
      (images.target, own.delta + images.delta, images.explicit.length)
    | none => (own.target, own.delta, 0)
  let length := max (max (Int16.ofNat own.explicit.length) (Int16.ofNat nextLength - own.delta))
    (-own.delta)
  let explicit := (List.range (clampDepth length.toInt).toNat).map fun i =>
    next.apply (first.apply ⟨s, UInt8.ofNat (i + 1)⟩)
  CommentImages.trimmed ⟨explicit, target, delta⟩

/-- The effect of one text followed by another. -/
def andThen (first next : Effect) : Effect where
  images := first.images.map next.apply
  comments := Superstate.commentableTable.zipWith (composeComments first next) first.comments

/-- The effect of a row of texts, composed from the left. -/
def chain (effects : List Effect) : Effect :=
  effects.foldl andThen identity

end Effect

end LiveProse
