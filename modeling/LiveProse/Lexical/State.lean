import LiveProse.Lexical.Superstate

/-!
Lexical states: a superstate and the number of prose comments that are open in it. As a pushdown
automaton, the superstate is the vertex and the depth the height of the stack.
-/

namespace LiveProse

/-- Where a position sits. No more than 255 comments are counted. -/
structure LexicalState where
  superstate : Superstate
  depth : UInt8 := 0
deriving DecidableEq, Repr

namespace LexicalState

/-- The state at the start of every text. -/
def initial : LexicalState := ⟨.prose false .plain, 0⟩

def inComment (state : LexicalState) : Bool :=
  state.depth != 0

/-- Comments are open only where comments can be. -/
def IsValid (state : LexicalState) : Prop :=
  state.inComment = true → state.superstate.isCommentable = true

/-- Whether the position is in plain prose, outside every string, inclusion and comment. -/
def isPlainProse (state : LexicalState) : Bool :=
  !state.inComment && match state.superstate with
    | .prose _ .plain => true
    | _ => false

def display (state : LexicalState) : String :=
  state.superstate.display ++ if state.inComment then "+" ++ toString state.depth.toNat else ""

end LexicalState

end LiveProse
