import LiveProse.Highlight.Classification
import LiveProse.Relex

/-!
Highlighting a whole text as runs of one code, and what an edit changes about it. After an edit the
tokens are walked from the first relexed one until the new states agree with the old ones, and the
client is told to clear that range and to colour it anew.
-/

namespace LiveProse

/-- The codepoints `lo` to `hi`, the last one excluded, in one code. -/
structure HighlightRun where
  lo : Nat
  hi : Nat
  code : HighlightCode
deriving DecidableEq, Repr

/-- What a client does to its colours. -/
inductive HighlightEvent where
  | remove (lo hi : Nat)
  | add (run : HighlightRun)
deriving DecidableEq, Repr

def HighlightRun.display (run : HighlightRun) : String :=
  toString run.lo ++ ".." ++ toString run.hi ++ " " ++ run.code.name

def HighlightEvent.display : HighlightEvent → String
  | remove lo hi => "remove " ++ toString lo ++ ".." ++ toString hi
  | add run => "add " ++ run.display

/-- Runs in the making: those that are closed, last one first, and the start and code of the one
that is open. -/
structure RunBuilder where
  position : Nat
  opened : Option (Nat × HighlightCode) := none
  closed : List HighlightRun := []

namespace RunBuilder

/-- Closes the open run. A run without codepoints is dropped. -/
def close (runs : RunBuilder) : RunBuilder :=
  match runs.opened with
  | some (lo, code) =>
    let closed :=
      if lo < runs.position then ⟨lo, runs.position, code⟩ :: runs.closed else runs.closed
    { runs with opened := none, closed }
  | none => runs

/-- Adds some codepoints of a code, to the open run if it is of that code. -/
def push (runs : RunBuilder) (width : Nat) (code : HighlightCode) : RunBuilder :=
  let runs := if runs.opened.any (·.2 == code) then runs
    else { runs.close with opened := some (runs.position, code) }
  { runs with position := runs.position + width }

/-- The runs from left to right. -/
def finish (runs : RunBuilder) : List HighlightRun :=
  runs.close.closed.reverse

end RunBuilder

/-- The code that a client is given for a token between two states. -/
def HighlightSupport.codeOf (support : HighlightSupport) (before after : LexicalState) :
    HighlightCode :=
  support.resolve (highlightCode before after)

/-- Adds a token between two states to the runs. -/
def RunBuilder.pushToken (support : HighlightSupport) (runs : RunBuilder)
    (token : Token × LexicalState × LexicalState) : RunBuilder :=
  runs.push token.1.codepoints (support.codeOf token.2.1 token.2.2)

/-- The runs of all tokens. -/
def highlightAll (tokens : TokenSequence) (support : HighlightSupport) : List HighlightRun :=
  ((TokenSequence.withStates .initial tokens.toList).foldl (RunBuilder.pushToken support)
    ⟨0, none, []⟩).finish

/-- Adds tokens to the runs as long as the new states in front of them differ from the old ones. -/
def pushRestated (support : HighlightSupport) (runs : RunBuilder) (old new : LexicalState) :
    List Token → RunBuilder
  | [] => runs
  | token :: rest =>
    if old = new then runs
    else
      let after := token.stateAfter new
      pushRestated support (RunBuilder.pushToken support runs (token, new, after))
        (token.stateAfter old) after rest

/-- What a client has to do after an edit. -/
def rehighlight (tokens : TokenSequence) (outcome : RelexOutcome) (support : HighlightSupport) :
    List HighlightEvent :=
  if outcome.start.isNone then []
  else
    let lo := TokenSequence.offset tokens outcome.start
    let rank := tokens.rank outcome.start
    let relexed := tokens.rank outcome.stop - rank
    let walked := tokens.toList.drop rank
    let states := TokenSequence.withStates outcome.before (walked.take relexed)
    let runs := states.foldl (RunBuilder.pushToken support) ⟨lo, none, []⟩
    let reached := (states.getLast?.map (·.2.2)).getD outcome.before
    let runs := pushRestated support runs outcome.oldAfter reached (walked.drop relexed)
    if runs.position = lo then []
    else .remove lo runs.position :: runs.finish.map .add

end LiveProse
