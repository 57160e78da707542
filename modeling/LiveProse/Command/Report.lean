import LiveProse.Command.Error
import LiveProse.CoreGrammar
import LiveProse.Text.Quoted

/-!
What the commands print about a source text, line by line: its tokens, its highlight runs, its
matches under the core grammar, and what a script of edits changes about it.
-/

namespace LiveProse

namespace Report

/-- The buffer that holds the text. -/
def bufferId : BufferId := ⟨1⟩

/-- A session with an empty buffer in it. -/
def emptied (session : Session) : Except CommandError Session :=
  (session.introduceBuffer bufferId .story).mapError .session

/-- Edits the buffer. -/
def edited (session : Session) (edit : Edit) :
    Except CommandError (Session × List HighlightEvent) :=
  (session.edit bufferId edit.lo edit.hi edit.text).mapError .session

/-- A session without productions that holds the text. -/
def plain (config : SessionConfig) (text : Text) : Except CommandError Session := do
  return (← edited (← emptied (.new config)) (.insertion 0 text)).1

/-- A session with the core grammar that holds the text. -/
def parsed (config : SessionConfig) (text : Text) : Except CommandError Session := do
  let (session, core) := CoreGrammar.install (.new config)
  let _ ← core.mapError CommandError.grammar
  return (← edited (← emptied session) (.insertion 0 text)).1

def range (lo hi : Nat) : String := toString lo ++ ".." ++ toString hi

/-- A line that belongs to the one above it. -/
def indented (line : String) : String := "  " ++ line

/-- The lines of tokens with the states around them, the first of which begins at an offset. -/
def tokenLines (vocabulary : Vocabulary) (offset : Nat) :
    List (Token × LexicalState × LexicalState) → List String
  | [] => []
  | (token, before, after) :: others =>
    let stop := offset + token.codepoints
    indented (range offset stop ++ " " ++ String.ofList (token.spelling vocabulary).quoted ++ " " ++
      before.display ++ " -> " ++ after.display) :: tokenLines vocabulary stop others

/-- The tokens of the text with the lexical states around them. -/
def lex (config : SessionConfig) (text : Text) : Except CommandError (List String) := do
  let session ← plain config text
  let buffer ← (session.buffer bufferId).mapError CommandError.session
  let tokens := buffer.tokens.toList
  return (toString tokens.length ++ " tokens") ::
    tokenLines session.vocabulary 0 (TokenSequence.withStates .initial tokens)

/-- The highlight runs of the text. -/
def highlight (config : SessionConfig) (text : Text) : Except CommandError (List String) := do
  let session ← plain config text
  let runs ← (session.highlights bufferId).mapError CommandError.session
  return (toString runs.length ++ " runs") :: runs.map fun run => indented run.display

/-- The line of a complete match in a text. -/
def matchLine (session : Session) (text : Text) (span : MatchSpan) : String :=
  let variant := ((session.grammar.get? span.production).map (·.variant.name)).getD ""
  let excerpt : Text := (text.take span.hi).drop span.lo
  indented (range span.lo span.hi ++ " " ++
    String.ofList (session.vocabulary.lookup span.result.name) ++ " (" ++
    span.production.display ++ " " ++ variant ++ ") " ++ String.ofList excerpt.quoted)

/-- The complete matches in the buffer. -/
def matchLines (session : Session) : Except CommandError (List String) := do
  let text ← (session.text bufferId).mapError CommandError.session
  let spans ← (session.completeMatches bufferId).mapError CommandError.session
  return (toString spans.length ++ " matches") :: spans.map (matchLine session text)

/-- The line that tells what the engine did. -/
def statsLine (stats : DerivationStats) : String := "stats: " ++ stats.display

/-- The complete matches of the text. -/
def parse (config : SessionConfig) (text : Text) : Except CommandError (List String) := do
  let session ← parsed config text
  let lines ← matchLines session
  return if config.stats then lines ++ [statsLine session.stats] else lines

/-- Makes the edits one after another, the first of which has a number, and reports each. -/
def replayFrom (number : Nat) (session : Session) :
    List ScriptEdit → Except CommandError (Session × List String)
  | [] => .ok (session, [])
  | edit :: others => do
    let (session, events) ← edited session edit.toEdit
    let head := "step " ++ toString number ++ ": " ++ edit.display
    let changes := events.map fun event => indented event.display
    let (session, stats) := if session.config.stats then
        let (session, stats) := session.takeStats
        (session, [indented (statsLine stats)])
      else (session, [])
    let (session, lines) ← replayFrom (number + 1) session others
    return (session, head :: changes ++ stats ++ lines)

/-- What the edits change, and the complete matches of the text that they lead to. -/
def replay (config : SessionConfig) (text : Text) (edits : List ScriptEdit) :
    Except CommandError (List String) := do
  let (session, _) := (← parsed config text).takeStats
  let (session, lines) ← replayFrom 1 session edits
  return lines ++ (← matchLines session)

end Report

end LiveProse
