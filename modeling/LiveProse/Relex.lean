import LiveProse.Token
import LiveProse.Lexical.Lexer

/-!
Relexing after an edit. The edit replaces the codepoints of a range. Lexing starts again at the
earliest token that the first altered codepoint could become part of, goes through the new text, and
stops at the first old token that begins just as it did before. The tokens in between are replaced.

A plan is made before anything changes, so that whatever hangs on the doomed tokens can be taken
down while they are still there.
-/

namespace LiveProse

/-- The replacement of the codepoints `lo` to `hi`, the last one excluded, by some text. -/
structure Edit where
  lo : Nat
  hi : Nat
  text : Text
deriving DecidableEq, Repr

namespace Edit

/-- The edit that puts text in front of a codepoint. -/
def insertion (offset : Nat) (text : Text) : Edit := ⟨offset, offset, text⟩

/-- The edit that takes a range away. -/
def removal (lo hi : Nat) : Edit := ⟨lo, hi, []⟩

def isEmpty (edit : Edit) : Bool :=
  edit.lo == edit.hi && edit.text.isEmpty

/-- What the edit makes of a text. -/
def splice (edit : Edit) (text : Text) : Text :=
  text.take edit.lo ++ edit.text ++ text.drop edit.hi

end Edit

/-- An edit whose range is backwards or goes beyond the text. -/
structure EditOutOfRange where
  lo : Nat
  hi : Nat
  length : Nat
deriving DecidableEq, Repr

def EditOutOfRange.message (error : EditOutOfRange) : String :=
  "edit range " ++ toString error.lo ++ ".." ++ toString error.hi ++ " does not fit a buffer of " ++
    toString error.length ++ " codepoints"

namespace Relex

/-! ### How far to go back -/

/-- The tokens that a documentation break falls apart into after its line break, from the last. -/
def brokenBreak : List Text :=
  [['-'], ['-'], ['-'], ['-'], [' '],
    ['D', 'O', 'C', 'U', 'M', 'E', 'N', 'T', 'A', 'T', 'I', 'O', 'N'],
    [' '], ['-'], ['-'], ['-'], ['-']]

/-- Goes back over tokens as long as they are the expected ones. -/
def backOver (texts : List Text) (rank : Nat) : List Text → Nat
  | [] => rank
  | expected :: others =>
    if texts[rank]? = some expected then backOver texts (rank - 1) others else rank

/-- Goes back over the run of single quotes before a token. -/
def backOverQuotes (texts : List Text) : Nat → Nat
  | 0 => 0
  | rank + 1 => if texts[rank]? = some ['\x27'] then backOverQuotes texts rank else rank + 1

/-- Goes back to the line break of a documentation break that the codepoint could be part of, or
else over the one token that it could extend. -/
def backOverBreak (texts : List Text) (rank : Nat) (c : Char) : Nat :=
  let rank := rank - 1
  if c = '\n' ∨ c = '\r' then backOver texts rank brokenBreak
  else if c = ' ' then
    backOver texts rank
      (brokenBreak.drop (if texts[rank]? = some (brokenBreak[5]) then 5 else 7))
  else if c = '-' then
    backOver texts (backOver texts rank [['-'], ['-'], ['-']]) (brokenBreak.drop 4)
  else if (texts[rank]?).any (·.all Codepoint.isBreakLetter) then
    backOver texts (rank - 1) (brokenBreak.drop 6)
  else backOver texts rank (brokenBreak.drop 6)

/-- The rank of the earliest token whose lexing may change when the token at `rank` comes to begin
with a codepoint. -/
def backUp (texts : List Text) (rank : Nat) (c : Char) : Nat :=
  if c = ' ' ∨ c = '-' ∨ c = '\n' ∨ c = '\r' ∨ Codepoint.isBreakLetter c then
    backOverBreak texts rank c
  else if c = '+' ∨ c = ')' then rank - 1
  else if c = '\x27' ∨ c = Codepoint.terminator then backOverQuotes texts rank
  else if Codepoint.isPunctuation c then rank
  else rank - 1

/-! ### Where an edit falls -/

/-- An edit as it falls on tokens: the ranks of the first token that it touches and of the first one
after it, and the text that takes the place of those in between. -/
structure Cut where
  first : Nat
  resume : Nat
  middle : Text
deriving DecidableEq, Repr

/-- The tokens that an edit touches. An edit between two tokens touches neither. -/
def cut (tokens : TokenSequence) (vocabulary : Vocabulary) (edit : Edit) : Cut :=
  let spelling (cursor : Cursor) : Text :=
    ((tokens.at? cursor).map (·.spelling vocabulary)).getD []
  let first := TokenSequence.locate tokens edit.lo
  let lead := edit.lo - TokenSequence.offset tokens first
  if 0 < lead ∨ edit.lo < edit.hi then
    let last := if edit.lo < edit.hi then TokenSequence.locate tokens (edit.hi - 1) else first
    let trail := edit.hi - TokenSequence.offset tokens last
    ⟨tokens.rank first, tokens.rank (tokens.next last),
      (spelling first).take lead ++ edit.text ++ (spelling last).drop trail⟩
  else ⟨tokens.rank first, tokens.rank first, edit.text⟩

/-- Takes old tokens until one of them begins a token at its first codepoint. Answers the lexer and
the number of old tokens that were taken whole. -/
def lexOn (lexer : Lexer) : List Text → Lexer × Nat
  | [] => (lexer.push Codepoint.terminator, 0)
  | [] :: _ => (lexer.push Codepoint.terminator, 0)
  | (c :: text) :: rest =>
    let begun := lexer.push c
    if begun.beganToken then (begun, 0)
    else
      let (done, taken) := lexOn (begun.pushAll text) rest
      (done, taken + 1)

/-- What is lexed again: from the token of rank `start`, `replaced` tokens become the lexemes. -/
structure Region where
  start : Nat
  replaced : Nat
  lexemes : List Lexeme
deriving DecidableEq, Repr

/-- Lexes again what a cut into a row of tokens may have changed. -/
def region (texts : List Text) (cut : Cut) : Region :=
  let altered := (cut.middle.head?.or ((texts[cut.resume]?).bind (·.head?))).getD
    Codepoint.terminator
  let start := if texts.isEmpty then cut.first else backUp texts cut.first altered
  let kept := ((texts.take cut.first).drop start).flatten
  let (lexer, taken) := lexOn (Lexer.pushAll {} (kept ++ cut.middle)) (texts.drop cut.resume)
  ⟨start, cut.resume + taken - start, lexer.flushed.toList⟩

end Relex

/-- What an edit will do to the tokens: `replaced` of them from `start` on make way for the lexemes.
`before` is the state in front of them, and `oldAfter` the state that used to be behind them. -/
structure RelexPlan where
  start : Cursor
  replaced : Nat
  lexemes : List Lexeme
  before : LexicalState
  oldAfter : LexicalState

/-- What an edit has done: the handles of the inserted tokens, the positions around them, and the
states of the plan. -/
structure RelexOutcome where
  start : Cursor
  stop : Cursor
  inserted : List Handle
  before : LexicalState
  oldAfter : LexicalState

namespace RelexPlan

/-- The plan for an edit, or nothing for an edit that changes nothing. The range is looked at
first. -/
def make (tokens : TokenSequence) (vocabulary : Vocabulary) (edit : Edit) :
    Except EditOutOfRange (Option RelexPlan) :=
  let length := tokens.total.codepoints
  if edit.hi < edit.lo ∨ length < edit.hi then .error ⟨edit.lo, edit.hi, length⟩
  else if edit.isEmpty then .ok none
  else
    let texts := TokenSequence.spellings tokens vocabulary
    let region := Relex.region texts (Relex.cut tokens vocabulary edit)
    let start := tokens.nth region.start
    let stop := tokens.nth (region.start + region.replaced)
    .ok (some {
      start
      replaced := region.replaced
      lexemes := region.lexemes
      before := TokenSequence.stateBefore tokens start
      oldAfter := TokenSequence.stateBefore tokens stop })

/-- The tokens that make way. -/
def doomed (plan : RelexPlan) (tokens : TokenSequence) : List (Handle × Token) :=
  (tokens.entries.drop (tokens.rank plan.start)).take plan.replaced

/-- The state behind the lexemes. -/
def newAfter (plan : RelexPlan) : LexicalState :=
  plan.lexemes.foldl (fun state lexeme => lexeme.kind.apply state) plan.before

/-- Erases a number of tokens from a position on. -/
def eraseFrom (tokens : TokenSequence) (cursor : Cursor) : Nat → TokenSequence × Cursor
  | 0 => (tokens, cursor)
  | count + 1 =>
    let (tokens, cursor) := tokens.erase cursor
    eraseFrom tokens cursor count

/-- Inserts lexemes as tokens before a position and answers their handles. -/
def insertAll (tokens : TokenSequence) (vocabulary : Vocabulary) (cursor : Cursor) :
    List Lexeme → TokenSequence × Vocabulary × List Handle
  | [] => (tokens, vocabulary, [])
  | lexeme :: rest =>
    let (vocabulary, token) := Token.ofLexeme vocabulary lexeme
    let (tokens, handle) := tokens.insert cursor token
    let (tokens, vocabulary, handles) := insertAll tokens vocabulary cursor rest
    (tokens, vocabulary, handle :: handles)

/-- Carries the plan out on the tokens that it was made for. -/
def apply (plan : RelexPlan) (tokens : TokenSequence) (vocabulary : Vocabulary) :
    TokenSequence × Vocabulary × RelexOutcome :=
  let (tokens, stop) := eraseFrom tokens plan.start plan.replaced
  let (tokens, vocabulary, inserted) := insertAll tokens vocabulary stop plan.lexemes
  let start := (inserted.head?).or stop
  (tokens, vocabulary, ⟨start, stop, inserted, plan.before, plan.oldAfter⟩)

end RelexPlan

/-- The leading tokens over which two states stay different, each with the state that the second
comes to before it. -/
def differingTokens (old new : LexicalState) : List (Handle × Token) → List (Handle × Token)
  | [] => []
  | (handle, token) :: rest =>
    if old = new then []
    else (handle, token) :: differingTokens (token.stateAfter old) (token.stateAfter new) rest

/-- The tokens behind the inserted ones that kept their text and are now in another state. -/
def RelexOutcome.restated (outcome : RelexOutcome) (tokens : TokenSequence) :
    List (Handle × Token) :=
  differingTokens outcome.oldAfter (TokenSequence.stateBefore tokens outcome.stop)
    (tokens.entries.drop (tokens.rank outcome.stop))

end LiveProse
