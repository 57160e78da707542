import LiveProse.Lexical.Lexeme

/-!
The lexer takes one codepoint at a time. It keeps the codepoints of the token it is in and flushes
a lexeme when a codepoint cannot extend it; the terminator flushes whatever is left.

A documentation break is a single token: a line break, the break line, and a line break again. The
lexer expects one after every line break that a hyphen follows. When the expectation fails it takes
the codepoints of the failed break once more, this time as ordinary tokens.
-/

namespace LiveProse

/-- What the codepoints that are pending amount to. -/
inductive LexerMode where
  | undecided
  | afterQuote
  | afterTwoQuotes
  | inWhitespace
  | afterReturn
  | afterFeed
  | afterNewline
  | inIndentation
  | inWord
  | afterParenthesis
  | afterHyphen
  | afterPlus
  /-- Inside a documentation break, with this much of the break line still to come. -/
  | inBreak (expected : Text)
  | afterBreakAndReturn
  | afterBreakAndFeed
  | afterBreakAndNewline
  | inIndentationAfterBreak
deriving DecidableEq, Repr

/-- The state of lexing. -/
structure Lexer where
  mode : LexerMode := .undecided
  /-- Whether the next line break with a hyphen after it begins no documentation break. -/
  inhibited : Bool := false
  /-- The codepoints of the token in progress, last one first. -/
  pending : List Char := []
  flushed : Array Lexeme := #[]
deriving DecidableEq, Repr

namespace Lexer

/-- The line of a documentation break. -/
def breakLine : Text :=
  ['-', '-', '-', '-', ' ', 'D', 'O', 'C', 'U', 'M', 'E', 'N', 'T', 'A', 'T', 'I', 'O', 'N', ' ',
    '-', '-', '-', '-']

/-- Adds a codepoint to the token in progress. -/
def take (lexer : Lexer) (c : Char) (mode : LexerMode) : Lexer :=
  { lexer with mode, pending := c :: lexer.pending }

/-- Ends the token in progress. -/
def flush (lexer : Lexer) (onlyWhitespace : Bool) (kind : TokenClass) (lines : Nat) : Lexer :=
  { lexer with
    pending := []
    flushed := lexer.flushed.push ⟨lexer.pending.reverse, onlyWhitespace, kind, lines⟩ }

/-- Ends the token in progress with this codepoint. -/
def takeAndFlush (lexer : Lexer) (c : Char) (kind : TokenClass) : Lexer :=
  (lexer.take c .undecided).flush false kind 0

/-- Takes a codepoint as the first of a token. The terminator begins none. -/
def start (lexer : Lexer) (c : Char) : Lexer :=
  if c = Codepoint.terminator then lexer
  else if c = '\n' then lexer.take c .afterFeed
  else if c = '\r' then lexer.take c .afterReturn
  else if c = '(' then lexer.take c .afterParenthesis
  else if c = '-' then lexer.take c .afterHyphen
  else if c = '+' then lexer.take c .afterPlus
  else if c = '\x27' then lexer.take c .afterQuote
  else if c = '\x22' then lexer.takeAndFlush c .doubleQuote
  else if c = '[' then lexer.takeAndFlush c .leftBracket
  else if c = ']' then lexer.takeAndFlush c .rightBracket
  else if c = '!' then lexer.takeAndFlush c .bang
  else if Codepoint.isWhitespace c then lexer.take c .inWhitespace
  else if Codepoint.isPunctuation c then lexer.takeAndFlush c .plainText
  else lexer.take c .inWord

/-- Ends the token in progress before a codepoint that begins the next. -/
def flushAndStart (lexer : Lexer) (c : Char) (onlyWhitespace : Bool) (kind : TokenClass)
    (lines : Nat) : Lexer :=
  (lexer.flush onlyWhitespace kind lines).start c

/-- After a complete line break. -/
def afterLineBreak (lexer : Lexer) (c : Char) : Lexer :=
  if c = '\t' then lexer.take c .inIndentation
  else if c = '-' then
    if lexer.inhibited then { lexer with inhibited := false }.flushAndStart c true .bareNewline 1
    else lexer.take c (.inBreak breakLine.tail)
  else lexer.flushAndStart c true .bareNewline 1

/-- After a documentation break whose closing line break `pair` may still complete. -/
def afterBreak (lexer : Lexer) (c : Char) (pair : Option Char) : Lexer :=
  if c = '\t' then lexer.take c .inIndentationAfterBreak
  else if pair = some c then lexer.take c .afterBreakAndNewline
  else lexer.flushAndStart c false .documentationBreak 2

/-- Takes a codepoint that the documentation break in progress expects. -/
def continueBreak? (lexer : Lexer) (c : Char) : Text → Option Lexer
  | [] =>
    if c = '\n' then some (lexer.take c .afterBreakAndFeed)
    else if c = '\r' then some (lexer.take c .afterBreakAndReturn)
    else none
  | next :: rest => if c = next then some (lexer.take c (.inBreak rest)) else none

/-- Takes a codepoint where no documentation break fails. -/
def advance (lexer : Lexer) (c : Char) : Lexer :=
  match lexer.mode with
  | .undecided => lexer.start c
  | .afterQuote =>
    if c = '\x27' then (lexer.flush false .singleQuote 0).take c .afterTwoQuotes
    else lexer.flushAndStart c false .singleQuote 0
  | .afterTwoQuotes =>
    if c = '\x27' then (lexer.flush false .plainText 0).takeAndFlush c .singleQuote
    else lexer.flushAndStart c false .singleQuote 0
  | .inWhitespace =>
    if Codepoint.isWhitespace c && c != '\r' && c != '\n' then lexer.take c .inWhitespace
    else lexer.flushAndStart c true .plainText 0
  | .afterReturn => if c = '\n' then lexer.take c .afterNewline else lexer.afterLineBreak c
  | .afterFeed => if c = '\r' then lexer.take c .afterNewline else lexer.afterLineBreak c
  | .afterNewline => lexer.afterLineBreak c
  | .inIndentation =>
    if c = '\t' then lexer.take c .inIndentation else lexer.flushAndStart c true .indentation 1
  | .inWord =>
    if Codepoint.isLetter c then lexer.take c .inWord else lexer.flushAndStart c false .plainText 0
  | .afterParenthesis =>
    if c = '-' then lexer.takeAndFlush c .leftCyclops
    else if c = '+' then lexer.takeAndFlush c .leftCrosseyedCyclops
    else lexer.flushAndStart c false .plainText 0
  | .afterHyphen =>
    if c = ')' then lexer.takeAndFlush c .rightCyclops else lexer.flushAndStart c false .plainText 0
  | .afterPlus =>
    if c = ')' then lexer.takeAndFlush c .rightCrosseyedCyclops
    else lexer.flushAndStart c false .plainText 0
  | .inBreak expected => (lexer.continueBreak? c expected).getD lexer
  | .afterBreakAndReturn => lexer.afterBreak c (some '\n')
  | .afterBreakAndFeed => lexer.afterBreak c (some '\r')
  | .afterBreakAndNewline => lexer.afterBreak c none
  | .inIndentationAfterBreak =>
    if c = '\t' then lexer.take c .inIndentationAfterBreak
    else lexer.flushAndStart c false .documentationBreakFollowedByIndentation 2

/-- Gives up the documentation break in progress: its codepoints are taken again with breaks
inhibited, and then `c`. No break fails meanwhile, since the only line break among these codepoints
comes before the first hyphen. -/
def abandonBreak (lexer : Lexer) (c : Char) : Lexer :=
  let fresh := { lexer with mode := .undecided, inhibited := true, pending := [] }
  (lexer.pending.reverse.foldl advance fresh).advance c

/-- Takes the next codepoint of the text. -/
def push (lexer : Lexer) (c : Char) : Lexer :=
  match lexer.mode with
  | .inBreak expected => (lexer.continueBreak? c expected).getD (lexer.abandonBreak c)
  | _ => lexer.advance c

/-- Takes codepoints in order. -/
def pushAll (lexer : Lexer) (text : Text) : Lexer :=
  text.foldl push lexer

@[simp] theorem pushAll_append (lexer : Lexer) (first next : Text) :
    lexer.pushAll (first ++ next) = (lexer.pushAll first).pushAll next :=
  List.foldl_append

/-- All lexemes, once the text has ended. -/
def finish (lexer : Lexer) : List Lexeme :=
  (lexer.push Codepoint.terminator).flushed.toList

/-- The lexemes of a complete text. -/
def lex (text : Text) : List Lexeme :=
  (pushAll {} text).finish

/-- Whether the last codepoint taken began a token instead of extending one. A pending quote never
counts as a beginning, because the quotes around it decide what it is. -/
def beganToken (lexer : Lexer) : Bool :=
  lexer.pending.length == 1 && lexer.mode != .afterQuote && lexer.mode != .afterTwoQuotes

end Lexer

end LiveProse
