import LiveProse.Vocabulary
import LiveProse.Lexical.Lexeme
import LiveProse.Sequence.Sequence

/-!
Tokens as elements of a sequence. The sum of some tokens counts their codepoints and lines and
composes their effects, so a sum over the tokens before a position tells its offset and its lexical
state.
-/

namespace LiveProse

/-- The effect that a token or a sum of tokens carries. -/
inductive TokenEffect where
  /-- The effect of one token. -/
  | single (kind : TokenClass)
  /-- The effect of several tokens of which more than one is not plain. -/
  | composed (effect : Effect)
deriving DecidableEq

namespace TokenEffect

def toEffect : TokenEffect → Effect
  | single kind => kind.effect
  | composed effect => effect

/-- One effect after another. Composing with a plain token is skipped. -/
def andThen (first next : TokenEffect) : TokenEffect :=
  if next = single .plainText then first
  else if first = single .plainText then next
  else composed (first.toEffect.andThen next.toEffect)

end TokenEffect

/-- A token, or the sum of several. -/
structure Token where
  codepoints : Nat
  lines : Nat
  /-- The text of a single token. A sum has none. -/
  text : Option Word
  onlyWhitespace : Bool
  effect : TokenEffect
deriving DecidableEq

namespace Token

/-- The sum of no tokens. -/
def neutral : Token := ⟨0, 0, none, true, .single .plainText⟩

def combine (first next : Token) : Token where
  codepoints := first.codepoints + next.codepoints
  lines := first.lines + next.lines
  text := none
  onlyWhitespace := first.onlyWhitespace && next.onlyWhitespace
  effect := first.effect.andThen next.effect

/-- Tokens are searched by offset. -/
instance : Combine.Ordered Token where
  neutral := neutral
  combine := combine
  precedes first next := first.codepoints < next.codepoints

/-- The token of a lexeme, whose text joins the vocabulary. -/
def ofLexeme (vocabulary : Vocabulary) (lexeme : Lexeme) : Vocabulary × Token :=
  let (vocabulary, word) := vocabulary.intern lexeme.text
  (vocabulary,
    ⟨lexeme.text.length, lexeme.lines, some word, lexeme.onlyWhitespace, .single lexeme.kind⟩)

/-- What to search for to find the token that holds the codepoint at an offset. -/
def target (offset : Nat) : Token :=
  { neutral with codepoints := offset }

/-- The state after the token, from the state before it. -/
def stateAfter (token : Token) (before : LexicalState) : LexicalState :=
  token.effect.toEffect.apply before

/-- The text of the token in full. -/
def spelling (token : Token) (vocabulary : Vocabulary) : Text :=
  (token.text.map vocabulary.lookup).getD []

end Token

/-- The tokens of a text. -/
abbrev TokenSequence := Sequence Token

namespace TokenSequence

/-- The texts of the tokens in order. -/
def spellings (tokens : TokenSequence) (vocabulary : Vocabulary) : List Text :=
  tokens.toList.map (·.spelling vocabulary)

/-- The text that the tokens make up. -/
def text (tokens : TokenSequence) (vocabulary : Vocabulary) : Text :=
  (spellings tokens vocabulary).flatten

/-- The number of codepoints before a position. -/
def offset (tokens : TokenSequence) (cursor : Cursor) : Nat :=
  (tokens.sumBefore cursor).codepoints

/-- The position of the token that holds the codepoint at an offset. -/
def locate (tokens : TokenSequence) (offset : Nat) : Cursor :=
  tokens.find (Token.target offset)

/-- The lexical state at a position, by the sum of all effects before it. -/
def stateBefore (tokens : TokenSequence) (cursor : Cursor) : LexicalState :=
  (tokens.sumBefore cursor).stateAfter .initial

/-- The tokens in order, each with the states before and after it, by taking one effect after
another. -/
def withStates (before : LexicalState) : List Token → List (Token × LexicalState × LexicalState)
  | [] => []
  | token :: rest =>
    let after := token.stateAfter before
    (token, before, after) :: withStates after rest

/-- The states are put beside the tokens, which stay as they are. -/
@[simp] theorem map_fst_withStates (before : LexicalState) (tokens : List Token) :
    (withStates before tokens).map (·.1) = tokens := by
  induction tokens generalizing before with
  | nil => rfl
  | cons token rest ih => simp [withStates, ih]

end TokenSequence

end LiveProse
