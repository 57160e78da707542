import LiveProse.Text.Codepoint
import LiveProse.Lexical.TokenClass

/-!
Lexemes: stretches of text that lex as one token.
-/

namespace LiveProse

/-- One token of a text, spelled out. -/
structure Lexeme where
  text : Text
  /-- Whether there is nothing but whitespace, line breaks included. -/
  onlyWhitespace : Bool
  kind : TokenClass
  /-- The number of line breaks that the token counts as. -/
  lines : Nat
deriving DecidableEq, Repr

end LiveProse
