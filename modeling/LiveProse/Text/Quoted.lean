import LiveProse.Text.Codepoint
import LiveProse.Text.Printable

/-!
Text shown on one line between double quotes, as reports print it.
-/

namespace LiveProse

/-- How one codepoint is written between the quotes: a short escape where there is one, its number
in braces where it would not show by itself, and itself otherwise. -/
def Codepoint.escaped (c : Char) : Text :=
  if c == '\x00' then ['\\', '0']
  else if c == '\t' then ['\\', 't']
  else if c == '\n' then ['\\', 'n']
  else if c == '\r' then ['\\', 'r']
  else if c == '\x22' || c == '\\' then ['\\', c]
  else if isExtending c || !isPrintable c then
    ['\\', 'u', '\x7b'] ++ Nat.toDigits 16 c.toNat ++ ['\x7d']
  else [c]

/-- The text between double quotes, on one line. -/
def Text.quoted (text : Text) : Text :=
  '\x22' :: text.flatMap Codepoint.escaped ++ ['\x22']

end LiveProse
