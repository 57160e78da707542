import LiveProse.Text.Codepoint

/-!
The codepoints with the Unicode property White_Space, and text cut at them.
-/

namespace LiveProse

/-- The property White_Space. It leaves out two codepoints of `Codepoint.isWhitespace`: the vertical
bar and the vowel separator U+180E. -/
def Codepoint.isBlank (c : Char) : Bool :=
  isWhitespace c && c != '|' && c != '\u180e'

/-- Whether the text has nothing but blanks. -/
def Text.isBlank (text : Text) : Bool :=
  text.all Codepoint.isBlank

/-- The maximal runs of codepoints that are not blank, from left to right. -/
def Text.fields (text : Text) : List Text :=
  (text.splitOnP Codepoint.isBlank).filter fun field => !field.isEmpty

end LiveProse
