/-!
Classes of codepoints. Whitespace is the Unicode set with the vertical bar, which prose reads as a
paragraph break; punctuation is exactly the codepoints that can take part in a delimiter; every
other codepoint except the terminator is a letter. Offsets count codepoints of the text as it was
given, so nothing here changes how many there are.
-/

namespace LiveProse

/-- Text is a list of codepoints: every offset and every length counts its members. -/
abbrev Text := List Char

namespace Codepoint

/-- The codepoint that stands for the end of the text. -/
def terminator : Char := '\uffff'

def isWhitespace (c : Char) : Bool :=
  ('\t' ≤ c && c ≤ '\r') || c == ' ' || c == '|' || c == '\u0085' || c == '\u00a0' || c == '\u1680'
    || c == '\u180e' || ('\u2000' ≤ c && c ≤ '\u200a') || c == '\u2028' || c == '\u2029'
    || c == '\u202f' || c == '\u205f' || c == '\u3000'

/-- The codepoints of delimiters, those of a documentation break aside. -/
def punctuation : List Char :=
  ['!', '\x22', '\x27', '(', ')', '*', '+', '-', '.', ':', ';', '[', '\\', ']']

def isPunctuation (c : Char) : Bool :=
  punctuation.contains c

def isLetter (c : Char) : Bool :=
  !isWhitespace c && !isPunctuation c && c != terminator

/-- Digits are the ten of ASCII. -/
def isDigit (c : Char) : Bool :=
  '0' ≤ c && c ≤ '9'

/-- The letters that a documentation break is spelled with. -/
def breakLetters : List Char :=
  ['D', 'O', 'C', 'U', 'M', 'E', 'N', 'T', 'A', 'I']

def isBreakLetter (c : Char) : Bool :=
  breakLetters.contains c

/-- Folds what a word processor puts in place of a space, a hyphen, a quote or a line feed. One
codepoint becomes one codepoint, so offsets stay. -/
def normalize (c : Char) : Char :=
  if c == '\u0085' || c == '\u2028' || c == '\u2029' then '\n'
  else if c == '\u00a0' || ('\u2000' ≤ c && c ≤ '\u200a') then ' '
  else if '\u2010' ≤ c && c ≤ '\u2014' then '-'
  else if c == '\u2018' || c == '\u2019' then '\x27'
  else if c == '\u201c' || c == '\u201d' then '\x22'
  else c

end Codepoint

/-- The text with every codepoint folded to the plain one it stands for. -/
def Text.normalize (text : Text) : Text :=
  text.map Codepoint.normalize

@[simp] theorem Text.length_normalize (text : Text) : text.normalize.length = text.length := by
  simp [normalize]

end LiveProse
