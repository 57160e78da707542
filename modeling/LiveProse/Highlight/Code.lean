/-!
Highlight codes and what a client can display. The number of a code is hierarchical: its low byte
picks a variant of the code in the byte above, and the third byte picks a family. A client that
cannot display a code gets the nearest ancestor that it can display.
-/

namespace LiveProse

inductive HighlightCode where
  | ordinaryI7
  | i7Delimiter
  | ordinaryI6
  | i6Delimiter
  | i6Directive
  | i6Keyword
  | i6Function
  | i6FunctionDelimiter
  | i6PropertyLike
  | i6PropertyLikeDelimiter
  | vmAssembly
  | vmAssemblyDelimiter
  | comment
  | commentDelimiter
  | documentation
  | documentationDelimiter
  | pasteMarker
  | characterLiteral
  | characterLiteralDelimiter
  | stringLiteral
  | stringLiteralDelimiter
  | characterEscape
  | characterEscapeDelimiter
  | substitution
  | substitutionDelimiter
deriving DecidableEq, Repr

namespace HighlightCode

/-- Every code, in the order of its place in a set of codes. -/
def all : List HighlightCode :=
  [ordinaryI7, i7Delimiter, ordinaryI6, i6Delimiter, i6Directive, i6Keyword, i6Function,
    i6FunctionDelimiter, i6PropertyLike, i6PropertyLikeDelimiter, vmAssembly, vmAssemblyDelimiter,
    comment, commentDelimiter, documentation, documentationDelimiter, pasteMarker, characterLiteral,
    characterLiteralDelimiter, stringLiteral, stringLiteralDelimiter, characterEscape,
    characterEscapeDelimiter, substitution, substitutionDelimiter]

/-- The number of a code. -/
def raw : HighlightCode → Nat
  | ordinaryI7 => 0x00000
  | i7Delimiter => 0x00001
  | ordinaryI6 => 0x10000
  | i6Delimiter => 0x10001
  | i6Directive => 0x10002
  | i6Keyword => 0x10004
  | i6Function => 0x10100
  | i6FunctionDelimiter => 0x10101
  | i6PropertyLike => 0x10102
  | i6PropertyLikeDelimiter => 0x10103
  | vmAssembly => 0x20000
  | vmAssemblyDelimiter => 0x20001
  | comment => 0x30000
  | commentDelimiter => 0x30001
  | documentation => 0x30100
  | documentationDelimiter => 0x30101
  | pasteMarker => 0x30103
  | characterLiteral => 0x40000
  | characterLiteralDelimiter => 0x40001
  | stringLiteral => 0x40100
  | stringLiteralDelimiter => 0x40101
  | characterEscape => 0x40200
  | characterEscapeDelimiter => 0x40201
  | substitution => 0x40300
  | substitutionDelimiter => 0x40301

def ofRaw? (raw : Nat) : Option HighlightCode :=
  all.find? (·.raw == raw)

def name : HighlightCode → String
  | ordinaryI7 => "ORDINARY_I7"
  | i7Delimiter => "I7_DELIMITER"
  | ordinaryI6 => "ORDINARY_I6"
  | i6Delimiter => "I6_DELIMITER"
  | i6Directive => "I6_DIRECTIVE"
  | i6Keyword => "I6_KEYWORD"
  | i6Function => "I6_FUNCTION"
  | i6FunctionDelimiter => "I6_FUNCTION_DELIMITER"
  | i6PropertyLike => "I6_PROPERTY_LIKE"
  | i6PropertyLikeDelimiter => "I6_PROPERTY_LIKE_DELIMITER"
  | vmAssembly => "VM_ASSEMBLY"
  | vmAssemblyDelimiter => "VM_ASSEMBLY_DELIMITER"
  | comment => "COMMENT"
  | commentDelimiter => "COMMENT_DELIMITER"
  | documentation => "DOCUMENTATION"
  | documentationDelimiter => "DOCUMENTATION_DELIMITER"
  | pasteMarker => "PASTE_MARKER"
  | characterLiteral => "CHARACTER_LITERAL"
  | characterLiteralDelimiter => "CHARACTER_LITERAL_DELIMITER"
  | stringLiteral => "STRING_LITERAL"
  | stringLiteralDelimiter => "STRING_LITERAL_DELIMITER"
  | characterEscape => "CHARACTER_ESCAPE"
  | characterEscapeDelimiter => "CHARACTER_ESCAPE_DELIMITER"
  | substitution => "SUBSTITUTION"
  | substitutionDelimiter => "SUBSTITUTION_DELIMITER"

def ofName? (name : String) : Option HighlightCode :=
  all.find? (·.name == name)

/-- The name of a code with its number. -/
def describe (code : HighlightCode) : String :=
  code.name ++ "(0x" ++ String.ofList (Nat.toDigits 16 code.raw) ++ ")"

/-- The number that is left when the lowest byte that is not zero is cleared, with all below it. -/
def parentRaw? (raw : Nat) : Option Nat :=
  if raw % 0x100 ≠ 0 then some (raw - raw % 0x100)
  else if raw % 0x10000 ≠ 0 then some (raw - raw % 0x10000)
  else if raw ≠ 0 then some 0
  else none

/-- The code to fall back to. -/
def parent? (code : HighlightCode) : Option HighlightCode :=
  (parentRaw? code.raw).bind ofRaw?

theorem raw_parent?_lt {code parent : HighlightCode} (h : code.parent? = some parent) :
    parent.raw < code.raw := by
  cases code <;> cases h <;> decide

/-- The codes above a code, nearest first. -/
def ancestors (code : HighlightCode) : List HighlightCode :=
  match _ : code.parent? with
  | some parent => parent :: parent.ancestors
  | none => []
termination_by code.raw
decreasing_by exact raw_parent?_lt ‹_›

/-- The place of a code in a set of codes. -/
def bit (code : HighlightCode) : Nat :=
  all.idxOf code

/-- The set that holds only this code. -/
def flag (code : HighlightCode) : Nat :=
  1 <<< code.bit

end HighlightCode

/-- The codes that a client can display, one bit for each. -/
structure HighlightSupport where
  bits : Nat
deriving DecidableEq, Repr

namespace HighlightSupport

/-- The set of some codes. -/
def ofList (codes : List HighlightCode) : HighlightSupport :=
  ⟨codes.foldl (fun bits code => bits ||| code.flag) 0⟩

def all : HighlightSupport := ofList HighlightCode.all

/-- The codes of a client with few colours. -/
def basic : HighlightSupport :=
  ofList [.ordinaryI7, .comment, .documentation, .stringLiteral]

def empty : HighlightSupport := ofList []

def supports (support : HighlightSupport) (code : HighlightCode) : Bool :=
  support.bits.testBit code.bit

/-- The nearest code that can be displayed, or the topmost if there is none. -/
def resolve (support : HighlightSupport) (code : HighlightCode) : HighlightCode :=
  if support.supports code then code
  else match _ : code.parent? with
    | some parent => support.resolve parent
    | none => code
termination_by code.raw
decreasing_by exact HighlightCode.raw_parent?_lt ‹_›

end HighlightSupport

end LiveProse
