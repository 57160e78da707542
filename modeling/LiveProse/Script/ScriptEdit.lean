import LiveProse.Relex
import LiveProse.Text.Quoted

/-!
The edits that a script is made of, and what can be wrong with a line of a script.
-/

namespace LiveProse

/-- One edit of a script. -/
inductive ScriptEdit where
  /-- Puts a text in front of the codepoint with an index. -/
  | insertion (index : Nat) (text : Text)
  /-- Takes the codepoints `lo` to `hi` away, the last one excluded. -/
  | removal (lo hi : Nat)
deriving DecidableEq, Repr

namespace ScriptEdit

def toEdit : ScriptEdit → Edit
  | insertion index text => .insertion index text
  | removal lo hi => .removal lo hi

/-- The edit on one line, as a report shows it. -/
def display : ScriptEdit → String
  | insertion index text => "+" ++ toString index ++ " " ++ String.ofList text.quoted
  | removal lo hi => "-" ++ toString lo ++ " " ++ toString hi

end ScriptEdit

/-- Why a line is no edit. -/
inductive ScriptFault where
  /-- A field that should be an index is something else. -/
  | notIndex (field : Text)
  /-- A backslash in front of a codepoint that it cannot stand before. -/
  | unknownEscape (c : Char)
  /-- A backslash at the end of the line. -/
  | trailingBackslash
  /-- A removal without exactly two fields. -/
  | notRange
  /-- A removal that ends before it begins. -/
  | backwards (lo hi : Nat)
  /-- A line that begins neither an insertion nor a removal. -/
  | notEdit
deriving DecidableEq, Repr

def ScriptFault.message : ScriptFault → String
  | notIndex field => "'" ++ String.ofList field ++ "' is not a codepoint index"
  | unknownEscape c => "unknown escape '\\" ++ String.singleton c ++ "'"
  | trailingBackslash => "trailing backslash"
  | notRange => "expected -<lo> <hi>"
  | backwards lo hi => "range " ++ toString lo ++ ".." ++ toString hi ++ " is backwards"
  | notEdit => "expected a line starting with + or -"

/-- The first line of a script that is no edit, counted from one, and why it is none. -/
structure ScriptError where
  line : Nat
  fault : ScriptFault
deriving DecidableEq, Repr

def ScriptError.message (error : ScriptError) : String :=
  "line " ++ toString error.line ++ " of the edit script: " ++ error.fault.message

end LiveProse
