import LiveProse.Script.ScriptEdit
import LiveProse.Text.Blank
import LiveProse.Text.Lines

/-!
Reading edit scripts. A script has one edit on a line: `+<index> <text>` inserts a text and
`-<lo> <hi>` removes a range. Blank lines and lines that begin with `#` are skipped, and the first
line that is wrong decides the error.
-/

namespace LiveProse

namespace Script

/-- The number that some digits write. -/
def decimal (digits : Text) : Nat :=
  digits.foldl (fun n c => 10 * n + (c.toNat - '0'.toNat)) 0

/-- An index is one digit or more, after a plus sign or without one, and fits 64 bits. -/
def readIndex (field : Text) : Except ScriptFault Nat :=
  let digits := match field with
    | '+' :: rest => rest
    | _ => field
  if !digits.isEmpty && digits.all Codepoint.isDigit && decimal digits < UInt64.size then
    .ok (decimal digits)
  else .error (.notIndex field)

/-- The text that an insertion writes: a backslash stands before `n` for a newline, before `t` for a
tab, and before another backslash for itself. -/
def unescape : Text → Except ScriptFault Text
  | [] => .ok []
  | '\\' :: 'n' :: rest => (unescape rest).map ('\n' :: ·)
  | '\\' :: 't' :: rest => (unescape rest).map ('\t' :: ·)
  | '\\' :: '\\' :: rest => (unescape rest).map ('\\' :: ·)
  | '\\' :: c :: _ => .error (.unknownEscape c)
  | ['\\'] => .error .trailingBackslash
  | c :: rest => (unescape rest).map (c :: ·)

/-- The insertion that follows a plus sign. The text begins after the first space. -/
def readInsertion (line : Text) : Except ScriptFault ScriptEdit := do
  let index ← readIndex (line.takeWhile (· != ' '))
  let text ← unescape (line.dropWhile (· != ' ')).tail
  return .insertion index text

/-- The removal that follows a minus sign. -/
def readRemoval (line : Text) : Except ScriptFault ScriptEdit :=
  match line.fields with
  | [first, last] => do
    let lo ← readIndex first
    let hi ← readIndex last
    if hi < lo then throw (.backwards lo hi)
    return .removal lo hi
  | _ => .error .notRange

/-- The edit on a line, if there is one. -/
def readLine (line : Text) : Except ScriptFault (Option ScriptEdit) :=
  if line.isBlank then .ok none
  else match line with
    | '#' :: _ => .ok none
    | '+' :: rest => some <$> readInsertion rest
    | '-' :: rest => some <$> readRemoval rest
    | _ => .error .notEdit

/-- The edits on lines, the first of which has a number. -/
def readLines (number : Nat) : List Text → Except ScriptError (List ScriptEdit)
  | [] => .ok []
  | line :: others => do
    let edit? ← (readLine line).mapError (⟨number, ·⟩)
    let edits ← readLines (number + 1) others
    return edit?.toList ++ edits

/-- The edits of a script in order. -/
def read (source : Text) : Except ScriptError (List ScriptEdit) :=
  readLines 1 source.lines

end Script

end LiveProse
