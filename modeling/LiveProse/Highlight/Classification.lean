import LiveProse.Highlight.Code
import LiveProse.Lexical.State

/-!
The highlight of a token depends on nothing but the lexical states on its two sides.
-/

namespace LiveProse

/-- What a reader sees a position as. -/
inductive HighlightContext where
  | i7
  | i6
  | i7Comment
  | i6Comment
  | documentation
  | character
  | string
  | substitution
deriving DecidableEq, Repr

namespace LexicalState

/-- What a reader sees the position as. An open comment hides all else. -/
def context (state : LexicalState) : HighlightContext :=
  if state.inComment then .i7Comment
  else match state.superstate with
    | .documentation => .documentation
    | .prose _ .plain | .embedded _ _ _ .plain => .i7
    | .prose _ .string | .embedded _ _ _ .string => .string
    | .prose _ .substitution | .embedded _ _ _ .substitution => .substitution
    | .inclusion _ _ .plain => .i6
    | .inclusion _ _ .character => .character
    | .inclusion _ _ .string => .string
    | .inclusion _ _ .comment => .i6Comment

/-- Whether the prose is embedded in an inclusion. -/
def isEmbedded (state : LexicalState) : Bool :=
  match state.superstate with
  | .embedded .. => true
  | _ => false

end LexicalState

/-- The highlight of a token between two states. -/
def highlightCode (before after : LexicalState) : HighlightCode :=
  match after.context with
  | .i7 => match before.context with
    | .i6 => if after.isEmbedded then .i7Delimiter else .i6Delimiter
    | .i6Comment => .i6Delimiter
    | .i7Comment => .commentDelimiter
    | .string | .substitution => .stringLiteralDelimiter
    | _ => .ordinaryI7
  | .i6 => match before.context with
    | .i7 => if before.isEmbedded then .i7Delimiter else .i6Delimiter
    | .character => .characterLiteralDelimiter
    | .string => .stringLiteralDelimiter
    | _ => .ordinaryI6
  | .i7Comment | .i6Comment => match before.context with
    | .i7 | .i6 | .documentation => .commentDelimiter
    | _ => .comment
  | .documentation =>
    if before.context = .i7 && !before.superstate.inExtract then .documentationDelimiter
    else .documentation
  | .character => match before.context with
    | .i6 => .characterLiteralDelimiter
    | _ => .characterLiteral
  | .string => match before.context with
    | .i7 | .i6 => .stringLiteralDelimiter
    | .substitution => .substitutionDelimiter
    | _ => .stringLiteral
  | .substitution => match before.context with
    | .string => .substitutionDelimiter
    | _ => .substitution

end LiveProse
