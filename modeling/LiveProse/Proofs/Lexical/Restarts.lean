import LiveProse.Proofs.Lexical.Contents

/-! A lexer reads the codepoints in progress and its modes, but never what it has flushed: lexemes flushed
before stay in front, whatever it goes on to do (`behind_push`). Where it says that a codepoint began a
token, everything else is as in a lexer that was given this codepoint first, so that the rest of the text
is lexed as a text of its own. The rest can hold terminators, but what comes before the codepoint cannot: a
terminator ends the token in progress and leaves the mode of the lexer as it was. -/

namespace LiveProse

namespace Lexer

open Codepoint

variable {prior : Array Lexeme} {lexer : Lexer} {c : Char}

/-- The lexer with lexemes in front of those that it has flushed. -/
def behind (prior : Array Lexeme) (lexer : Lexer) : Lexer :=
  { lexer with flushed := prior ++ lexer.flushed }

theorem behind_take (prior : Array Lexeme) (lexer : Lexer) (c : Char) (mode : LexerMode) :
    (behind prior lexer).take c mode = behind prior (lexer.take c mode) := rfl

theorem behind_flush (prior : Array Lexeme) (lexer : Lexer) (onlyWhitespace : Bool) (kind : TokenClass)
    (lines : Nat) : (behind prior lexer).flush onlyWhitespace kind lines =
      behind prior (lexer.flush onlyWhitespace kind lines) := by
  simp only [behind, flush, Array.append_push]

theorem behind_takeAndFlush (prior : Array Lexeme) (lexer : Lexer) (c : Char) (kind : TokenClass) :
    (behind prior lexer).takeAndFlush c kind = behind prior (lexer.takeAndFlush c kind) := by
  rw [takeAndFlush, behind_take, behind_flush, takeAndFlush]

theorem behind_start (prior : Array Lexeme) (lexer : Lexer) (c : Char) :
    (behind prior lexer).start c = behind prior (lexer.start c) := by
  simp only [start, apply_ite (behind prior), behind_take, behind_takeAndFlush]

theorem behind_flushAndStart (prior : Array Lexeme) (lexer : Lexer) (c : Char) (onlyWhitespace : Bool)
    (kind : TokenClass) (lines : Nat) : (behind prior lexer).flushAndStart c onlyWhitespace kind lines =
      behind prior (lexer.flushAndStart c onlyWhitespace kind lines) := by
  rw [flushAndStart, behind_flush, behind_start, flushAndStart]

theorem behind_afterLineBreak (prior : Array Lexeme) (lexer : Lexer) (c : Char) :
    (behind prior lexer).afterLineBreak c = behind prior (lexer.afterLineBreak c) := by
  have hlifted : { behind prior lexer with inhibited := false } =
      behind prior { lexer with inhibited := false } := rfl
  simp only [afterLineBreak, apply_ite (behind prior), behind_take, hlifted, behind_flushAndStart]
  rfl

theorem behind_afterBreak (prior : Array Lexeme) (lexer : Lexer) (c : Char) (pair : Option Char) :
    (behind prior lexer).afterBreak c pair = behind prior (lexer.afterBreak c pair) := by
  simp only [afterBreak, apply_ite (behind prior), behind_take, behind_flushAndStart]

theorem behind_continueBreak? (prior : Array Lexeme) (lexer : Lexer) (c : Char) (expected : Text) :
    (behind prior lexer).continueBreak? c expected =
      (lexer.continueBreak? c expected).map (behind prior) := by
  cases expected <;>
    simp only [continueBreak?, apply_ite (Option.map (behind prior)), Option.map_some, Option.map_none,
      behind_take]

theorem behind_advance (prior : Array Lexeme) (lexer : Lexer) (c : Char) :
    (behind prior lexer).advance c = behind prior (lexer.advance c) := by
  have hmode : (behind prior lexer).mode = lexer.mode := rfl
  unfold advance
  rw [hmode]
  cases lexer.mode <;>
    simp only [apply_ite (behind prior), behind_start, behind_flush, behind_take, behind_takeAndFlush,
      behind_flushAndStart, behind_afterLineBreak, behind_afterBreak, behind_continueBreak?,
      Option.getD_map]

/-- The codepoints of a break that fails are taken again behind whatever was flushed before. -/
theorem behind_abandonBreak (prior : Array Lexeme) (lexer : Lexer) (c : Char) :
    (behind prior lexer).abandonBreak c = behind prior (lexer.abandonBreak c) := by
  have hfold (text : Text) (fresh : Lexer) :
      text.foldl advance (behind prior fresh) = behind prior (text.foldl advance fresh) := by
    induction text generalizing fresh with
    | nil => rfl
    | cons d text ih => rw [List.foldl_cons, behind_advance, ih, List.foldl_cons]
  unfold abandonBreak
  rw [← behind_advance, ← hfold]
  rfl

theorem behind_push (prior : Array Lexeme) (lexer : Lexer) (c : Char) :
    (behind prior lexer).push c = behind prior (lexer.push c) := by
  have hmode : (behind prior lexer).mode = lexer.mode := rfl
  unfold push
  rw [hmode]
  cases lexer.mode <;>
    simp only [behind_advance, behind_abandonBreak, behind_continueBreak?, Option.getD_map]

theorem behind_pushAll (prior : Array Lexeme) (lexer : Lexer) (text : Text) :
    (behind prior lexer).pushAll text = behind prior (lexer.pushAll text) := by
  induction text generalizing lexer with
  | nil => rfl
  | cons c text ih =>
    change ((behind prior lexer).push c).pushAll text = behind prior ((lexer.push c).pushAll text)
    rw [behind_push, ih]

theorem finish_behind (prior : Array Lexeme) (lexer : Lexer) :
    (behind prior lexer).finish = prior.toList ++ lexer.finish := by
  rw [finish, behind_push]
  exact Array.toList_append

/-- The lexemes that a lexer has flushed stand in front of those of a lexer that differs from it in
nothing else. -/
theorem lexAll_behind (prior : Array Lexeme) (lexer : Lexer) (text : Text) :
    (behind prior lexer).lexAll text = prior.toList ++ lexer.lexAll text := by
  rw [lexAll, behind_pushAll, finish_behind, lexAll]

/-! ### Where lexing starts again -/

/-- The terminator begins no token. -/
theorem ne_terminator_of_beganToken (htidy : lexer.Tidy) (hbegan : (lexer.push c).beganToken = true) :
    c ≠ terminator := by
  intro hc
  simp [beganToken, (takes_push htidy c).ended hc] at hbegan

/-- Once a codepoint began a token, the lexemes flushed are all that a lexer keeps of what came before. -/
theorem push_eq_behind (hregular : Regular lexer) (hc : c ≠ terminator)
    (hbegan : (lexer.push c).beganToken = true) :
    lexer.push c = behind (lexer.push c).flushed (push {} c) := by
  have hpush := (push_eq_of_beganToken hregular hc hbegan).1
  have hbetween (flushed : Array Lexeme) : between flushed = behind flushed {} := by
    simp [between, behind]
  rw [hbetween, behind_push] at hpush
  exact hpush

theorem flushed_push_of_began (hregular : Regular lexer) (hc : c ≠ terminator)
    (hbegan : (lexer.push c).beganToken = true) : (push {} c).flushed = #[] := by
  have hpush := push_eq_behind hregular hc hbegan
  have hfresh : ((between #[]).push c).beganToken = true := by
    rw [hpush] at hbegan
    exact hbegan
  exact (flushed_of_began hfresh).1

/-- A lexer that was given a text without terminators and says of the next codepoint that it began a token
is the lexer given this codepoint alone, but for the lexemes flushed so far. Whatever comes next, these are
followed by what is lexed from the codepoint on. -/
theorem restart_of_beganToken {text : Text} {c : Char} (htext : ∀ d ∈ text, d ≠ terminator)
    (hbegan : ((pushAll {} text).push c).beganToken = true) :
    ((pushAll {} text).push c).inhibited = false ∧
      (pushAll {} text).push c =
        { push {} c with flushed := ((pushAll {} text).push c).flushed } ∧
      ∀ rest : Text, lex (text ++ c :: rest) =
        ((pushAll {} text).push c).flushed.toList ++ lex (c :: rest) := by
  have hregular : Regular (pushAll {} text) := regular_pushAll htext (regular_between #[])
  have htidy : Tidy (pushAll {} text) := (spelled_pushAll (show Tidy {} from rfl) text).1
  have hc : c ≠ terminator := ne_terminator_of_beganToken htidy hbegan
  have hpush := push_eq_behind hregular hc hbegan
  refine ⟨((steps_push hregular hc).regular hc).inhibited, ?_, fun rest => ?_⟩
  · have hflushed := flushed_push_of_began hregular hc hbegan
    calc (pushAll {} text).push c
        = behind ((pushAll {} text).push c).flushed (push {} c) := hpush
      _ = { push {} c with flushed := ((pushAll {} text).push c).flushed } := by
          simp only [behind, hflushed, Array.append_empty]
  · calc lex (text ++ c :: rest)
        = ((pushAll {} text).push c).lexAll rest := by
          simp only [lex, lexAll, pushAll_append]
          rfl
      _ = (behind ((pushAll {} text).push c).flushed (push {} c)).lexAll rest :=
          congrArg (lexAll · rest) hpush
      _ = ((pushAll {} text).push c).flushed.toList ++ lex (c :: rest) := lexAll_behind ..

/-- A documentation break that fails, and three quotes in a row. -/
def brokenOff : Text := ['\r', '\n', '-', '-', 'x', '\x27', '\x27', '\x27', ' ']

/-- The codepoints of the break are lexed for the second time when the letter is taken, and yet lexing
starts again at the hyphen. A terminator keeps the parenthesis apart from it. -/
theorem restart_of_beganToken_brokenOff :
    (∀ d ∈ brokenOff, d ≠ terminator) ∧ ((pushAll {} brokenOff).push '-').beganToken = true ∧
      (((pushAll {} brokenOff).push '-').flushed.toList.map (·.text) =
        [['\r', '\n'], ['-'], ['-'], ['x'], ['\x27'], ['\x27'], ['\x27'], [' ']]) ∧
      lex (brokenOff ++ ['-', terminator, ')']) =
        ((pushAll {} brokenOff).push '-').flushed.toList ++ lex ['-', terminator, ')'] := by
  have htext : ∀ d ∈ brokenOff, d ≠ terminator := by simp [brokenOff, terminator]
  have hbegan : ((pushAll {} brokenOff).push '-').beganToken = true := by decide +kernel
  exact ⟨htext, hbegan, by decide +kernel, (restart_of_beganToken htext hbegan).2.2 [terminator, ')']⟩

end Lexer

end LiveProse
