import LiveProse.Proofs.Lexical.Lookahead

/-! Where the lexer says that a codepoint began a token, everything flushed before is final: lexing
went on as it would from the start of a text (`push_eq_of_beganToken`), so a text can be lexed in two
parts there (`lexemes_append_of_began`). The argument needs the shapes that the codepoints in
progress can have in each mode (`Regular`). -/

namespace LiveProse

namespace Lexer

open Codepoint Segmentation

/-- Codepoints that stand on a line. -/
def OnLine (text : Text) : Prop := ∀ c ∈ text, pairOf? c = none ∧ c ≠ terminator

theorem onLine_cons {c : Char} {text : Text} :
    OnLine (c :: text) ↔ (pairOf? c = none ∧ c ≠ terminator) ∧ OnLine text := List.forall_mem_cons

theorem OnLine.append_singleton {c : Char} {text : Text} (h : OnLine text)
    (hc : pairOf? c = none ∧ c ≠ terminator) : OnLine (text ++ [c]) :=
  List.forall_mem_append.2 ⟨h, by simpa using hc⟩

/-- What the codepoints in progress can be, last one first. -/
def Shape : LexerMode → List Char → Prop
  | .undecided, pending => pending = []
  | .afterReturn, pending => pending = ['\r']
  | .afterFeed, pending => pending = ['\n']
  | .afterNewline, pending => pending = ['\r', '\n'] ∨ pending = ['\n', '\r']
  | .inBreak expected, pending => OnLine expected ∧ ∃ opening consumed,
      IsLineBreak opening ∧ OnLine consumed ∧ pending = (opening ++ '-' :: consumed).reverse
  | _, pending => pending ≠ []

/-- What holds of the lexers that lex a text. -/
structure Regular (lexer : Lexer) : Prop where
  inhibited : lexer.inhibited = false
  shape : Shape lexer.mode lexer.pending

theorem regular_between (flushed : Array Lexeme) : Regular (between flushed) := ⟨rfl, rfl⟩

theorem regular_push_between (flushed : Array Lexeme) {c : Char} (hc : c ≠ terminator) :
    Regular ((between flushed).push c) := by
  change Regular ((between flushed).start c)
  rw [start, if_neg hc]
  refine iteInduction (fun hn => ⟨rfl, by rw [hn]; rfl⟩) fun _ => ?_
  refine iteInduction (fun hr => ⟨rfl, by rw [hr]; rfl⟩) fun _ => ?_
  repeat' refine iteInduction (fun _ => ?_) fun _ => ?_
  all_goals first | exact ⟨rfl, rfl⟩ | exact ⟨rfl, List.cons_ne_nil _ _⟩

theorem flushAndStart_eq {lexer : Lexer} (h : Regular lexer) {c : Char} (hc : c ≠ terminator)
    (onlyWhitespace : Bool) (kind : TokenClass) (lines : Nat) :
    ∃ flushed, lexer.flushAndStart c onlyWhitespace kind lines = (between flushed).push c :=
  ⟨_, start_eq_push (lexer.flush _ _ _) rfl h.inhibited hc⟩

/-- A token in progress that grows is no token begun. -/
theorem take_extends {lexer : Lexer} (h : Regular lexer) (hne : lexer.pending ≠ []) {c : Char}
    {mode : LexerMode} (hshape : Shape mode (c :: lexer.pending)) :
    Regular (lexer.take c mode) ∧ (lexer.take c mode).beganToken = false := by
  refine ⟨⟨h.inhibited, hshape⟩, ?_⟩
  have := List.length_pos_iff.2 hne
  have hlength : (lexer.take c mode).pending.length ≠ 1 := by
    simp only [take, List.length_cons]
    omega
  simp [beganToken, hlength]

theorem takeAndFlush_ends {lexer : Lexer} (h : Regular lexer) (c : Char) (kind : TokenClass) :
    Regular (lexer.takeAndFlush c kind) ∧ (lexer.takeAndFlush c kind).beganToken = false :=
  ⟨⟨h.inhibited, rfl⟩, rfl⟩

/-- What a codepoint does to a regular lexer: it begins a token as it would after any token, or it
extends the token in progress or ends it. -/
def Steps (c : Char) (after : Lexer) : Prop :=
  (∃ flushed, after = (between flushed).push c) ∨ (Regular after ∧ after.beganToken = false)

theorem Steps.regular {after : Lexer} {c : Char} (h : Steps c after)
    (hc : c ≠ terminator) : Regular after := by
  rcases h with ⟨flushed, rfl⟩ | h
  · exact regular_push_between flushed hc
  · exact h.1

theorem steps_afterLineBreak {lexer : Lexer} (h : Regular lexer) {c : Char} (hc : c ≠ terminator)
    (hopening : IsLineBreak lexer.pending.reverse) : Steps c (lexer.afterLineBreak c) := by
  have hne : lexer.pending ≠ [] := by
    intro hnil
    rcases hopening with h | h | h | h <;> simp [hnil] at h
  unfold Lexer.afterLineBreak
  split_ifs with htab hhyphen hinhibited
  · exact .inr (take_extends h hne (by simp [Shape]))
  · exact absurd hinhibited (by simp [h.inhibited])
  · refine .inr (take_extends h hne
      ⟨onLine_breakLine, lexer.pending.reverse, [], hopening, by simp [OnLine], ?_⟩)
    simp [hhyphen]
  · exact .inl (flushAndStart_eq h hc _ _ _)

theorem steps_advance {lexer : Lexer} (h : Regular lexer) {c : Char} (hc : c ≠ terminator) :
    Steps c (lexer.advance c) := by
  have hflush (onlyWhitespace : Bool) (kind : TokenClass) (lines : Nat) :
      Steps c (lexer.flushAndStart c onlyWhitespace kind lines) :=
    .inl (flushAndStart_eq h hc onlyWhitespace kind lines)
  have htake (mode : LexerMode) (hne : lexer.pending ≠ []) (hmode : Shape mode (c :: lexer.pending)) :
      Steps c (lexer.take c mode) := .inr (take_extends h hne hmode)
  have hend (kind : TokenClass) : Steps c (lexer.takeAndFlush c kind) :=
    .inr (takeAndFlush_ends h c kind)
  have hshape := h.shape
  have hbreak (hne : lexer.pending ≠ []) (pair : Option Char) :
      Steps c (lexer.afterBreak c pair) := by
    unfold Lexer.afterBreak
    split_ifs
    · exact htake _ hne (by simp [Shape])
    · exact htake _ hne (by simp [Shape])
    · exact hflush _ _ _
  unfold advance
  cases hmode : lexer.mode <;> rw [hmode] at hshape <;> dsimp only
  case undecided => exact .inl ⟨lexer.flushed, start_eq_push lexer hshape h.inhibited hc⟩
  case afterQuote =>
    split_ifs
    · exact .inr ⟨⟨h.inhibited, by simp [Shape, take, flush]⟩, by simp [beganToken, take]⟩
    · exact hflush _ _ _
  case afterTwoQuotes =>
    split_ifs
    · exact .inr ⟨⟨h.inhibited, rfl⟩, rfl⟩
    · exact hflush _ _ _
  case afterReturn =>
    split_ifs with hfeed
    · exact htake _ (by rw [show lexer.pending = _ from hshape]; simp) (.inr (by rw [hshape, hfeed]))
    · exact steps_afterLineBreak h hc (by rw [hshape]; exact .inr (.inl rfl))
  case afterFeed =>
    split_ifs with hreturn
    · exact htake _ (by rw [show lexer.pending = _ from hshape]; simp) (.inl (by rw [hshape, hreturn]))
    · exact steps_afterLineBreak h hc (by rw [hshape]; exact .inl rfl)
  case afterNewline =>
    refine steps_afterLineBreak h hc ?_
    rcases hshape with hshape | hshape <;> rw [hshape]
    · exact .inr (.inr (.inl rfl))
    · exact .inr (.inr (.inr rfl))
  case inBreak expected =>
    obtain ⟨hexpected, opening, consumed, hopening, hconsumed, hpending⟩ := hshape
    have hlength : 2 ≤ lexer.pending.length := by
      rw [hpending]
      rcases hopening with rfl | rfl | rfl | rfl <;> simp
    have hne : lexer.pending ≠ [] := List.length_pos_iff.1 (by omega)
    cases expected with
    | nil =>
      simp only [continueBreak?]
      split_ifs
      · exact htake _ hne (by simp [Shape])
      · exact htake _ hne (by simp [Shape])
      · exact .inr ⟨h, by simp [beganToken]; omega⟩
    | cons next expected =>
      obtain ⟨hnext, hexpected⟩ := onLine_cons.1 hexpected
      simp only [continueBreak?]
      split_ifs with heq
      · exact htake (.inBreak expected) hne ⟨hexpected, opening, consumed ++ [c], hopening,
          hconsumed.append_singleton (by rwa [heq]), by simp [hpending]⟩
      · exact .inr ⟨h, by simp [beganToken]; omega⟩
  case afterBreakAndReturn => exact hbreak hshape _
  case afterBreakAndFeed => exact hbreak hshape _
  case afterBreakAndNewline => exact hbreak hshape _
  -- every other mode takes the codepoint, ends a token with it or starts one, whatever came before
  all_goals
    split_ifs
    all_goals first | exact hflush _ _ _ | exact hend _ | exact htake _ hshape (by simp [Shape])

theorem regular_pushAll_onLine {text : Text} (htext : OnLine text) {lexer : Lexer}
    (h : Regular lexer) (hsteady : Steady lexer.mode) :
    Regular (lexer.pushAll text) ∧ Steady (lexer.pushAll text).mode := by
  induction text generalizing lexer with
  | nil => exact ⟨h, hsteady⟩
  | cons c text ih =>
    obtain ⟨⟨hpair, hc⟩, htext⟩ := onLine_cons.1 htext
    refine ih htext (?_ : Regular (lexer.push c)) ?_
    · rw [push_eq_advance hsteady]
      exact (steps_advance h hc).regular hc
    · rw [push_eq_advance hsteady]
      exact steady_advance hsteady hpair

/-- A documentation break that fails leaves a regular lexer, too. -/
theorem steps_push {lexer : Lexer} (h : Regular lexer) {c : Char} (hc : c ≠ terminator) :
    Steps c (lexer.push c) := by
  by_cases hbreak : ∃ expected, lexer.mode = .inBreak expected
  · obtain ⟨expected, hmode⟩ := hbreak
    have hadvance := steps_advance h hc
    have hpush : lexer.push c = (lexer.continueBreak? c expected).getD (lexer.abandonBreak c) := by
      simp only [push, hmode]
    simp only [advance, hmode] at hadvance
    rw [hpush]
    cases hcontinue : lexer.continueBreak? c expected with
    | some after => simpa [hcontinue] using hadvance
    | none =>
      have hshape := h.shape
      rw [hmode] at hshape
      obtain ⟨-, opening, consumed, hopening, hconsumed, hpending⟩ := hshape
      have hlexer : lexer = InBreak opening consumed expected lexer.flushed := by
        obtain ⟨mode, inhibited, pending, flushed⟩ := lexer
        obtain rfl : inhibited = false := h.inhibited
        obtain rfl : mode = .inBreak expected := hmode
        rw [show pending = _ from hpending]
        rfl
      rw [Option.getD_none, hlexer, abandonBreak_eq hopening (fun d hd => (hconsumed d hd).1)]
      obtain ⟨hregular, hsteady⟩ := regular_pushAll_onLine
        (onLine_cons (c := '-').2 ⟨⟨rfl, by decide⟩, hconsumed⟩)
        (regular_between (lexer.flushed.push (.ofSegment opening .bareNewline))) trivial
      rw [push_eq_advance hsteady]
      exact steps_advance hregular hc
  · have hpush : lexer.push c = lexer.advance c := by
      unfold push
      split
      · rename_i expected hmode
        exact absurd ⟨expected, hmode⟩ hbreak
      · rfl
    rw [hpush]
    exact steps_advance h hc

theorem regular_pushAll {text : Text} (htext : ∀ c ∈ text, c ≠ terminator) {lexer : Lexer}
    (h : Regular lexer) : Regular (lexer.pushAll text) := by
  induction text generalizing lexer with
  | nil => exact h
  | cons c text ih =>
    have hc := htext c List.mem_cons_self
    exact ih (fun d hd => htext d (List.mem_cons_of_mem _ hd)) ((steps_push h hc).regular hc)

/-! ### Lexing in two parts -/

theorem flushed_of_began {flushed : Array Lexeme} {c : Char}
    (h : ((between flushed).push c).beganToken = true) :
    ((between flushed).push c).flushed = flushed ∧ c ≠ '\x27' := by
  refine ⟨?_, by rintro rfl; exact Bool.false_ne_true h⟩
  revert h
  change ((between flushed).start c).beganToken = true → ((between flushed).start c).flushed = flushed
  unfold start
  repeat'
    refine iteInduction
      (motive := fun after : Lexer => after.beganToken = true → after.flushed = flushed)
      (fun _ => ?_) fun _ => ?_
  all_goals first | exact fun _ => rfl | exact fun h => absurd h Bool.false_ne_true

/-- A codepoint that began a token is lexed as after any token, and it is no quote. -/
theorem push_eq_of_beganToken {lexer : Lexer} (h : Regular lexer) {c : Char} (hc : c ≠ terminator)
    (hbegan : (lexer.push c).beganToken = true) :
    lexer.push c = (between (lexer.push c).flushed).push c ∧ c ≠ '\x27' := by
  rcases steps_push h hc with ⟨flushed, hpush⟩ | ⟨-, hbegan'⟩
  · rw [hpush] at hbegan ⊢
    obtain ⟨hflushed, hquote⟩ := flushed_of_began hbegan
    exact ⟨by rw [hflushed], hquote⟩
  · exact absurd hbegan (by simp [hbegan'])

/-- What was flushed when a token began are the first lexemes of the text. -/
theorem lexemes_append_of_began {text rest : Text} {c : Char}
    (htext : ∀ d ∈ text, d ≠ terminator) (hrest : ∀ d ∈ c :: rest, d ≠ terminator)
    (hbegan : ((pushAll {} text).push c).beganToken = true) :
    lexemes (text ++ c :: rest) =
      ((pushAll {} text).push c).flushed.toList ++ lexemes (c :: rest) := by
  have hall : ∀ d ∈ text ++ c :: rest, d ≠ terminator :=
    fun d hd => (List.mem_append.1 hd).elim (htext d) (hrest d)
  obtain ⟨hpush, -⟩ := push_eq_of_beganToken (regular_pushAll htext (regular_between #[]))
    (hrest c List.mem_cons_self) hbegan
  rw [← lexAll_between _ hrest, ← lex_eq_lexemes hall, lexAll_cons]
  rw [show lex (text ++ c :: rest) = ((pushAll {} text).push c).lexAll rest by
    simp only [lex, lexAll, pushAll_append]
    rfl]
  exact congrArg (lexAll · rest) hpush

end Lexer

end LiveProse
