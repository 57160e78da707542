import LiveProse.Proofs.Highlight.Runs
import LiveProse.Proofs.Lexical.States

/-! The runs of a whole text part it as coarsely as its codes allow. Runs in the making never have the same
code as the one before, as long as no token is empty (`RunBuilder.Apart`); so a stretch of one code cannot
cross the end of a run (`Tiles.exists_run`), and every token is in one run. -/

namespace LiveProse

open TokenSequence

/-! ### Tilings -/

namespace Tiles

variable {lo : ℕ} {runs : List HighlightRun} {codes : List HighlightCode}

theorem lo_lt_hi (h : Tiles lo runs codes) : ∀ run ∈ runs, run.lo < run.hi := by
  induction h with
  | nil => simp
  | cons hlt _ ih => exact List.forall_mem_cons.2 ⟨hlt, ih⟩

theorem eq_nil_iff (h : Tiles lo runs codes) : runs = [] ↔ codes = [] := by
  cases h with
  | nil => simp
  | cons hlt =>
    have hlong := Nat.sub_ne_zero_of_lt hlt
    simp [hlong]

theorem lo_head? (h : Tiles lo runs codes) : ∀ run ∈ runs.head?, run.lo = lo := by
  cases h with
  | nil => simp
  | cons => simp

/-- Each run begins where the one before it ends. -/
theorem isChain (h : Tiles lo runs codes) : runs.IsChain fun a b => a.hi = b.lo := by
  induction h with
  | nil => exact .nil
  | cons _ rest ih => exact ih.cons fun run hrun => (rest.lo_head? run hrun).symm

theorem hi_getLast? (h : Tiles lo runs codes) : ∀ run ∈ runs.getLast?, run.hi = lo + codes.length := by
  induction h with
  | nil => simp
  | @cons lo hi code runs codes hlt rest ih =>
    intro run hrun
    rw [List.length_append, List.length_replicate]
    cases rest with
    | nil =>
      obtain rfl : (⟨lo, hi, code⟩ : HighlightRun) = run := by simpa using hrun
      dsimp only [List.length_nil]
      omega
    | cons =>
      rw [List.getLast?_cons_cons] at hrun
      rw [ih run hrun]
      omega

theorem lo_le (h : Tiles lo runs codes) : ∀ run ∈ runs, lo ≤ run.lo := by
  induction h with
  | nil => simp
  | cons hlt _ ih =>
    exact List.forall_mem_cons.2 ⟨Nat.le_refl _, fun run hrun => (Nat.le_of_lt hlt).trans (ih run hrun)⟩

/-- No codepoint is in two runs. -/
theorem eq_of_mem (h : Tiles lo runs codes) {run other : HighlightRun} (hrun : run ∈ runs)
    (hother : other ∈ runs) {index : ℕ} (hin : run.lo ≤ index ∧ index < run.hi)
    (hin' : other.lo ≤ index ∧ index < other.hi) : run = other := by
  induction h with
  | nil => cases hrun
  | cons hlt rest ih =>
    have hle := rest.lo_le
    rcases List.mem_cons.1 hrun with rfl | hrun <;> rcases List.mem_cons.1 hother with rfl | hother
    · rfl
    · have := hle other hother
      dsimp only at hin
      omega
    · have := hle run hrun
      dsimp only at hin'
      omega
    · exact ih hrun hother

theorem code_mem (h : Tiles lo runs codes) : ∀ run ∈ runs, run.code ∈ codes := by
  induction h with
  | nil => simp
  | cons hlt _ ih =>
    refine List.forall_mem_cons.2 ⟨?_, fun run hrun => List.mem_append_right _ (ih run hrun)⟩
    exact List.mem_append_left _ (List.mem_replicate.2 ⟨by omega, rfl⟩)

/-- Where neighbours differ in code, a stretch of one code is in one run. -/
theorem exists_run (h : Tiles lo runs codes) (hapart : runs.IsChain fun a b => a.code ≠ b.code)
    {start width : ℕ} {code : HighlightCode} (hwidth : 0 < width)
    (hcodes : ∀ index, start ≤ index → index < start + width → codes[index]? = some code) :
    ∃ run ∈ runs, run.lo ≤ lo + start ∧ lo + start + width ≤ run.hi ∧ run.code = code := by
  induction h generalizing start with
  | nil =>
    have hstart := hcodes start (Nat.le_refl _) (by omega)
    cases hstart
  | @cons lo hi first runs codes hlt rest ih =>
    have hlength : (List.replicate (hi - lo) first).length = hi - lo := List.length_replicate
    by_cases hstart : start < hi - lo
    · have hfirst := hcodes start (Nat.le_refl _) (by omega)
      rw [List.getElem?_append_left (by omega), List.getElem?_replicate_of_lt hstart,
        Option.some.injEq] at hfirst
      refine ⟨_, List.mem_cons_self, by dsimp only; omega, ?_, hfirst⟩
      -- otherwise the first codepoint of the next run has the code as well
      by_contra hlong
      dsimp only at hlong
      have hnext := hcodes (hi - lo) (by omega) (by omega)
      rw [List.getElem?_append_right (by omega), hlength, Nat.sub_self] at hnext
      cases rest with
      | nil => cases hnext
      | @cons _ hi' next runs codes hlt' =>
        rw [List.getElem?_append_left (by rw [List.length_replicate]; omega),
          List.getElem?_replicate_of_lt (by omega), Option.some.injEq] at hnext
        exact (List.isChain_cons_cons.1 hapart).1 (hfirst.trans hnext.symm)
    · have hrest (index : ℕ) (hle : start - (hi - lo) ≤ index)
          (hlt : index < start - (hi - lo) + width) : codes[index]? = some code := by
        have hindex := hcodes (index + (hi - lo)) (by omega) (by omega)
        rwa [List.getElem?_append_right (by omega), hlength, Nat.add_sub_cancel] at hindex
      obtain ⟨run, hrun, hlo, hhi, hcode⟩ := ih hapart.tail hrest
      exact ⟨run, List.mem_cons_of_mem _ hrun, by omega, by omega, hcode⟩

end Tiles

/-! ### Neighbours -/

namespace RunBuilder

variable {runs : RunBuilder} {width : ℕ} {code : HighlightCode}

/-- Runs in the making of which no two neighbours have the same code. -/
structure Apart (runs : RunBuilder) : Prop where
  closed : runs.closed.IsChain fun a b => a.code ≠ b.code
  none : runs.opened = none → runs.closed = []
  opened : ∀ start code, runs.opened = some (start, code) →
    start < runs.position ∧ ∀ run ∈ runs.closed.head?, code ≠ run.code

theorem apart_start (lo : ℕ) : Apart ⟨lo, none, []⟩ :=
  ⟨.nil, fun _ => rfl, nofun⟩

theorem Apart.close (h : runs.Apart) : runs.close.closed.IsChain fun a b => a.code ≠ b.code := by
  unfold RunBuilder.close
  split
  · rename_i start code hopened
    obtain ⟨hlt, hhead⟩ := h.opened start code hopened
    rw [if_pos hlt]
    exact h.closed.cons hhead
  · exact h.closed

theorem Apart.push (h : runs.Apart) (hwidth : 0 < width) (code : HighlightCode) :
    (runs.push width code).Apart := by
  by_cases hsame : runs.opened.any (·.2 == code)
  · rw [RunBuilder.push, if_pos hsame]
    refine ⟨h.closed, h.none, fun start other hopened => ?_⟩
    obtain ⟨hlt, hhead⟩ := h.opened start other hopened
    exact ⟨Nat.lt_add_right width hlt, hhead⟩
  · rw [RunBuilder.push, if_neg hsame]
    refine ⟨h.close, fun hnone => absurd hnone (Option.some_ne_none _), fun start other hopened => ?_⟩
    obtain ⟨rfl, rfl⟩ := Prod.mk.inj (Option.some.inj hopened)
    refine ⟨by simpa using hwidth, fun run hrun => ?_⟩
    unfold RunBuilder.close at hrun
    split at hrun
    · rename_i start last hlast
      rw [if_pos (h.opened start last hlast).1] at hrun
      obtain rfl := Option.some.inj hrun
      rintro rfl
      exact hsame (by simp [hlast])
    · rename_i hnone
      rw [h.none hnone] at hrun
      cases hrun

theorem Apart.pushTokens (h : runs.Apart) (support : HighlightSupport) (before : LexicalState)
    {tokens : List Token} (hfull : ∀ token ∈ tokens, 0 < token.codepoints) :
    ((withStates before tokens).foldl (RunBuilder.pushToken support) runs).Apart := by
  induction tokens generalizing runs before with
  | nil => exact h
  | cons token rest ih =>
    obtain ⟨htoken, hrest⟩ := List.forall_mem_cons.1 hfull
    exact ih (h.push htoken _) _ hrest

end RunBuilder

/-! ### Codes -/

namespace HighlightSupport

variable {support : HighlightSupport} {before : LexicalState} {tokens : List Token}

/-- What a code is resolved to can be displayed, or is the topmost code. -/
theorem supports_resolve (support : HighlightSupport) (code : HighlightCode) :
    support.supports (support.resolve code) = true ∨ support.resolve code = .ordinaryI7 := by
  fun_induction support.resolve code with
  | case1 code hsupports => exact .inl hsupports
  | case2 code _ parent _ ih => exact ih
  | case3 code _ hparent =>
    right
    cases code <;> first | rfl | cases hparent

theorem mem_codes {code : HighlightCode} (h : code ∈ support.codes before tokens) :
    ∃ old new, code = support.codeOf old new := by
  obtain ⟨⟨token, old, new⟩, -, hcode⟩ := List.mem_flatMap.1 h
  exact ⟨old, new, List.eq_of_mem_replicate hcode⟩

/-- The codepoints of a token have its code. -/
theorem getElem?_codes {rank : ℕ} {token : Token} (htoken : tokens[rank]? = some token) {index : ℕ}
    (hlo : ((tokens.take rank).map (·.codepoints)).sum ≤ index)
    (hhi : index < ((tokens.take rank).map (·.codepoints)).sum + token.codepoints) :
    (support.codes before tokens)[index]? =
      let old := walk before (tokens.take rank)
      some (support.codeOf old (token.stateAfter old)) := by
  have hlength : (support.codes before (tokens.take rank)).length =
      ((tokens.take rank).map (·.codepoints)).sum := support.length_codes before _
  obtain ⟨hlt, rfl⟩ := List.getElem?_eq_some_iff.1 htoken
  conv_lhs => rw [← List.take_append_drop rank tokens, List.drop_eq_getElem_cons hlt]
  rw [codes_append, codes_cons, List.getElem?_append_right (by omega),
    List.getElem?_append_left (by rw [List.length_replicate]; omega),
    List.getElem?_replicate_of_lt (by omega)]

end HighlightSupport

/-! ### Whole texts -/

section Partition

variable {tokens : TokenSequence} {listing : Listing Token}

/-- Whatever edits led to a sequence without empty tokens, its runs are not empty, begin at the first codepoint
and end at the last one, and each begins where the one before ends and has another code. Every token is in one
run and meets no other, and the code of that run is what its own code between its two states is resolved to:
one that can be displayed, or the topmost. -/
theorem highlightAll_partition (h : History tokens listing)
    (hfull : ∀ token ∈ tokens.toList, 0 < token.codepoints) (support : HighlightSupport) :
    let runs := highlightAll tokens support
    (∀ run ∈ runs, run.lo < run.hi) ∧
    (runs = [] ↔ tokens.total.codepoints = 0) ∧
    (∀ run ∈ runs.head?, run.lo = 0) ∧
    (∀ run ∈ runs.getLast?, run.hi = tokens.total.codepoints) ∧
    runs.IsChain (fun a b => a.hi = b.lo) ∧
    runs.IsChain (fun a b => a.code ≠ b.code) ∧
    (∀ rank token, tokens.toList[rank]? = some token →
      let start := ((tokens.toList.take rank).map (·.codepoints)).sum
      let before := walk .initial (tokens.toList.take rank)
      ∃ run ∈ runs, run.lo ≤ start ∧ start + token.codepoints ≤ run.hi ∧
        run.code = support.resolve (highlightCode before (token.stateAfter before)) ∧
        ∀ other ∈ runs, other.lo < start + token.codepoints → start < other.hi → other = run) ∧
    ∀ run ∈ runs, support.supports run.code = true ∨ run.code = .ordinaryI7 := by
  intro runs
  have htotal : tokens.total.codepoints = (support.codes .initial tokens.toList).length := by
    rw [support.length_codes]
    exact (h.sound Token.codepointSummary).1.total
  have htiles : Tiles 0 runs (support.codes .initial tokens.toList) :=
    ((RunBuilder.shows_start 0).pushTokens support .initial tokens.toList).tiles_close
  have hapart : runs.IsChain fun a b => a.code ≠ b.code := by
    have hclosed := ((RunBuilder.apart_start 0).pushTokens support .initial hfull).close
    refine List.isChain_reverse.2 (hclosed.imp fun a b hne => hne.symm)
  refine ⟨htiles.lo_lt_hi, ?_, htiles.lo_head?, fun run hrun => ?_, htiles.isChain, hapart,
    fun rank token htoken => ?_, fun run hrun => ?_⟩
  · rw [htotal, List.length_eq_zero_iff]
    exact htiles.eq_nil_iff
  · rw [htiles.hi_getLast? run hrun, htotal, Nat.zero_add]
  · intro start before
    have hwidth := hfull token (List.mem_of_getElem? htoken)
    obtain ⟨run, hrun, hlo, hhi, hcode⟩ := htiles.exists_run hapart hwidth
      fun index hle hlt => HighlightSupport.getElem?_codes htoken hle hlt
    rw [Nat.zero_add] at hlo hhi
    refine ⟨run, hrun, hlo, hhi, hcode, fun other hother hbefore hafter => ?_⟩
    have hmeets : other.lo ≤ max other.lo start ∧ max other.lo start < other.hi :=
      ⟨le_max_left _ _, max_lt (htiles.lo_lt_hi other hother) hafter⟩
    have hinside : run.lo ≤ max other.lo start ∧ max other.lo start < run.hi :=
      ⟨hlo.trans (le_max_right _ _), (max_lt hbefore (Nat.lt_add_of_pos_right hwidth)).trans_le hhi⟩
    exact htiles.eq_of_mem hother hrun hmeets hinside
  · obtain ⟨old, new, hcode⟩ := HighlightSupport.mem_codes (htiles.code_mem run hrun)
    rw [hcode]
    exact support.supports_resolve _

/-- A word in brackets. -/
def bracketed : List Token := [mark .leftBracket, mark .plainText, mark .rightBracket]

/-- A client that tells delimiters from comments is given three runs for a comment, and one that does not is
given a single run, in which the word is as well. -/
theorem highlightAll_partition_bracketed :
    highlightAll (ofRow bracketed) .all =
      [⟨0, 1, .commentDelimiter⟩, ⟨1, 2, .comment⟩, ⟨2, 3, .commentDelimiter⟩] ∧
    highlightAll (ofRow bracketed) .basic = [⟨0, 3, .comment⟩] ∧
    ∃ run ∈ highlightAll (ofRow bracketed) .basic, run.lo ≤ 1 ∧ 2 ≤ run.hi ∧
      ∀ other ∈ highlightAll (ofRow bracketed) .basic, other.lo < 2 → 1 < other.hi → other = run := by
  obtain ⟨listing, h, -⟩ := exists_history_ofRow bracketed
  have hrow : (ofRow bracketed).toList = bracketed := by decide +kernel
  have hfull : ∀ token ∈ (ofRow bracketed).toList, 0 < token.codepoints := by
    rw [hrow]
    decide
  obtain ⟨-, -, -, -, -, -, htokens, -⟩ := highlightAll_partition h hfull .basic
  obtain ⟨run, hrun, hlo, hhi, -, hothers⟩ := htokens 1 (mark .plainText) (by rw [hrow]; rfl)
  rw [hrow] at hlo hhi hothers
  exact ⟨by decide +kernel, by decide +kernel, run, hrun, hlo, hhi, hothers⟩

end Partition

end LiveProse
