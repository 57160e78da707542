import LiveProse.Proofs.Relex.Region

/-! The classes of the tokens after an edit. All classes but those of quotes can be read off the
texts. A quote that is kept in front of the cut was given its class by the token behind it: it is the
middle one of three only if another quote follows. Lexing goes back over the quotes before a quote,
and over one token before most codepoints, but not before a mark that extends nothing; when such a
mark parts the second quote of a run from its third, the second stays plain although it should have
become a delimiter (`classes_region_iff`). -/

namespace LiveProse

namespace Segmentation

open Codepoint

/-- The number of quotes that end a row of texts, the first of which stands behind some others. -/
def quotesAfter (quotes : Nat) : List Text → Nat
  | [] => quotes
  | text :: rest => quotesAfter (if text = quote then quotes + 1 else 0) rest

theorem quotesAfter_append (quotes : Nat) (front back : List Text) :
    quotesAfter quotes (front ++ back) = quotesAfter (quotesAfter quotes front) back := by
  induction front generalizing quotes with
  | nil => rfl
  | cons text front ih => exact ih _

theorem quotesAfter_concat_of_ne {text : Text} (h : text ≠ quote) (quotes : Nat) (front : List Text) :
    quotesAfter quotes (front ++ [text]) = 0 := by
  rw [quotesAfter_append, quotesAfter, if_neg h]
  rfl

theorem classesFrom_cons (quotes : Nat) (text : Text) (rest : List Text) :
    classesFrom quotes (text :: rest) =
      (if text = quote then
        if quotes % 3 = 1 ∧ rest.head? = some quote then .plainText else .singleQuote
      else classOf text) :: classesFrom (if text = quote then quotes + 1 else 0) rest := by
  rw [classesFrom]
  by_cases h : text = quote
  · simp only [if_pos h]
  · simp only [if_neg h]

theorem drop_classesFrom_append (quotes : Nat) (front back : List Text) :
    (classesFrom quotes (front ++ back)).drop front.length =
      classesFrom (quotesAfter quotes front) back := by
  induction front generalizing quotes with
  | nil => rfl
  | cons text front ih =>
    rw [List.cons_append, classesFrom_cons, quotesAfter]
    exact ih _

/-- Classes depend on what follows only by whether it is a quote, and that only if they end with the
second quote of a run. -/
theorem take_classesFrom_append_iff {quotes : Nat} {front : List Text} (hne : front ≠ [])
    (back back' : List Text) :
    (classesFrom quotes (front ++ back)).take front.length =
        (classesFrom quotes (front ++ back')).take front.length ↔
      (quotesAfter quotes front % 3 = 2 → (back.head? = some quote ↔ back'.head? = some quote)) := by
  induction front generalizing quotes with
  | nil => exact absurd rfl hne
  | cons text front ih =>
    cases front with
    | nil =>
      simp only [List.singleton_append, classesFrom, quotesAfter, List.length_singleton]
      by_cases htext : text = quote
      · have hmod : (quotes + 1) % 3 = 2 ↔ quotes % 3 = 1 := by omega
        simp only [if_pos htext, List.take_succ_cons, List.take_zero, List.cons.injEq, and_true,
          hmod]
        by_cases hquotes : quotes % 3 = 1
        · by_cases h : back.head? = some quote <;> by_cases h' : back'.head? = some quote <;>
            simp [hquotes, h, h']
        · simp [hquotes]
      · simp [if_neg htext]
    | cons other front =>
      have hhead (rest : List Text) : (other :: front ++ rest).head? = some other := rfl
      have hcons (rest : List Text) : text :: other :: front ++ rest =
          text :: (other :: front ++ rest) := rfl
      rw [hcons, hcons, classesFrom_cons, classesFrom_cons quotes, hhead, hhead, quotesAfter,
        List.length_cons, List.take_succ_cons, List.take_succ_cons, List.cons.injEq,
        and_iff_right rfl]
      exact ih (List.cons_ne_nil other front)

theorem take_classesFrom_append_iff_of_zero (front back back' : List Text) :
    (classesFrom 0 (front ++ back)).take front.length =
        (classesFrom 0 (front ++ back')).take front.length ↔
      (quotesAfter 0 front % 3 = 2 → (back.head? = some quote ↔ back'.head? = some quote)) := by
  by_cases hne : front = []
  · subst hne
    exact iff_of_true rfl fun h => absurd h (by decide)
  · exact take_classesFrom_append_iff hne back back'

/-- A lone quote is of one class, whatever stands before it. -/
theorem classesFrom_of_lone {texts : List Text} (h : texts.head? = some quote →
    texts.tail.head? ≠ some quote) (quotes : Nat) : classesFrom quotes texts = classesFrom 0 texts := by
  by_cases hhead : texts.head? = some quote
  · obtain ⟨rest, rfl⟩ : ∃ rest, texts = quote :: rest := by
      cases texts with
      | nil => simp at hhead
      | cons text rest => exact ⟨rest, by rw [Option.some.inj hhead]⟩
    have hrest : rest.head? ≠ some quote := h hhead
    simp only [classesFrom, hrest, and_false, if_false, if_true]
    rw [classesFrom_of_head_ne hrest, classesFrom_of_head_ne hrest (0 + 1)]
  · exact classesFrom_of_head_ne hhead quotes

/-! ### Where quotes are -/

theorem quote_not_mem_lineBreak (text : Text) : '\x27' ∉ lineBreak text := by
  cases text with
  | nil => simp [lineBreak]
  | cons c rest =>
    rw [lineBreak]
    cases hpair : pairOf? c with
    | none => simp
    | some d => rcases pairOf?_eq_some hpair with ⟨rfl, rfl⟩ | ⟨rfl, rfl⟩ <;> dsimp only <;>
        split_ifs <;> decide

theorem quote_not_mem_takeWhile {p : Char → Bool} (hp : p '\x27' = false) (text : Text) :
    '\x27' ∉ text.takeWhile p := by
  intro h
  have := List.all_eq_true.1 (List.all_takeWhile (p := p) (l := text)) _ h
  rw [hp] at this
  exact Bool.false_ne_true this

theorem quote_not_mem_breakTail (text : Text) : '\x27' ∉ breakTail text := by
  have hline : '\x27' ∉ Lexer.breakLine := by decide
  have htabs (text : Text) : '\x27' ∉ tabs text := quote_not_mem_takeWhile rfl text
  unfold breakTail breakBody
  split_ifs
  · simp [hline, htabs, quote_not_mem_lineBreak]
  · simp
  · exact htabs text

/-- No segment but a quote has a quote in it. -/
theorem segment_eq_quote_of_mem {text : Text} (h : '\x27' ∈ segment text) : segment text = quote := by
  cases text with
  | nil => simp [segment] at h
  | cons c rest =>
    by_cases hc : c = '\x27'
    · rw [hc, Lexer.segment_quote]
    · exfalso
      unfold segment at h
      dsimp only at h
      split_ifs at h
      · exact (List.mem_append.1 h).elim (quote_not_mem_lineBreak _) (quote_not_mem_breakTail _)
      · exact quote_not_mem_takeWhile rfl _ h
      · exact quote_not_mem_takeWhile rfl _ h
      · rcases List.mem_cons.1 h with h | h
        · exact hc h.symm
        · rw [Option.mem_toList, Option.filter_eq_some_iff] at h
          simp [joins] at h

theorem eq_quote_of_mem_segments {text part : Text} (hpart : part ∈ segments text)
    (h : '\x27' ∈ part) : part = quote := by
  generalize hall : segments text = all at hpart
  induction all generalizing text with
  | nil => simp at hpart
  | cons first others ih =>
    obtain ⟨rest, -, -, hfirst, hothers⟩ := segments_eq_cons_iff.1 hall
    rcases List.mem_cons.1 hpart with rfl | hpart
    · rw [← hfirst] at h ⊢
      exact segment_eq_quote_of_mem h
    · exact ih hothers hpart

end Segmentation

namespace Relex

open Codepoint Segmentation

/-- Marks before which lexing goes back over nothing. -/
def LooseMark (c : Char) : Prop :=
  isPunctuation c = true ∧ c ≠ '-' ∧ c ≠ '+' ∧ c ≠ ')' ∧ c ≠ '\x27'

theorem LooseMark.not_break {c : Char} (h : LooseMark c) :
    ¬(c = ' ' ∨ c = '-' ∨ c = '\n' ∨ c = '\r' ∨ isBreakLetter c = true) := by
  have hletters : breakLetters.all (fun d => !isPunctuation d) = true := by decide
  obtain ⟨hmark, hhyphen, -⟩ := h
  rintro (rfl | rfl | rfl | rfl | hletter)
  · exact absurd hmark (by decide)
  · exact hhyphen rfl
  · exact absurd hmark (by decide)
  · exact absurd hmark (by decide)
  · have := List.all_eq_true.1 hletters c (by simpa [isBreakLetter] using hletter)
    rw [hmark] at this
    exact Bool.false_ne_true this

/-! ### What lexing goes back over -/

theorem backOver_passes {texts chain : List Text} {rank i : Nat} (hlow : backOver texts rank chain < i)
    (hhigh : i ≤ rank) : ∃ expected ∈ chain, texts[i]? = some expected := by
  induction chain generalizing rank with
  | nil =>
    rw [backOver] at hlow
    omega
  | cons expected chain ih =>
    rw [backOver] at hlow
    split_ifs at hlow with hexpected
    · by_cases hi : i = rank
      · exact ⟨expected, List.mem_cons_self, by rw [hi, hexpected]⟩
      · obtain ⟨other, hother, hget⟩ := ih hlow (by omega)
        exact ⟨other, List.mem_cons_of_mem _ hother, hget⟩
    · omega

theorem backOver_passes_no_quote {texts chain : List Text} (hchain : quote ∉ chain) {rank i : Nat}
    (hlow : backOver texts rank chain < i) (hhigh : i ≤ rank) : texts[i]? ≠ some quote := by
  obtain ⟨expected, hexpected, hget⟩ := backOver_passes hlow hhigh
  rw [hget]
  rintro ⟨⟩
  exact hchain hexpected

theorem backOverBreak_passes_no_quote {texts : List Text} {rank : Nat} {c : Char} {i : Nat}
    (hlow : backOverBreak texts rank c < i) (hhigh : i ≤ rank - 1) : texts[i]? ≠ some quote := by
  have hchain : quote ∉ brokenBreak := by decide
  have hdrop (n : Nat) : quote ∉ brokenBreak.drop n := fun h => hchain (List.mem_of_mem_drop h)
  unfold backOverBreak at hlow
  dsimp only at hlow
  split_ifs at hlow with h1 h2 h3 h4 h5
  · exact backOver_passes_no_quote hchain hlow hhigh
  · exact backOver_passes_no_quote (hdrop _) hlow hhigh
  · exact backOver_passes_no_quote (hdrop _) hlow hhigh
  · rcases Nat.lt_or_ge (backOver texts (rank - 1) [['-'], ['-'], ['-']]) i with h | h
    · exact backOver_passes_no_quote (hdrop 8) h hhigh
    · exact backOver_passes_no_quote (hdrop _) hlow h
  · rcases Nat.lt_or_ge i (rank - 1) with h | h
    · exact backOver_passes_no_quote (hdrop _) hlow (by omega)
    · obtain rfl : i = rank - 1 := by omega
      intro hquote
      rw [hquote] at h5
      exact absurd h5 (by decide)
  · exact backOver_passes_no_quote (hdrop _) hlow hhigh

/-- Behind the last text that is no quote there are no quotes yet. -/
theorem quotesAfter_take_backOverQuotes {texts : List Text} {rank : Nat} (hrank : rank ≤ texts.length) :
    quotesAfter 0 (texts.take (backOverQuotes texts rank)) = 0 := by
  induction rank with
  | zero => rfl
  | succ rank ih =>
    rw [backOverQuotes]
    split_ifs with hquote
    · exact ih (by omega)
    · have hlt : rank < texts.length := hrank
      rw [List.take_succ_eq_append_getElem hlt]
      refine quotesAfter_concat_of_ne (fun h => hquote ?_) _ _
      rw [List.getElem?_eq_getElem hlt, h]
      rfl

/-- Where lexing starts again: behind no quote, or in front of a token that no quote follows, or
right at the cut, before a mark that extends nothing. -/
theorem backUp_quotes {texts : List Text} {rank : Nat} (hrank : rank ≤ texts.length) (c : Char) :
    (quotesAfter 0 (texts.take (backUp texts rank c)) = 0 ∧ ¬LooseMark c) ∨
      (c ≠ '\x27' ∧ ¬LooseMark c ∧ backUp texts rank c < rank ∧
        ∀ i, backUp texts rank c < i → i < rank → texts[i]? ≠ some quote) ∨
      (LooseMark c ∧ backUp texts rank c = rank) := by
  rcases Nat.eq_zero_or_pos rank with rfl | hpos
  · have hzero : backUp texts 0 c = 0 := Nat.le_zero.1 (backUp_le _ _ _)
    rw [hzero]
    by_cases hc : LooseMark c
    · exact .inr (.inr ⟨hc, rfl⟩)
    · exact .inl ⟨rfl, hc⟩
  unfold backUp
  split_ifs with hbreak hclosing hquote hpunctuation
  · refine .inr (.inl ⟨?_, ?_, ?_, fun i hlow hhigh => backOverBreak_passes_no_quote hlow (by omega)⟩)
    · rintro rfl
      exact absurd hbreak (by decide)
    · exact fun hc => hc.not_break hbreak
    · have := backOverBreak_le texts rank c
      omega
  · refine .inr (.inl ⟨?_, fun hc => ?_, by omega, fun i hlow hhigh => by omega⟩)
    · rintro rfl
      exact absurd hclosing (by decide)
    · exact hclosing.elim hc.2.2.1 hc.2.2.2.1
  · refine .inl ⟨quotesAfter_take_backOverQuotes hrank, fun hc => ?_⟩
    rcases hquote with h | h
    · exact hc.2.2.2.2 h
    · rw [h] at hc
      exact absurd hc.1 (by decide)
  · simp only [not_or] at hbreak hclosing hquote
    exact .inr (.inr ⟨⟨hpunctuation, hbreak.2.1, hclosing.1, hclosing.2, hquote.1⟩, rfl⟩)
  · simp only [not_or] at hquote
    exact .inr (.inl ⟨hquote.1, fun hc => hpunctuation hc.1, by omega, fun i hlow hhigh => by omega⟩)

/-! ### Classes -/

variable {text : Text} {cut : Cut}

theorem head?_segments_eq_quote_iff (text : Text) :
    (segments text).head? = some quote ↔ text.head? = some '\x27' := by
  constructor
  · intro h
    by_contra hne
    exact Lexer.head?_segments_ne_quote hne h
  · intro h
    obtain ⟨rest, rfl⟩ : ∃ rest, text = '\x27' :: rest := by
      cases text with
      | nil => simp at h
      | cons c rest => exact ⟨rest, by rw [Option.some.inj h]⟩
    rw [Lexer.segments_quote, List.head?_cons]

/-- What is lexed again begins as before, as long as it begins in front of the cut. -/
theorem head?_kept {first i : Nat} (hi : i < first) (hfirst : first ≤ (segments text).length)
    (behind : Text) : ((((segments text).take first).drop i).flatten ++ behind).head? =
      ((segments text).drop i).flatten.head? := by
  have hlt : i < (segments text).length := by omega
  have hkept : i < ((segments text).take first).length := by rw [List.length_take]; omega
  obtain ⟨c, part, hpart⟩ :=
    List.exists_cons_of_ne_nil (ne_nil_of_mem_segments (List.getElem_mem hlt))
  rw [List.drop_eq_getElem_cons hkept, List.drop_eq_getElem_cons hlt, List.getElem_take, hpart]
  rfl

/-- The second quote of a run loses the third to a mark that extends nothing. -/
def Cut.StrandsQuote (cut : Cut) (texts : List Text) : Prop :=
  quotesAfter 0 (texts.take cut.first) % 3 = 2 ∧ texts[cut.first]? = some quote ∧
    LooseMark (Lexer.nextOf (cut.behind texts))

/-- Lexing starts behind quotes only if it takes in one more quote that stays alone, or right at the
cut, before a mark that extends nothing. -/
theorem quotes_region (hfirst : cut.first ≤ (segments text).length) {start : Nat}
    (hstart : start = cut.start (segments text)) {new : Text}
    (hnew : (((segments text).take cut.first).drop start).flatten ++ cut.behind (segments text) =
      new) :
    classesFrom (quotesAfter 0 ((segments text).take start)) (segments new) =
        classesFrom 0 (segments new) ∧
      ((quotesAfter 0 ((segments text).take start) % 3 = 2 →
          (((segments text).drop start).head? = some quote ↔
            (segments new).head? = some quote)) ↔
        ¬cut.StrandsQuote (segments text)) := by
  have hcases := backUp_quotes hfirst (Lexer.nextOf (cut.behind (segments text)))
  rw [← Cut.start, ← hstart] at hcases
  rcases hcases with ⟨hzero, hc⟩ | ⟨hquote, hc, hlt, hpass⟩ | ⟨hc, rfl⟩
  · -- no quote stands in front of what is lexed again
    refine ⟨by rw [hzero], iff_of_true (by simp [hzero]) fun h => hc h.2.2⟩
  · -- what is lexed again begins with a token that is kept, and a quote there is alone
    have hheads : ((segments text).drop start).head? = some quote ↔
        (segments new).head? = some quote := by
      rw [head?_segments_eq_quote_iff, ← hnew, head?_kept hlt hfirst,
        ← head?_segments_eq_quote_iff, segments_flatten_drop]
    refine ⟨classesFrom_of_lone (fun hhead => ?_) _, iff_of_true (fun _ => hheads) fun h => hc h.2.2⟩
    have hget : (segments text)[start]? = some quote := by
      rw [← List.head?_drop]
      exact hheads.2 hhead
    have hkept : ((segments text).take cut.first).drop start =
        quote :: ((segments text).take cut.first).drop (start + 1) := by
      rw [List.drop_eq_getElem?_toList_append, List.getElem?_take_of_lt hlt, hget]
      rfl
    have hcons (rest : Text) : quote ++ rest = '\x27' :: rest := rfl
    rw [← hnew, hkept, List.flatten_cons, List.append_assoc, hcons, Lexer.segments_quote, List.tail_cons, ne_eq, head?_segments_eq_quote_iff]
    rcases Nat.lt_or_ge (start + 1) cut.first with hnext | hlast
    · -- the token behind the quote is no quote
      rw [head?_kept hnext hfirst, ← head?_segments_eq_quote_iff, segments_flatten_drop,
        List.head?_drop]
      exact hpass _ (Nat.lt_succ_self _) hnext
    · have hnil : ((segments text).take cut.first).drop (start + 1) = [] :=
        List.drop_eq_nil_of_le (by rw [List.length_take]; omega)
      rw [hnil, List.flatten_nil, List.nil_append]
      intro h
      exact hquote (by rw [Lexer.nextOf, h]; rfl)
  · -- nothing is kept in front of the cut, and a loose mark is behind it
    have hnil : ((segments text).take cut.first).drop cut.first = [] :=
      List.drop_eq_nil_of_le (by rw [List.length_take]; omega)
    rw [hnil, List.flatten_nil, List.nil_append] at hnew
    have hnone : (segments new).head? ≠ some quote := by
      rw [ne_eq, head?_segments_eq_quote_iff, ← hnew]
      intro h
      refine hc.2.2.2.2 ?_
      rw [Lexer.nextOf, h]
      rfl
    refine ⟨classesFrom_of_head_ne hnone _, ?_⟩
    rw [List.head?_drop]
    unfold Cut.StrandsQuote
    simp only [hnone, iff_false, hc, and_true, not_and]

/-- The classes of the tokens that are kept and the lexemes between them are those of the new
segments, exactly if the cut strands no quote. -/
theorem classes_region_iff (htext : ∀ c ∈ text, c ≠ terminator) (hcut : cut.Fits (segments text))
    {start replaced : Nat} {more : List Lexeme}
    (hregion : region (segments text) cut = ⟨start, replaced, more⟩) :
    (classesFrom 0 (segments text)).take start ++
        (more.map (·.kind) ++ (classesFrom 0 (segments text)).drop (start + replaced)) =
      classesFrom 0 (segments
        (((segments text).take cut.first).flatten ++ cut.behind (segments text))) ↔
      ¬cut.StrandsQuote (segments text) := by
  obtain ⟨hstart, -, hstop, hlexemes, hhead⟩ := region_lexemes htext hcut hregion
  have hfirst := hcut.first_le.trans hcut.resume_le
  have hstart_le : start ≤ cut.first := hstart ▸ cut.start_le _
  rw [segments_backUp text hfirst (hcut.behind_ne_terminator htext) hstart.le]
  have hkinds := congrArg (List.map (·.kind)) hlexemes
  simp only [lexemes, List.map_append, map_kind_lexemesFrom, segments_flatten_drop] at hkinds
  have hold : (classesFrom 0 (segments text)).drop (start + replaced) =
      classesFrom 0 ((segments text).drop (start + replaced)) := by
    have := drop_classesFrom_append 0 ((segments text).take (start + replaced))
      ((segments text).drop (start + replaced))
    rw [List.take_append_drop, List.length_take, Nat.min_eq_left hstop] at this
    rw [this, classesFrom_of_head_ne hhead]
  rw [hold, ← hkinds]
  generalize hnew : (((segments text).take cut.first).drop start).flatten ++
    cut.behind (segments text) = new
  have hlength : ((segments text).take start).length = start := by
    rw [List.length_take, Nat.min_eq_left (hstart_le.trans hfirst)]
  obtain ⟨hlone, hheads⟩ := quotes_region hfirst (hstart.trans rfl) hnew
  have hback := drop_classesFrom_append 0 ((segments text).take start) (segments new)
  have hfront := take_classesFrom_append_iff_of_zero ((segments text).take start)
    ((segments text).drop start) (segments new)
  rw [hlength] at hback hfront
  rw [List.take_append_drop] at hfront
  have hparts : classesFrom 0 ((segments text).take start ++ segments new) =
      (classesFrom 0 ((segments text).take start ++ segments new)).take start ++
        classesFrom 0 (segments new) := by
    rw [← hlone, ← hback, List.take_append_drop]
  rw [← hheads, ← hfront]
  constructor
  · intro h
    rw [hparts] at h
    exact List.append_cancel_right h
  · intro h
    rw [h]
    exact hparts.symm

end Relex

end LiveProse
