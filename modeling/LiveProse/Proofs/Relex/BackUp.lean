import LiveProse.Relex
import LiveProse.Proofs.Lexical.Lookahead
import Mathlib.Data.List.SplitBy

/-! How far lexing goes back after an edit is far enough: every token in front is a segment of the
new text as it was one of the old (`segments_backUp`). Behind the last token that is kept, either the
next codepoint is as before, or it is one that extends nothing. Only a bare line break looks further,
at the break line that could follow it; `backUp` recognizes, from the codepoint that it is given, all
the tokens that a break line falls apart into when it ends there (`backUp_breakLine`). -/

namespace LiveProse

namespace Segmentation

open Codepoint

/-! ### Parts of segmentations -/

theorem segments_flatten_drop (text : Text) (count : Nat) :
    segments ((segments text).drop count).flatten = (segments text).drop count := by
  induction count generalizing text with
  | zero => simp
  | succ count ih =>
    by_cases h : text = []
    · simp [h]
    · obtain ⟨rest, -, hsegments⟩ := segments_of_ne_nil h
      rw [hsegments, List.drop_succ_cons]
      exact ih rest

theorem breakBody_ne_nil_iff {text : Text} :
    breakBody text ≠ [] ↔ text.take Lexer.breakLine.length = Lexer.breakLine ∧
      ∃ c, text[Lexer.breakLine.length]? = some c ∧ pairOf? c ≠ none := by
  have hclosing : lineBreak (text.drop Lexer.breakLine.length) ≠ [] ↔
      ∃ c, text[Lexer.breakLine.length]? = some c ∧ pairOf? c ≠ none := by
    rw [ne_eq, lineBreak_eq_nil_iff, List.head?_drop]
    push Not
    rfl
  rw [← hclosing]
  unfold breakBody
  split_ifs with h
  · exact iff_of_true (by simp [Lexer.breakLine]) h
  · exact iff_of_false (by simp) h

theorem breakBody_append_ne_nil {text : Text} (h : breakBody text ≠ []) (rest : Text) :
    breakBody (text ++ rest) ≠ [] := by
  obtain ⟨hline, c, hc, hpair⟩ := breakBody_ne_nil_iff.1 h
  obtain ⟨hlength, -⟩ := List.getElem?_eq_some_iff.1 hc
  refine breakBody_ne_nil_iff.2 ⟨?_, c, ?_, hpair⟩
  · rw [List.take_append_of_le_length hlength.le, hline]
  · rw [List.getElem?_append_left hlength, hc]

/-- The segments in front of a border stay when the text ends there. -/
theorem segments_truncate {text : Text} (rest : Text) {front : List Text} (back : List Text)
    (h : segments (text ++ rest) = front ++ back) (hfront : front.flatten = text) :
    segments text = front := by
  induction front generalizing text with
  | nil =>
    obtain rfl : text = [] := hfront.symm
    exact segments_nil
  | cons first front ih =>
    obtain ⟨others, htext, hne, hfirst, hothers⟩ := segments_eq_cons_iff.1 h
    obtain rfl : first ++ front.flatten = text := by rw [← hfront, List.flatten_cons]
    obtain rfl : front.flatten ++ rest = others := by
      rw [List.append_assoc] at htext
      exact List.append_cancel_left htext
    refine segments_eq_cons_iff.2 ⟨front.flatten, rfl, hne, ?_, ih hothers rfl⟩
    refine segment_follows hne ?_ (fun _ hbody => ?_) hfirst
    · cases front.flatten with
      | nil => exact .inr (by simp)
      | cons c more => exact .inl rfl
    · by_contra hsome
      exact breakBody_append_ne_nil hsome rest hbody

/-- A row of texts each of which is the first segment of what is left. -/
def IsCut : List Text → Prop
  | [] => True
  | text :: rest => (text ≠ [] ∧ segment (text ++ rest.flatten) = text) ∧ IsCut rest

instance decidableIsCut : (texts : List Text) → Decidable (IsCut texts)
  | [] => .isTrue trivial
  | _ :: rest => @instDecidableAnd _ _ _ (decidableIsCut rest)

theorem IsCut.segments_eq {texts : List Text} (h : IsCut texts) :
    segments texts.flatten = texts := by
  induction texts with
  | nil => exact segments_nil
  | cons text rest ih =>
    obtain ⟨⟨hne, hfirst⟩, hrest⟩ := h
    rw [List.flatten_cons, segments_append hne hfirst, ih hrest]

end Segmentation

namespace Relex

open Codepoint Segmentation

/-! ### The break line in tokens -/

/-- The tokens of a break line that ends after some codepoints. -/
def pieces (count : Nat) : List Text :=
  (Lexer.breakLine.take count).splitBy fun c d => isLetter c && isLetter d

theorem segments_breakLine {count : Nat} (h : count < 24) :
    segments (Lexer.breakLine.take count) = pieces count := by
  have hcut : ∀ count < 24, IsCut (pieces count) := by decide +kernel
  have hflatten : (pieces count).flatten = Lexer.breakLine.take count := List.flatten_splitBy _ _
  rw [← hflatten]
  exact (hcut count h).segments_eq

theorem backOver_le (texts : List Text) (rank : Nat) (chain : List Text) :
    backOver texts rank chain ≤ rank := by
  induction chain generalizing rank with
  | nil => exact le_rfl
  | cons expected chain ih =>
    rw [backOver]
    split_ifs
    · exact (ih (rank - 1)).trans (Nat.sub_le _ _)
    · exact le_rfl

theorem backOverQuotes_le (texts : List Text) (rank : Nat) : backOverQuotes texts rank ≤ rank := by
  induction rank with
  | zero => exact le_rfl
  | succ rank ih =>
    rw [backOverQuotes]
    split_ifs
    · exact ih.trans (Nat.le_succ _)
    · exact le_rfl

/-- What stands in front of a token that is not expected makes no difference, nor does what stands
behind the rank. -/
theorem backOver_shift {front back : List Text} {stop : Text} {texts chain : List Text}
    (hstop : stop ∉ chain) {rank : Nat} (hrank : rank ≤ texts.length) :
    backOver (front ++ stop :: (texts ++ back)) (front.length + rank) chain =
      front.length + backOver (stop :: texts) rank chain := by
  induction chain generalizing rank with
  | nil => rfl
  | cons expected chain ih =>
    rw [List.mem_cons, not_or] at hstop
    have hget : (front ++ stop :: (texts ++ back))[front.length + rank]? = (stop :: texts)[rank]? := by
      rw [List.getElem?_append_right (Nat.le_add_right _ _), Nat.add_sub_cancel_left,
        ← List.cons_append, List.getElem?_append_left (by simpa using Nat.lt_succ_of_le hrank)]
    simp only [backOver, hget]
    cases rank with
    | zero => simp [hstop.1]
    | succ rank =>
      split_ifs
      · exact ih hstop.2 (by omega)
      · rfl

/-- The codepoints that a documentation break goes on with after part of its break line. -/
def expectedAfter (count : Nat) : List Char :=
  match Lexer.breakLine[count]? with
  | some c => [c]
  | none => ['\n', '\r']

def lineBreaks : List Text := [['\n'], ['\r'], ['\n', '\r'], ['\r', '\n']]

theorem backOverBreak_shift {opening : Text} (hopening : opening ∉ brokenBreak) (front back : List Text)
    {texts : List Text} (hpos : 0 < texts.length) (c : Char) :
    backOverBreak (front ++ opening :: (texts ++ back)) (front.length + (texts.length + 1)) c =
      front.length + backOverBreak (opening :: texts) (texts.length + 1) c := by
  have hdrop (n : Nat) : opening ∉ brokenBreak.drop n := fun h => hopening (List.mem_of_mem_drop h)
  have hhyphens : opening ∉ [['-'], ['-'], ['-']] := hdrop 8
  have hget : (front ++ opening :: (texts ++ back))[front.length + texts.length]? =
      (opening :: texts)[texts.length]? := by
    rw [List.getElem?_append_right (Nat.le_add_right _ _), Nat.add_sub_cancel_left,
      ← List.cons_append, List.getElem?_append_left (by simp)]
  have hrank : front.length + (texts.length + 1) - 1 = front.length + texts.length := by omega
  have hbefore : front.length + texts.length - 1 = front.length + (texts.length - 1) := by omega
  simp only [backOverBreak, hrank, Nat.add_sub_cancel, hget, hbefore]
  split_ifs
  · exact backOver_shift hopening le_rfl
  · exact backOver_shift (hdrop 5) le_rfl
  · exact backOver_shift (hdrop 7) le_rfl
  · rw [backOver_shift hhyphens le_rfl, backOver_shift (hdrop 4) (backOver_le _ _ _)]
  · exact backOver_shift (hdrop 6) (Nat.sub_le _ _)
  · exact backOver_shift (hdrop 6) le_rfl

/-- Lexing goes back to the line break of a documentation break that the codepoint could be part
of. -/
theorem backUp_breakLine {count : Nat} (hpos : 0 < count) (hcount : count < 24) {c : Char}
    (hc : c ∈ expectedAfter count) {opening : Text} (hopening : opening ∈ lineBreaks)
    (front back : List Text) :
    backUp (front ++ opening :: (pieces count ++ back)) (front.length + ((pieces count).length + 1))
      c = front.length := by
  have hlocal : ∀ count < 24, 0 < count → (expectedAfter count).all (fun c =>
      lineBreaks.all fun opening =>
        (c == ' ' || c == '-' || c == '\n' || c == '\r' || isBreakLetter c) &&
          (decide (0 < (pieces count).length) &&
            backOverBreak (opening :: pieces count) ((pieces count).length + 1) c == 0)) = true := by
    decide +kernel
  have hchain : ∀ opening ∈ lineBreaks, opening ∉ brokenBreak := by decide
  obtain ⟨hbreak, hpieces, hzero⟩ : (c = ' ' ∨ c = '-' ∨ c = '\n' ∨ c = '\r' ∨ isBreakLetter c) ∧
      0 < (pieces count).length ∧
        backOverBreak (opening :: pieces count) ((pieces count).length + 1) c = 0 := by
    have := List.all_eq_true.1 (List.all_eq_true.1 (hlocal count hcount hpos) c hc) opening hopening
    simpa [or_assoc] using this
  rw [backUp, if_pos hbreak, backOverBreak_shift (hchain opening hopening) front back hpieces, hzero,
    Nat.add_zero]

/-! ### Far enough -/

theorem backOverBreak_le (texts : List Text) (rank : Nat) (c : Char) :
    backOverBreak texts rank c ≤ rank - 1 := by
  unfold backOverBreak
  dsimp only
  split_ifs
  · exact backOver_le _ _ _
  · exact backOver_le _ _ _
  · exact backOver_le _ _ _
  · exact (backOver_le _ _ _).trans (backOver_le _ _ _)
  · exact (backOver_le _ _ _).trans (Nat.sub_le _ _)
  · exact backOver_le _ _ _

theorem inert_quote : Inert '\x27' := by
  refine ⟨?_, ?_, ?_, ?_, ?_, ?_, ?_⟩ <;> decide

theorem inert_of_isPunctuation {c : Char} (h : isPunctuation c = true) (hhyphen : c ≠ '-')
    (hplus : c ≠ '+') (hparenthesis : c ≠ ')') : Inert c := by
  simp only [isPunctuation, punctuation, List.contains_eq_mem, List.mem_cons, List.not_mem_nil,
    or_false, decide_eq_true_eq] at h
  refine ⟨?_, ?_, ?_, ?_, hhyphen, hplus, hparenthesis⟩ <;>
    rcases h with rfl | rfl | rfl | rfl | rfl | rfl | rfl | rfl | rfl | rfl | rfl | rfl | rfl | rfl <;>
    decide

/-- Lexing never starts behind the cut, and right at it only before what extends nothing. -/
theorem backUp_cases (texts : List Text) (rank : Nat) (c : Char) :
    backUp texts rank c ≤ rank - 1 ∨
      (backUp texts rank c ≤ rank ∧ (Inert c ∨ c = terminator)) := by
  unfold backUp
  split_ifs with hbreak hclosing hquote hpunctuation
  · exact .inl (backOverBreak_le _ _ _)
  · exact .inl le_rfl
  · refine .inr ⟨backOverQuotes_le _ _, ?_⟩
    rcases hquote with rfl | rfl
    · exact .inl inert_quote
    · exact .inr rfl
  · simp only [not_or] at hbreak hclosing
    exact .inr ⟨le_rfl, .inl (inert_of_isPunctuation hpunctuation hbreak.2.1 hclosing.1 hclosing.2)⟩
  · exact .inl le_rfl

theorem backUp_le (texts : List Text) (rank : Nat) (c : Char) : backUp texts rank c ≤ rank := by
  rcases backUp_cases texts rank c with h | h
  · omega
  · exact h.1

theorem mem_lineBreaks {text : Text} (h : lineBreak text = text) (hne : text ≠ []) :
    text ∈ lineBreaks := by
  cases text with
  | nil => exact absurd rfl hne
  | cons c rest =>
    cases hpair : pairOf? c with
    | none => simp [lineBreak, hpair] at h
    | some d =>
      simp only [lineBreak, hpair] at h
      rw [← h]
      rcases pairOf?_eq_some hpair with ⟨rfl, rfl⟩ | ⟨rfl, rfl⟩ <;> split_ifs <;> decide

/-- What a documentation break would take in begins in the old text and goes on in the new one. -/
theorem breakBody_split {old rest more : Text} (hold : breakBody (old ++ more) = [])
    (hnew : breakBody (old ++ rest) ≠ []) :
    old.length < 24 ∧ old = Lexer.breakLine.take old.length ∧
      Lexer.nextOf rest ∈ expectedAfter old.length := by
  obtain ⟨hline, c, hc, hpair⟩ := breakBody_ne_nil_iff.1 hnew
  have hlength : Lexer.breakLine.length = 23 := rfl
  have hlt : old.length < 24 := by
    by_contra hge
    refine breakBody_ne_nil_iff.2 ⟨?_, c, ?_, hpair⟩ hold
    · rw [List.take_append_of_le_length (by omega)] at hline ⊢
      exact hline
    · rw [List.getElem?_append_left (by omega)] at hc ⊢
      exact hc
  have hnext : rest.head? = (old ++ rest)[old.length]? := by
    rw [List.getElem?_append_right le_rfl, Nat.sub_self, List.head?_eq_getElem?]
  refine ⟨hlt, ?_, ?_⟩
  · rw [← hline, List.take_take, Nat.min_eq_left (by omega), List.take_left]
  · unfold expectedAfter
    rcases Nat.lt_or_ge old.length Lexer.breakLine.length with hinside | hend
    · have hget : (old ++ rest)[old.length]? = Lexer.breakLine[old.length]? := by
        rw [← hline, List.getElem?_take_of_lt hinside]
      rw [List.getElem?_eq_getElem hinside] at hget ⊢
      simp [Lexer.nextOf, hnext, hget]
    · obtain heq : old.length = Lexer.breakLine.length := by omega
      rw [heq] at hnext ⊢
      rw [hc] at hnext
      have hnone : Lexer.breakLine[Lexer.breakLine.length]? = none := List.getElem?_eq_none le_rfl
      rw [hnone]
      obtain ⟨d, hd⟩ := Option.ne_none_iff_exists'.1 hpair
      rcases pairOf?_eq_some hd with ⟨rfl, -⟩ | ⟨rfl, -⟩ <;> simp [Lexer.nextOf, hnext]

/-- A token in front of where lexing starts again is the first segment of the new text from there on.
Behind it are the tokens that are kept, and behind these those that are cut off. -/
theorem segment_in_front (front : List Text) {behind back : List Text} {token rest : Text}
    (hrest : ∀ c ∈ rest, c ≠ terminator)
    (hold : segments (token ++ (behind ++ back).flatten) = token :: (behind ++ back))
    (hstart : front.length < backUp (front ++ token :: (behind ++ back))
      (front.length + (behind.length + 1)) (Lexer.nextOf rest)) :
    segment (token ++ (behind.flatten ++ rest)) = token := by
  obtain ⟨more, hmore, hne, hfirst, hothers⟩ := segments_eq_cons_iff.1 hold
  obtain rfl : (behind ++ back).flatten = more := List.append_cancel_left hmore
  have hcases := backUp_cases (front ++ token :: (behind ++ back))
    (front.length + (behind.length + 1)) (Lexer.nextOf rest)
  refine segment_follows hne (?_ : Follows (behind ++ back).flatten _) (fun hopening hbody => ?_) hfirst
  · cases behind with
    | nil =>
      -- the last token that is kept: only what extends nothing can follow
      rw [List.length_nil] at hstart hcases
      refine .inr fun c hc => ?_
      have hnext : Lexer.nextOf rest = c := by
        simp only [List.flatten_nil, List.nil_append] at hc
        simp [Lexer.nextOf, hc]
      have hinert := (hcases.resolve_left (by omega)).2
      rw [hnext] at hinert
      exact hinert.resolve_right (hrest c (List.mem_of_mem_head? (by simpa using hc)))
    | cons first others =>
      rw [List.flatten_append]
      refine Follows.of_append ?_ _ _
      have hmem : first ∈ segments ((first :: others) ++ back).flatten := by
        rw [hothers]
        simp
      simp [ne_nil_of_mem_segments hmem]
  · by_contra hnew
    rw [List.flatten_append] at hbody
    obtain ⟨hcount, hline, hnext⟩ := breakBody_split hbody hnew
    -- what is kept behind the token would be of the break, so backing up would go to the token
    have hpieces : behind = pieces behind.flatten.length := by
      rw [← segments_breakLine hcount, ← hline]
      refine (segments_truncate back.flatten back ?_ rfl).symm
      rw [← List.flatten_append, hothers]
    have hpos : 0 < behind.flatten.length := by
      rw [Nat.pos_iff_ne_zero]
      intro hzero
      rw [hzero] at hpieces hnext
      have hlength : behind.length = 0 := by rw [hpieces]; rfl
      have hhyphen : Lexer.nextOf rest = '-' := List.mem_singleton.1 hnext
      rw [hhyphen] at hstart hcases
      rcases hcases with h | ⟨-, h | h⟩
      · omega
      · exact h.2.2.2.2.1 rfl
      · exact absurd h (by decide)
    have hback := backUp_breakLine hpos hcount hnext (mem_lineBreaks hopening hne) front back
    rw [← hpieces] at hback
    omega

/-- The tokens in front of where lexing starts again are segments of the new text, whatever comes
behind the cut. -/
theorem segments_backUp (text : Text) {rank : Nat} (hrank : rank ≤ (segments text).length)
    {rest : Text} (hrest : ∀ c ∈ rest, c ≠ terminator) {start : Nat}
    (hstart : start ≤ backUp (segments text) rank (Lexer.nextOf rest)) :
    segments (((segments text).take rank).flatten ++ rest) =
      (segments text).take start ++
        segments ((((segments text).take rank).drop start).flatten ++ rest) := by
  induction start with
  | zero => simp
  | succ start ih =>
    rw [ih (by omega)]
    generalize hall : segments text = all at *
    have hle := backUp_le all rank (Lexer.nextOf rest)
    have hlt : start < all.length := by omega
    have hkept : (all.take rank).drop start = all[start] :: (all.take rank).drop (start + 1) := by
      rw [List.drop_eq_getElem_cons (by rw [List.length_take]; omega), List.getElem_take]
    -- what follows the token: the rest of what is kept, and then what is cut off
    have hsplit : all.drop (start + 1) = (all.take rank).drop (start + 1) ++ all.drop rank := by
      rw [← List.drop_append_of_le_length (by rw [List.length_take]; omega),
        List.take_append_drop]
    have hold : segments (all.drop start).flatten = all.drop start := by
      rw [← hall, segments_flatten_drop]
    rw [List.drop_eq_getElem_cons hlt, hsplit, List.flatten_cons] at hold
    have hwhole : all = all.take start ++ all[start] :: ((all.take rank).drop (start + 1) ++
        all.drop rank) := by
      rw [← hsplit, ← List.drop_eq_getElem_cons hlt, List.take_append_drop]
    have hfront : (all.take start).length = start := List.length_take_of_le hlt.le
    have hbehind : ((all.take rank).drop (start + 1)).length + 1 = rank - start := by
      rw [List.length_drop, List.length_take, Nat.min_eq_left hrank]
      omega
    have hsame := segment_in_front (all.take start) hrest hold (by
      rw [← hwhole, hfront, hbehind, Nat.add_sub_cancel' (by omega)]
      exact hstart)
    obtain ⟨-, -, hne, -⟩ := segments_eq_cons_iff.1 hold
    rw [hkept, List.flatten_cons, List.append_assoc, segments_append hne hsame,
      List.take_succ_eq_append_getElem hlt, List.append_assoc, List.singleton_append]

end Relex

end LiveProse
