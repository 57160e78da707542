import LiveProse.Proofs.Relex.Quotes
import LiveProse.Proofs.Relex.Tokens

/-! Where an edit falls. The search by running sums finds the token that holds a codepoint
(`locate_eq`), so the cut that an edit makes into a sequence of tokens is one into the row of their
texts, and what comes of it is the text with the edit spliced in (`cut_spliced`). -/

namespace LiveProse

namespace Relex

open Codepoint Segmentation

/-- The index of the part that holds an offset, or the number of parts when the offset is beyond
them. -/
def holding : List Nat → Nat → Nat
  | [], _ => 0
  | length :: rest, offset => if offset < length then 0 else holding rest (offset - length) + 1

theorem holding_le (lengths : List Nat) (offset : Nat) : holding lengths offset ≤ lengths.length := by
  induction lengths generalizing offset with
  | nil => exact le_rfl
  | cons length rest ih =>
    rw [holding]
    split_ifs
    · exact Nat.zero_le _
    · exact Nat.succ_le_succ (ih _)

theorem holding_lt {lengths : List Nat} {offset : Nat} (h : offset < lengths.sum) :
    holding lengths offset < lengths.length := by
  induction lengths generalizing offset with
  | nil => exact absurd h (Nat.not_lt_zero _)
  | cons length rest ih =>
    rw [List.sum_cons] at h
    rw [holding]
    split_ifs
    · exact Nat.succ_pos _
    · exact Nat.succ_lt_succ (ih (by omega))

theorem holding_mono (lengths : List Nat) {offset offset' : Nat} (h : offset ≤ offset') :
    holding lengths offset ≤ holding lengths offset' := by
  induction lengths generalizing offset offset' with
  | nil => exact le_rfl
  | cons length rest ih =>
    rw [holding, holding]
    split_ifs
    · exact le_rfl
    · exact Nat.zero_le _
    · omega
    · exact Nat.succ_le_succ (ih (by omega))

theorem holding_append_left {front : List Nat} {offset : Nat} (h : offset < front.sum)
    (back : List Nat) : holding (front ++ back) offset = holding front offset := by
  induction front generalizing offset with
  | nil => exact absurd h (Nat.not_lt_zero _)
  | cons length front ih =>
    rw [List.sum_cons] at h
    rw [List.cons_append, holding, holding]
    split_ifs
    · rfl
    · rw [ih (by omega)]

theorem holding_append_right (front back : List Nat) {offset : Nat} (h : front.sum ≤ offset) :
    holding (front ++ back) offset = front.length + holding back (offset - front.sum) := by
  induction front generalizing offset with
  | nil => simp
  | cons length front ih =>
    rw [List.sum_cons] at h
    rw [List.cons_append, holding, if_neg (by omega), ih (by omega), List.sum_cons, List.length_cons,
      show offset - length - front.sum = offset - (length + front.sum) by omega]
    omega

theorem sum_take_holding_le (lengths : List Nat) (offset : Nat) :
    (lengths.take (holding lengths offset)).sum ≤ offset := by
  induction lengths generalizing offset with
  | nil => simp
  | cons length rest ih =>
    rw [holding]
    split_ifs
    · simp
    · have := ih (offset - length)
      rw [List.take_succ_cons, List.sum_cons]
      omega

/-- The part that holds an offset ends behind it. -/
theorem lt_sum_take_succ_holding {lengths : List Nat} {offset : Nat}
    (h : holding lengths offset < lengths.length) :
    offset < (lengths.take (holding lengths offset + 1)).sum := by
  induction lengths generalizing offset with
  | nil => exact absurd h (Nat.not_lt_zero _)
  | cons length rest ih =>
    rw [holding] at h ⊢
    rw [List.take_succ_cons, List.sum_cons]
    split_ifs at h ⊢ with hlt
    · omega
    · have := ih (Nat.lt_of_succ_lt_succ h)
      omega

/-- A text up to an offset, and from an offset on, by the part that holds the offset. -/
theorem take_drop_holding (texts : List Text) (offset : Nat) :
    let index := holding (texts.map List.length) offset
    let lead := offset - ((texts.map List.length).take index).sum
    texts.flatten.take offset = (texts.take index).flatten ++ ((texts[index]?).getD []).take lead ∧
      texts.flatten.drop offset =
        ((texts[index]?).getD []).drop lead ++ (texts.drop (index + 1)).flatten := by
  induction texts generalizing offset with
  | nil => simp
  | cons text texts ih =>
    rw [List.map_cons, holding]
    split_ifs with hlt
    · simp [List.take_append_of_le_length hlt.le, List.drop_append_of_le_length hlt.le]
    · obtain ⟨htake, hdrop⟩ := ih (offset - text.length)
      have hle : text.length ≤ offset := by omega
      have hlead : offset - (text.length + ((texts.map List.length).take
          (holding (texts.map List.length) (offset - text.length))).sum) =
          offset - text.length - ((texts.map List.length).take
            (holding (texts.map List.length) (offset - text.length))).sum := by omega
      simp only [List.take_succ_cons, List.sum_cons, List.flatten_cons, List.getElem?_cons_succ,
        List.drop_succ_cons, hlead]
      rw [List.take_append, List.drop_append, List.take_of_length_le hle, List.drop_eq_nil_of_le hle,
        htake, hdrop, List.append_assoc, List.nil_append]
      exact ⟨rfl, rfl⟩

/-- A text behind the codepoint at an offset. -/
theorem drop_succ_holding (texts : List Text) (offset : Nat) (h : offset < texts.flatten.length) :
    let index := holding (texts.map List.length) offset
    texts.flatten.drop (offset + 1) =
      ((texts[index]?).getD []).drop (offset + 1 - ((texts.map List.length).take index).sum) ++
        (texts.drop (index + 1)).flatten := by
  induction texts generalizing offset with
  | nil => exact absurd h (Nat.not_lt_zero _)
  | cons text texts ih =>
    rw [List.flatten_cons, List.length_append] at h
    rw [List.map_cons, holding]
    split_ifs with hlt
    · simp [List.drop_append_of_le_length (Nat.succ_le_of_lt hlt)]
    · have hle : text.length ≤ offset := by omega
      have hdrop := ih (offset - text.length) (by omega)
      have hsum := sum_take_holding_le (texts.map List.length) (offset - text.length)
      simp only [List.take_succ_cons, List.sum_cons, List.flatten_cons, List.getElem?_cons_succ,
        List.drop_succ_cons]
      rw [List.drop_append, List.drop_eq_nil_of_le (by omega), List.nil_append,
        show offset + 1 - text.length = offset - text.length + 1 by omega, hdrop]
      congr 2
      omega

/-- The codepoint at an offset, in the part that holds it. -/
theorem getElem?_flatten_holding (texts : List Text) (offset : Nat)
    (h : offset < texts.flatten.length) :
    let index := holding (texts.map List.length) offset
    let lead := offset - ((texts.map List.length).take index).sum
    ∃ text, texts[index]? = some text ∧ lead < text.length ∧ texts.flatten[offset]? = text[lead]? := by
  induction texts generalizing offset with
  | nil => exact absurd h (Nat.not_lt_zero _)
  | cons text texts ih =>
    rw [List.flatten_cons, List.length_append] at h
    rw [List.map_cons, holding]
    split_ifs with hlt
    · exact ⟨text, rfl, by simpa using hlt, by simp [List.getElem?_append_left hlt]⟩
    · obtain ⟨part, hpart, hlead, hget⟩ := ih (offset - text.length) (by omega)
      have heq : offset - (text.length + ((texts.map List.length).take
          (holding (texts.map List.length) (offset - text.length))).sum) =
          offset - text.length - ((texts.map List.length).take
            (holding (texts.map List.length) (offset - text.length))).sum := by omega
      simp only [List.take_succ_cons, List.sum_cons, List.flatten_cons, List.getElem?_cons_succ, heq]
      exact ⟨part, hpart, hlead, by rw [List.getElem?_append_right (by omega), hget]⟩

theorem flatten_drop (texts : List Text) (index : Nat) :
    (texts.drop index).flatten = (texts[index]?).getD [] ++ (texts.drop (index + 1)).flatten := by
  rw [List.drop_eq_getElem?_toList_append, List.flatten_append]
  cases texts[index]? with
  | none => rfl
  | some text => simp

end Relex

/-- The search by running sums finds the leaf that holds an offset. -/
theorem SumTree.find?_eq_getElem? {tree : SumTree Token} (h : tree.Cached Token.codepointSummary)
    (sum : Token) {offset : Nat} (hsum : sum.codepoints ≤ offset) :
    tree.find? (Combine.Ordered.precedes (Token.target offset)) sum =
      (tree.entries.map (·.1))[Relex.holding (tree.values.map (·.codepoints))
        (offset - sum.codepoints)]? := by
  have hpasses (first next : Token) :
      Combine.Ordered.precedes (Token.target offset) (Combine.combine first next) = true ↔
        offset < first.codepoints + next.codepoints := decide_eq_true_iff
  induction tree generalizing sum with
  | leaf name value =>
    simp only [find?, hpasses, entries, values_leaf, List.map_cons, List.map_nil, Relex.holding]
    by_cases hlt : offset < sum.codepoints + value.codepoints
    · rw [if_pos hlt, if_pos (by omega)]
      rfl
    · rw [if_neg hlt, if_neg (by omega)]
      rfl
  | joint name inner size left right ihl ihr =>
    obtain ⟨-, hinner, hl, hr⟩ := h
    replace hinner : inner.codepoints = (left.values.map (·.codepoints)).sum := hinner
    simp only [find?, hpasses, entries, values_joint, List.map_append]
    by_cases hlt : offset < sum.codepoints + inner.codepoints
    · have hin : offset - sum.codepoints < (left.values.map (·.codepoints)).sum := by omega
      rw [if_pos hlt, ihl hl sum hsum, Relex.holding_append_left hin, List.getElem?_append_left]
      simpa using Relex.holding_lt hin
    · have hthrough : (Combine.combine sum inner).codepoints = sum.codepoints + inner.codepoints :=
        rfl
      have hright := ihr hr (Combine.combine sum inner) (by omega)
      rw [if_neg hlt, hright, Relex.holding_append_right _ _ (by omega), List.getElem?_append_right]
      · rw [hthrough, ← hinner, Nat.sub_sub]
        simp
      · simp

namespace TokenSequence

variable {tokens : TokenSequence} {vocabulary : Vocabulary}

/-- The lengths of tokens. -/
def lengths (tokens : TokenSequence) : List Nat := tokens.toList.map (·.codepoints)

theorem locate_eq (h : tokens.Sound Token.codepointSummary) (offset : Nat) :
    locate tokens offset = tokens.nth (Relex.holding (lengths tokens) offset) := by
  rw [h.nth_eq]
  cases hroot : tokens.root with
  | none => simp [locate, Sequence.find, hroot, Sequence.handles, Sequence.entries]
  | some tree =>
    have hfind := SumTree.find?_eq_getElem? (h.cached tree hroot) Token.neutral
      (Nat.zero_le offset)
    rw [locate, Sequence.find, hroot, Option.bind_some, lengths, Sequence.toList, Sequence.handles,
      Sequence.entries_some hroot]
    exact hfind

theorem rank_locate (h : tokens.Sound Token.codepointSummary) (offset : Nat) :
    tokens.rank (locate tokens offset) = Relex.holding (lengths tokens) offset := by
  rw [locate_eq h, h.rank_nth]
  simpa [lengths] using Relex.holding_le (lengths tokens) offset

theorem offset_locate (h : tokens.Sound Token.codepointSummary) (offset : Nat) :
    TokenSequence.offset tokens (locate tokens offset) =
      ((lengths tokens).take (Relex.holding (lengths tokens) offset)).sum := by
  have hle : Relex.holding (lengths tokens) offset ≤ tokens.entries.length := by
    simpa [lengths] using Relex.holding_le (lengths tokens) offset
  have hsum : _ = _ := h.sumBefore hle
  rw [TokenSequence.offset, locate_eq h, hsum, lengths, List.map_take]

end TokenSequence

namespace Relex

open Codepoint Segmentation

/-- The cut that an edit makes into a row of texts. -/
def cutOf (texts : List Text) (edit : Edit) : Cut :=
  let lengths := texts.map List.length
  let first := holding lengths edit.lo
  let lead := edit.lo - (lengths.take first).sum
  if 0 < lead ∨ edit.lo < edit.hi then
    let last := if edit.lo < edit.hi then holding lengths (edit.hi - 1) else first
    let trail := edit.hi - (lengths.take last).sum
    ⟨first, last + 1,
      ((texts[first]?).getD []).take lead ++ edit.text ++ ((texts[last]?).getD []).drop trail⟩
  else ⟨first, first, edit.text⟩

variable {tokens : TokenSequence} {vocabulary : Vocabulary}

theorem spelling_locate (h : tokens.Sound Token.codepointSummary) (offset : Nat) :
    ((tokens.at? (TokenSequence.locate tokens offset)).map (·.spelling vocabulary)).getD [] =
      ((TokenSequence.spellings tokens vocabulary)[holding (TokenSequence.lengths tokens)
        offset]?).getD [] := by
  rw [TokenSequence.locate_eq h, h.at?_nth, TokenSequence.spellings, List.getElem?_map]

/-- The cut of an edit is one of the texts of the tokens. -/
theorem cut_eq_cutOf (h : tokens.Sound Token.codepointSummary)
    (hlengths : (TokenSequence.spellings tokens vocabulary).map List.length =
      TokenSequence.lengths tokens) {edit : Edit} (hhi : edit.hi ≤ (TokenSequence.lengths tokens).sum)
    (hlo : edit.lo ≤ edit.hi) :
    cut tokens vocabulary edit = cutOf (TokenSequence.spellings tokens vocabulary) edit := by
  have hcount : (TokenSequence.lengths tokens).length = tokens.entries.length := by
    simp [TokenSequence.lengths]
  have hnext (offset : Nat) (hlt : holding (TokenSequence.lengths tokens) offset <
      (TokenSequence.lengths tokens).length) :
      tokens.rank (tokens.next (TokenSequence.locate tokens offset)) =
        holding (TokenSequence.lengths tokens) offset + 1 := by
    rw [TokenSequence.locate_eq h, h.next_nth (by omega), h.rank_nth (by omega)]
  simp only [cut, cutOf, hlengths, TokenSequence.offset_locate h, TokenSequence.rank_locate h,
    spelling_locate h]
  split_ifs with hwhole hrange
  · rw [hnext (edit.hi - 1) (holding_lt (by omega)), TokenSequence.offset_locate h,
      spelling_locate h]
  · obtain hlead : 0 < edit.lo - _ := hwhole.resolve_right hrange
    have hlt : holding (TokenSequence.lengths tokens) edit.lo < (TokenSequence.lengths tokens).length := by
      by_contra hge
      rw [List.take_of_length_le (by omega)] at hlead
      omega
    rw [hnext edit.lo hlt, TokenSequence.offset_locate h, spelling_locate h]
  · rfl

variable {texts : List Text} {edit : Edit}

/-- What comes of the cut is the text with the edit spliced in. -/
theorem cutOf_spliced (texts : List Text) (hlo : edit.lo ≤ edit.hi) (hhi : edit.hi ≤ texts.flatten.length) :
    (texts.take (cutOf texts edit).first).flatten ++ (cutOf texts edit).behind texts =
      edit.splice texts.flatten := by
  obtain ⟨htake, hdrop⟩ := take_drop_holding texts edit.lo
  unfold cutOf Edit.splice Cut.behind
  dsimp only
  split_ifs with hwhole hrange
  · have hlast := drop_succ_holding texts (edit.hi - 1) (by omega)
    rw [show edit.hi - 1 + 1 = edit.hi by omega] at hlast
    rw [htake, hlast]
    simp
  · have heq : edit.hi = edit.lo := by omega
    rw [htake, heq, hdrop]
    simp
  · obtain ⟨hlead, -⟩ := not_or.1 hwhole
    have heq : edit.hi = edit.lo := by omega
    rw [Nat.eq_zero_of_not_pos hlead] at htake hdrop
    rw [htake, heq, hdrop, flatten_drop]
    simp

/-- What an edit replaces lies between the tokens in front of its cut and those behind it. -/
theorem cutOf_between (hlo : edit.lo ≤ edit.hi) (hhi : edit.hi ≤ texts.flatten.length) :
    ((texts.map List.length).take (cutOf texts edit).first).sum ≤ edit.lo ∧
      edit.hi ≤ ((texts.map List.length).take (cutOf texts edit).resume).sum := by
  have hfirst := sum_take_holding_le (texts.map List.length) edit.lo
  rw [List.length_flatten] at hhi
  unfold cutOf
  dsimp only
  split_ifs with hwhole hrange
  · have hlt : holding (texts.map List.length) (edit.hi - 1) < (texts.map List.length).length :=
      holding_lt (by omega)
    have := lt_sum_take_succ_holding hlt
    exact ⟨hfirst, by dsimp only; omega⟩
  · have hlead := hwhole.resolve_right hrange
    have hlt : holding (texts.map List.length) edit.lo < (texts.map List.length).length := by
      by_contra hge
      rw [List.take_of_length_le (by omega)] at hlead
      omega
    have := lt_sum_take_succ_holding hlt
    exact ⟨hfirst, by dsimp only; omega⟩
  · obtain ⟨hlead, -⟩ := not_or.1 hwhole
    exact ⟨hfirst, by dsimp only; omega⟩

theorem ne_terminator_of_getElem? (htext : ∀ c ∈ texts.flatten, c ≠ terminator) (index : Nat) :
    ∀ c ∈ (texts[index]?).getD [], c ≠ terminator := by
  intro c hc
  cases hget : texts[index]? with
  | none => simp [hget] at hc
  | some text =>
    rw [hget] at hc
    exact htext c (List.mem_flatten.2 ⟨text, List.mem_of_getElem? hget, hc⟩)

theorem cutOf_fits (hlo : edit.lo ≤ edit.hi) (hhi : edit.hi ≤ texts.flatten.length)
    (htext : ∀ c ∈ texts.flatten, c ≠ terminator) (hedit : ∀ c ∈ edit.text, c ≠ terminator) :
    (cutOf texts edit).Fits texts := by
  have hsum : (texts.map List.length).sum = texts.flatten.length := List.length_flatten.symm
  have hcount : (texts.map List.length).length = texts.length := List.length_map _
  have hmiddle (first lead last trail : Nat) :
      ∀ c ∈ ((texts[first]?).getD []).take lead ++ edit.text ++ ((texts[last]?).getD []).drop trail,
        c ≠ terminator := by
    intro c hc
    rcases List.mem_append.1 hc with hc | hc
    · rcases List.mem_append.1 hc with hc | hc
      · exact ne_terminator_of_getElem? htext first c (List.mem_of_mem_take hc)
      · exact hedit c hc
    · exact ne_terminator_of_getElem? htext last c (List.mem_of_mem_drop hc)
  have hfirst := holding_le (texts.map List.length) edit.lo
  unfold cutOf
  dsimp only
  split_ifs with hwhole hrange
  · have hle := holding_mono (texts.map List.length) (show edit.lo ≤ edit.hi - 1 by omega)
    have hlt : holding (texts.map List.length) (edit.hi - 1) < (texts.map List.length).length :=
      holding_lt (by omega)
    exact ⟨by dsimp only; omega, by dsimp only; omega, hmiddle _ _ _ _⟩
  · have hlead := hwhole.resolve_right hrange
    have hlt : holding (texts.map List.length) edit.lo < texts.length := by
      by_contra hge
      rw [List.take_of_length_le (by omega)] at hlead
      omega
    exact ⟨Nat.le_succ _, hlt, hmiddle _ _ _ _⟩
  · exact ⟨le_rfl, by dsimp only; omega, hedit⟩

/-! ### Quotes around the edit -/

/-- The number of quotes that end a text. -/
def quotesBefore (text : Text) : Nat := (text.reverse.takeWhile (· == '\x27')).length

/-- The edit puts a mark that extends nothing between the second quote of a run and the third. -/
def StrandsQuote (edit : Edit) (text : Text) : Prop :=
  quotesBefore (text.take edit.lo) % 3 = 2 ∧ text[edit.lo]? = some '\x27' ∧
    ∃ c, (edit.splice text)[edit.lo]? = some c ∧ LooseMark c

theorem quotesAfter_eq_quotesBefore {text : Text} (count : Nat) :
    quotesAfter 0 ((segments text).take count) =
      quotesBefore ((segments text).take count).flatten := by
  induction count with
  | zero => rfl
  | succ count ih =>
    rcases Nat.lt_or_ge count (segments text).length with hlt | hge
    · have hmem := List.getElem_mem hlt
      rw [List.take_succ_eq_append_getElem hlt, List.flatten_append]
      by_cases hquote : (segments text)[count] = quote
      · rw [hquote, quotesAfter_append, ih]
        simp [quotesAfter, quotesBefore, quote]
      · have hnot : '\x27' ∉ (segments text)[count] := fun h =>
          hquote (eq_quote_of_mem_segments hmem h)
        obtain ⟨part, c, hpart⟩ :=
          (List.eq_nil_or_concat' _).resolve_left (ne_nil_of_mem_segments hmem)
        have hc : (c == '\x27') = false := by
          rw [beq_eq_false_iff_ne]
          rintro rfl
          exact hnot (by simp [hpart])
        rw [quotesAfter_concat_of_ne hquote, hpart]
        simp [quotesBefore, hc]
    · rw [List.take_of_length_le (by omega)]
      rwa [List.take_of_length_le (by omega)] at ih

theorem cutOf_first (texts : List Text) (edit : Edit) :
    (cutOf texts edit).first = holding (texts.map List.length) edit.lo := by
  unfold cutOf
  dsimp only
  split_ifs <;> rfl

/-- A codepoint is a quote if the token that holds it is one, and then nothing else is in it. -/
theorem quote_holding (text : Text) (offset : Nat) :
    let lengths := (segments text).map List.length
    (text[offset]? = some '\x27' ↔ (segments text)[holding lengths offset]? = some quote) ∧
      (text[offset]? = some '\x27' →
        text.take offset = ((segments text).take (holding lengths offset)).flatten) := by
  intro lengths
  have hsum : lengths.sum = text.length := by
    rw [← List.length_flatten, flatten_segments]
  rcases Nat.lt_or_ge offset text.length with hlt | hge
  · obtain ⟨part, hpart, hlead, hget⟩ := getElem?_flatten_holding (segments text) offset
      (by rwa [flatten_segments])
    obtain ⟨htake, -⟩ := take_drop_holding (segments text) offset
    rw [flatten_segments] at hget htake
    change offset - (lengths.take (holding lengths offset)).sum < _ at hlead
    have honly (h : part = quote) : offset - (lengths.take (holding lengths offset)).sum = 0 := by
      rw [h, show quote.length = 1 from rfl] at hlead
      omega
    have hquote (h : text[offset]? = some '\x27') : part = quote := by
      rw [hget] at h
      exact eq_quote_of_mem_segments (List.mem_of_getElem? hpart) (List.mem_of_getElem? h)
    rw [hpart, Option.some.injEq]
    refine ⟨⟨hquote, fun h => ?_⟩, fun h => ?_⟩
    · rw [hget, honly h, h]
      rfl
    · rw [htake, honly (hquote h), List.take_zero, List.append_nil]
  · have hnone : text[offset]? = none := List.getElem?_eq_none hge
    have hindex : holding lengths offset = (segments text).length := by
      have := holding_append_right lengths [] (hsum ▸ hge)
      rw [List.append_nil] at this
      simp [this, holding, lengths]
    simp [hnone, hindex]

theorem strandsQuote_cutOf_iff {text : Text} (hlo : edit.lo ≤ edit.hi) (hhi : edit.hi ≤ text.length) :
    (cutOf (segments text) edit).StrandsQuote (segments text) ↔ StrandsQuote edit text := by
  have hsplice := cutOf_spliced (segments text) hlo (by rwa [flatten_segments])
  rw [flatten_segments] at hsplice
  unfold Cut.StrandsQuote StrandsQuote
  obtain ⟨hiff, htake⟩ := quote_holding text edit.lo
  rw [cutOf_first, ← hiff, and_left_comm, and_left_comm (a := quotesBefore _ % 3 = 2)]
  refine and_congr_right fun hquote => ?_
  replace htake := htake hquote
  rw [quotesAfter_eq_quotesBefore, ← htake]
  refine and_congr_right fun _ => ?_
  rw [cutOf_first, ← htake] at hsplice
  have hlength : (text.take edit.lo).length = edit.lo := by
    rw [List.length_take, Nat.min_eq_left (by omega)]
  have hget : (edit.splice text)[edit.lo]? = ((cutOf (segments text) edit).behind (segments text)).head? := by
    rw [← hsplice, List.getElem?_append_right hlength.le, hlength, Nat.sub_self,
      List.head?_eq_getElem?]
  rw [hget, Lexer.nextOf]
  cases hhead : ((cutOf (segments text) edit).behind (segments text)).head? with
  | none => simp [LooseMark, isPunctuation, punctuation, terminator]
  | some c => simp

end Relex

end LiveProse
