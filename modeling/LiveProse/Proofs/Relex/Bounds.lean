import LiveProse.Proofs.Relex.Cut
import LiveProse.Proofs.Relex.Tokens

/-! Where a plan lies: whatever is edited, the tokens that make way are tokens that are there. -/

namespace LiveProse

namespace Relex

theorem lexOn_le (lexer : Lexer) (texts : List Text) : (lexOn lexer texts).2 ≤ texts.length := by
  induction texts generalizing lexer with
  | nil => exact Nat.le_refl 0
  | cons text rest ih =>
    cases text with
    | nil => exact Nat.zero_le _
    | cons c text =>
      rw [lexOn]
      dsimp only
      split_ifs
      · exact Nat.zero_le _
      · exact Nat.succ_le_succ (ih _)

/-- Lexing starts again no later than at the first token that the edit touches. -/
theorem region_start_le (texts : List Text) (cut : Cut) : (region texts cut).start ≤ cut.first := by
  unfold region
  dsimp only
  split_ifs
  · exact Nat.le_refl _
  · exact backUp_le _ _ _

theorem region_le {texts : List Text} {cut : Cut} (hfirst : cut.first ≤ cut.resume)
    (hresume : cut.resume ≤ texts.length) :
    (region texts cut).start + (region texts cut).replaced ≤ texts.length := by
  have hstart := region_start_le texts cut
  unfold region at hstart ⊢
  dsimp only at hstart ⊢
  generalize Lexer.pushAll {} _ = lexer
  have htaken := lexOn_le lexer (texts.drop cut.resume)
  rw [List.length_drop] at htaken
  omega

variable {tokens : TokenSequence}

theorem rank_next_locate (h : tokens.Sound Token.codepointSummary) (offset : Nat) :
    tokens.rank (TokenSequence.locate tokens offset) ≤
        tokens.rank (tokens.next (TokenSequence.locate tokens offset)) ∧
      tokens.rank (tokens.next (TokenSequence.locate tokens offset)) ≤ tokens.entries.length := by
  have hle : holding (TokenSequence.lengths tokens) offset ≤ tokens.entries.length := by
    simpa [TokenSequence.lengths] using holding_le (TokenSequence.lengths tokens) offset
  rw [TokenSequence.locate_eq h]
  generalize holding (TokenSequence.lengths tokens) offset = rank at hle
  rcases Nat.lt_or_ge rank tokens.entries.length with hlt | hge
  · rw [h.next_nth hlt, h.rank_nth hle, h.rank_nth hlt]
    omega
  · obtain rfl : rank = tokens.entries.length := by omega
    have hnone : tokens.nth tokens.entries.length = none := by
      rw [h.nth_eq, List.getElem?_eq_none (by simp)]
    rw [hnone]
    exact ⟨Nat.le_refl _, h.rank_none.le⟩

theorem cut_le (h : tokens.Sound Token.codepointSummary) (vocabulary : Vocabulary) (edit : Edit) :
    (cut tokens vocabulary edit).first ≤ (cut tokens vocabulary edit).resume ∧
      (cut tokens vocabulary edit).resume ≤ tokens.entries.length := by
  have hnext := rank_next_locate h
  have hrank := TokenSequence.rank_locate h
  have hlength := (hnext edit.lo).1.trans (hnext edit.lo).2
  unfold cut
  dsimp only
  split_ifs with hinside hrange
  · refine ⟨?_, (hnext _).2⟩
    refine le_trans ?_ (hnext (edit.hi - 1)).1
    rw [hrank, hrank]
    exact holding_mono _ (by omega)
  · exact hnext edit.lo
  · exact ⟨Nat.le_refl _, hlength⟩

/-- What is lexed again for an edit takes the place of tokens that are there. -/
theorem region_cut_le (h : tokens.Sound Token.codepointSummary) (vocabulary : Vocabulary) (edit : Edit) :
    let done := region (TokenSequence.spellings tokens vocabulary) (cut tokens vocabulary edit)
    done.start + done.replaced ≤ tokens.entries.length := by
  have hspellings : (TokenSequence.spellings tokens vocabulary).length = tokens.entries.length := by
    rw [TokenSequence.spellings, List.length_map, Sequence.length_toList]
  obtain ⟨hfirst, hresume⟩ := cut_le h vocabulary edit
  exact hspellings ▸ region_le hfirst (hspellings ▸ hresume)

end Relex

namespace RelexPlan

variable {tokens : TokenSequence}

/-- A plan is made for an edit that fits, and is the region of its cut, by positions. -/
theorem eq_of_make {vocabulary : Vocabulary} {edit : Edit} {plan : RelexPlan}
    (hplan : make tokens vocabulary edit = .ok (some plan)) :
    edit.lo ≤ edit.hi ∧ edit.hi ≤ tokens.total.codepoints ∧
      let region := Relex.region (TokenSequence.spellings tokens vocabulary)
        (Relex.cut tokens vocabulary edit)
      plan = ⟨tokens.nth region.start, region.replaced, region.lexemes,
        TokenSequence.stateBefore tokens (tokens.nth region.start),
        TokenSequence.stateBefore tokens (tokens.nth (region.start + region.replaced))⟩ := by
  unfold make at hplan
  dsimp only at hplan
  split_ifs at hplan with hrange
  · injection hplan with hplan
    cases hplan
  exact ⟨by omega, by omega, (Option.some.inj (Except.ok.inj hplan)).symm⟩

/-- No plan is made for an edit that fits only if it changes nothing. -/
theorem of_make_none {vocabulary : Vocabulary} {edit : Edit}
    (hplan : make tokens vocabulary edit = .ok none) :
    edit.lo ≤ edit.hi ∧ edit.hi ≤ tokens.total.codepoints ∧ edit.isEmpty = true := by
  unfold make at hplan
  dsimp only at hplan
  split_ifs at hplan with hrange hempty
  · exact ⟨by omega, by omega, hempty⟩
  · injection hplan with hplan
    cases hplan

/-- An edit is refused only if it does not fit. -/
theorem of_make_error {vocabulary : Vocabulary} {edit : Edit} {error : EditOutOfRange}
    (hplan : make tokens vocabulary edit = .error error) :
    ¬(edit.lo ≤ edit.hi ∧ edit.hi ≤ tokens.total.codepoints) := by
  unfold make at hplan
  dsimp only at hplan
  split_ifs at hplan with hrange
  omega

/-- A plan is made for a row of tokens that are there, with the states on its two sides. -/
theorem make_eq_some (h : ∀ S, tokens.Sound S) {vocabulary : Vocabulary} {edit : Edit}
    {plan : RelexPlan} (hplan : make tokens vocabulary edit = .ok (some plan)) :
    ∃ start, start + plan.replaced ≤ tokens.entries.length ∧ plan.start = tokens.nth start ∧
      plan.before = TokenSequence.stateBefore tokens (tokens.nth start) ∧
      plan.oldAfter = TokenSequence.stateBefore tokens (tokens.nth (start + plan.replaced)) := by
  obtain ⟨-, -, rfl⟩ := eq_of_make hplan
  exact ⟨_, Relex.region_cut_le (h _) vocabulary edit, rfl, rfl, rfl⟩

end RelexPlan

end LiveProse
