import LiveProse.Proofs.Lexical.Walks
import LiveProse.Proofs.Relex.Tokens

/-! The rows of tokens on which an edit works: those in front of it, the ones that make way, the ones that
come, and those behind. Of these the leading ones are in another state now, as far as the old states and
the new ones differ. -/

namespace LiveProse

open TokenSequence

theorem Token.Spells.isSingle {vocabulary : Vocabulary} {token : Token} {lexeme : Lexeme}
    (h : Spells vocabulary token lexeme) : token.IsSingle := ⟨_, h.effect_eq⟩

theorem differingTokens_append (old new : LexicalState) (tokens : List (Handle × Token)) :
    ∃ back, tokens = differingTokens old new tokens ++ back := by
  induction tokens generalizing old new with
  | nil => exact ⟨[], rfl⟩
  | cons entry rest ih =>
    obtain ⟨handle, token⟩ := entry
    rw [differingTokens]
    split_ifs
    · exact ⟨_, rfl⟩
    · obtain ⟨back, hback⟩ := ih (token.stateAfter old) (token.stateAfter new)
      refine ⟨back, ?_⟩
      rw [List.cons_append, ← hback]

/-- Where the leading tokens end over which two states differ, the states have met. -/
theorem walk_differingTokens {back : List (Handle × Token)} (old new : LexicalState)
    (tokens : List (Handle × Token)) (h : tokens = differingTokens old new tokens ++ back)
    (hback : back ≠ []) :
    walk old ((differingTokens old new tokens).map (·.2)) =
      walk new ((differingTokens old new tokens).map (·.2)) := by
  induction tokens generalizing old new with
  | nil => exact absurd (List.append_eq_nil_iff.1 h.symm).2 hback
  | cons entry rest ih =>
    obtain ⟨handle, token⟩ := entry
    rw [differingTokens] at h ⊢
    split_ifs at h ⊢ with hsame
    · exact hsame
    · exact ih _ _ (List.cons.inj h).2

/-- The tokens of a sequence, read off two rows of its entries. -/
theorem toList_eq {tokens : TokenSequence} {front back : List (Handle × Token)}
    (h : tokens.entries = front ++ back) : tokens.toList = front.map (·.2) ++ back.map (·.2) := by
  rw [Sequence.toList, h, List.map_append]

namespace RelexPlan

/-- A plan that has been carried out, in rows of tokens. -/
structure Rows (plan : RelexPlan) (tokens : TokenSequence) (vocabulary : Vocabulary)
    (after : TokenSequence) (grown : Vocabulary) (outcome : RelexOutcome)
    (front doomed inserted kept : List (Handle × Token)) : Prop where
  sound : ∀ S, after.Sound S
  grows : vocabulary.texts <+: grown.texts
  entries : tokens.entries = front ++ (doomed ++ kept)
  entries_after : after.entries = front ++ (inserted ++ kept)
  length_doomed : doomed.length = plan.replaced
  handles : outcome.inserted = inserted.map (·.1)
  unnamed : ∀ entry ∈ inserted, entry.1 ∉ tokens.handles
  spells : List.Forall₂ (Token.Spells grown) (inserted.map (·.2)) plan.lexemes
  start_eq : outcome.start = after.nth front.length
  stop_eq : outcome.stop = after.nth (front.length + inserted.length)
  before_eq : outcome.before = plan.before
  oldAfter_eq : outcome.oldAfter = plan.oldAfter

theorem rows_apply {tokens : TokenSequence} (h : ∀ S, tokens.Sound S) {plan : RelexPlan} {start : ℕ}
    (hstart : plan.start = tokens.nth start) (hcount : start + plan.replaced ≤ tokens.entries.length)
    {vocabulary grown : Vocabulary} {after : TokenSequence} {outcome : RelexOutcome}
    (hafter : plan.apply tokens vocabulary = (after, grown, outcome)) :
    ∃ front doomed inserted kept, front.length = start ∧
      plan.Rows tokens vocabulary after grown outcome front doomed inserted kept := by
  obtain ⟨⟨more, hcarried⟩, hbefore, holdAfter⟩ := carried_apply h hstart hcount vocabulary hafter
  obtain ⟨front, hfront⟩ : ∃ front, tokens.entries.take start = front := ⟨_, rfl⟩
  obtain ⟨doomed, hdoomed⟩ : ∃ doomed,
    (tokens.entries.drop start).take plan.replaced = doomed := ⟨_, rfl⟩
  obtain ⟨inserted, hinserted⟩ : ∃ inserted, outcome.inserted.zip more = inserted := ⟨_, rfl⟩
  obtain ⟨kept, hkept⟩ : ∃ kept, tokens.entries.drop (start + plan.replaced) = kept := ⟨_, rfl⟩
  have hentries : tokens.entries = front ++ (doomed ++ kept) := by
    rw [← hfront, ← hdoomed, ← hkept, ← List.drop_drop, List.take_append_drop, List.take_append_drop]
  have hlength : front.length = start := by
    rw [← hfront, List.length_take]
    omega
  have hlengthDoomed : doomed.length = plan.replaced := by
    rw [← hdoomed, List.length_take, List.length_drop]
    omega
  have hlengthInserted : inserted.length = more.length := by
    rw [← hinserted, List.length_zip, hcarried.length_inserted, Nat.min_self]
  have hhandles : outcome.inserted = inserted.map (·.1) := by
    rw [← hinserted, List.map_fst_zip hcarried.length_inserted.le]
  refine ⟨front, doomed, inserted, kept, hlength, ⟨hcarried.sound, hcarried.grows, hentries, ?_,
    hlengthDoomed, hhandles, fun entry hentry => ?_, ?_, ?_, ?_, hbefore, holdAfter⟩⟩
  · rw [hcarried.entries, hfront, hinserted, hkept]
  · refine hcarried.fresh entry.1 ?_
    rw [hhandles]
    exact List.mem_map_of_mem hentry
  · rw [← hinserted, List.map_snd_zip hcarried.length_inserted.ge]
    exact hcarried.spells
  · rw [hlength, hcarried.start_eq]
  · rw [hlength, hlengthInserted, hcarried.stop_eq]

end RelexPlan

end LiveProse
