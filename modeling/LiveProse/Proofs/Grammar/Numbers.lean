import LiveProse.Proofs.Grammar.Indices

/-! Every defined production has one number: the check before a definition looks it up among the
numbers of all that are defined. -/

namespace LiveProse

namespace Grammar

/-- The index of numbers files exactly what is defined, and each production under one number. -/
structure Numbered (grammar : Grammar) : Prop where
  nodup : grammar.ids.pairs.Nodup
  mem : ∀ production id, (production, id) ∈ grammar.ids.pairs ↔ grammar.get? id = some production
  distinct : ∀ production id other, grammar.get? id = some production →
    grammar.get? other = some production → id = other

variable {grammar : Grammar} {id : ProductionId} {production : Production}

theorem numbered_empty : ({} : Grammar).Numbered := by
  refine ⟨List.nodup_nil, fun production id => ?_, fun production id other hget => ?_⟩
  · exact iff_of_false List.not_mem_nil (by rintro ⟨⟩)
  · cases hget

theorem get?_find?_eq_none_of_validate {vocabulary : Vocabulary}
    (h : grammar.validate production vocabulary = .ok ()) : grammar.find? production = none := by
  unfold validate at h
  repeat' split at h
  all_goals first
    | assumption
    | cases h

/-- A production that passes the checks has no number yet. -/
theorem Numbered.get?_ne_of_validate (h : grammar.Numbered) {vocabulary : Vocabulary}
    (hvalid : grammar.validate production vocabulary = .ok ()) (id : ProductionId) :
    grammar.get? id ≠ some production := by
  have hnone := List.head?_eq_none_iff.1 (get?_find?_eq_none_of_validate hvalid)
  intro hget
  have hmem := PairIndex.mem_get.2 ((h.mem production id).2 hget)
  rw [hnone] at hmem
  cases hmem

theorem Numbered.define (h : grammar.Numbered) {vocabulary : Vocabulary}
    (hvalid : grammar.validate production vocabulary = .ok ()) :
    (grammar.define production).1.Numbered := by
  refine ⟨PairIndex.nodup_insert h.nodup _ _, fun p id => ?_, fun p id other hid hother => ?_⟩
  · refine PairIndex.mem_insert.trans ?_
    rw [(define_extends grammar production).get?_more_iff, h.mem, Prod.mk.injEq, and_comm]
    rfl
  · rw [(define_extends grammar production).get?_more_iff] at hid hother
    rcases hid with ⟨rfl, rfl⟩ | hid <;> rcases hother with ⟨rfl, hp⟩ | hother
    · rfl
    · exact absurd hother (h.get?_ne_of_validate hvalid other)
    · exact absurd (hp ▸ hid) (h.get?_ne_of_validate hvalid id)
    · exact h.distinct p id other hid hother

theorem Numbered.without (h : grammar.Numbered) (hid : grammar.get? id = some production) :
    (grammar.without id production).rebuild.Numbered := by
  refine ⟨PairIndex.nodup_remove h.nodup _ _, fun p other => ?_, fun p a b ha hb => ?_⟩
  · refine (PairIndex.mem_remove h.nodup).trans ?_
    rw [(without_extends hid).get?_iff, h.mem, Ne, Prod.mk.injEq, not_and]
    refine and_congr_left fun hp => ⟨?_, fun hne _ heq => hne heq⟩
    rintro hne rfl
    rw [hid, Option.some.injEq] at hp
    exact hne hp.symm rfl
  · exact h.distinct p a b ((without_extends hid).get?_iff.1 ha).2
      ((without_extends hid).get?_iff.1 hb).2

end Grammar

end LiveProse
