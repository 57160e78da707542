import LiveProse.Proofs.Grammar.Indices
import LiveProse.Proofs.Grammar.UnitCycles

/-! Where the search for unit cycles finds none, the names can be put in an order in which no
production turns a name into an earlier one by itself. -/

namespace LiveProse

namespace UnitCycle

/-- If no cycle is found, the names have an order that every unit edge goes down. -/
theorem exists_rank_of_find?_eq_none {productions : List Production} (h : find? productions = none) :
    ∃ rank : Word → ℕ, ∀ production ∈ productions, ∀ target ∈ production.unitTargets,
      rank target < rank production.result.name := by
  obtain ⟨done, hordered, hall⟩ := exists_ordered_of_find?_eq_none h
  refine ⟨done.reverse.idxOf, fun production hproduction target htarget => ?_⟩
  have hedge : target ∈ (edges productions).get production.result.name :=
    mem_get_edges.2 ⟨production, hproduction, rfl, Production.mem_unitTargets_iff.1 htarget⟩
  exact hordered.idxOf_lt (hall _ _ hedge) hedge

end UnitCycle

namespace Grammar

/-- Names rise from what productions take in alone to their results. -/
def Ranked (grammar : Grammar) (names : Word → ℕ) : Prop :=
  ∀ id production, grammar.get? id = some production →
    ∀ target ∈ production.unitTargets, names target < names production.result.name

/-- No production turns a name into one that comes before it. -/
def UnitOrdered (grammar : Grammar) : Prop :=
  ∃ names : Word → ℕ, grammar.Ranked names

variable {grammar more : Grammar} {id : ProductionId} {production : Production}

theorem unitOrdered_empty : ({} : Grammar).UnitOrdered :=
  ⟨fun _ => 0, fun _ _ hget => by cases hget⟩

theorem Extends.unitOrdered_of_more (h : Extends grammar more id production)
    (hmore : more.UnitOrdered) : grammar.UnitOrdered := by
  obtain ⟨rank, hrank⟩ := hmore
  exact ⟨rank, fun other p hget => hrank other p (h.get?_mono hget)⟩

theorem find?_eq_none_of_validate {vocabulary : Vocabulary}
    (h : grammar.validate production vocabulary = .ok ()) :
    UnitCycle.find? (grammar.toList.map (·.2) ++ [production]) = none := by
  unfold validate at h
  repeat' split at h
  all_goals first
    | assumption
    | cases h

/-- A production that passes the checks leaves the names in order. -/
theorem Extends.unitOrdered_of_validate (h : Extends grammar more id production)
    {vocabulary : Vocabulary} (hvalid : grammar.validate production vocabulary = .ok ()) :
    more.UnitOrdered := by
  obtain ⟨rank, hrank⟩ := UnitCycle.exists_rank_of_find?_eq_none (find?_eq_none_of_validate hvalid)
  refine ⟨rank, fun other p hget => hrank p ?_⟩
  by_cases hother : other = id
  · rw [hother, h.defined, Option.some.injEq] at hget
    rw [← hget]
    exact List.mem_append_right _ (List.mem_singleton_self _)
  · rw [h.others other hother] at hget
    exact List.mem_append_left _ (List.mem_map.2 ⟨(other, p), mem_toList.2 hget, rfl⟩)

/-- The grammars that come about when productions are defined that pass the checks, and others are
removed. -/
inductive Reached : Grammar → Prop
  | empty : Reached {}
  | define {grammar : Grammar} {production : Production} {vocabulary : Vocabulary} :
      Reached grammar → grammar.validate production vocabulary = .ok () →
        Reached (grammar.define production).1
  | undefine {grammar less : Grammar} {id : ProductionId} {production : Production} :
      Reached grammar → grammar.undefine id = .ok (less, production) → Reached less

theorem Reached.indexed (h : grammar.Reached) : grammar.Indexed := by
  induction h with
  | empty => exact indexed_empty
  | define _ _ ih => exact ih.toFiled.define _
  | undefine _ hundefine ih =>
    obtain ⟨hget, rfl⟩ := of_undefine hundefine
    exact ih.toFiled.without hget

/-- In every grammar that can come about the names are in order. -/
theorem Reached.unitOrdered (h : grammar.Reached) : grammar.UnitOrdered := by
  induction h with
  | empty => exact unitOrdered_empty
  | @define grammar production vocabulary _ hvalid _ =>
    exact (define_extends grammar production).unitOrdered_of_validate hvalid
  | undefine _ hundefine ih =>
    obtain ⟨hget, rfl⟩ := of_undefine hundefine
    exact (without_extends hget).unitOrdered_of_more ih

end Grammar

end LiveProse
