import LiveProse.Grammar.Grammar
import Mathlib.Logic.Relation
import Mathlib.Tactic.ByContra

/-! What can begin what. A production can begin a nonterminal if the nonterminal accepts its result,
or if it can begin a left corner of such a production. Two grammars that differ in one production agree
on everything that does not depend on it. -/

namespace LiveProse

namespace Grammar

open Relation

variable (grammar : Grammar)

/-- A defined production has a result that satisfies a requirement. -/
def Accepts (wanted : Nonterminal) (id : ProductionId) : Prop :=
  ∃ production, grammar.get? id = some production ∧ wanted.accepts production.result = true

/-- The second production can stand in a left corner of the first. -/
def Leads (id other : ProductionId) : Prop :=
  ∃ production corner, grammar.get? id = some production ∧ corner ∈ production.leftCorners ∧
    grammar.Accepts corner other

/-- A production can begin a match of a nonterminal, directly or through others. -/
def Begins (wanted : Nonterminal) (id : ProductionId) : Prop :=
  ∃ first, grammar.Accepts wanted first ∧ ReflTransGen grammar.Leads first id

/-- A production can begin a match of another, through one of its left corners. -/
def Descends (production : Production) (id : ProductionId) : Prop :=
  ∃ corner ∈ production.leftCorners, grammar.Begins corner id

/-- A production can begin a sentence or a passage. -/
def BeginsSentence (id : ProductionId) : Prop :=
  ∃ first production, grammar.get? first = some production ∧ production.endsSentences = true ∧
    ReflTransGen grammar.Leads first id

/-- A slot of a defined production asks for a nonterminal. -/
def Wants (wanted : Nonterminal) : Prop :=
  ∃ id production slot, grammar.get? id = some production ∧ slot ∈ production.slots ∧
    wanted ∈ slot.needs

variable {grammar}

theorem Accepts.isSome {wanted : Nonterminal} {id : ProductionId}
    (h : grammar.Accepts wanted id) : (grammar.get? id).isSome = true := by
  obtain ⟨production, hget, -⟩ := h
  rw [hget]
  rfl

theorem isSome_of_leads {id other : ProductionId} (hid : (grammar.get? id).isSome = true)
    (h : ReflTransGen grammar.Leads id other) : (grammar.get? other).isSome = true := by
  cases h with
  | refl => exact hid
  | tail _ hlast =>
    obtain ⟨_, _, _, _, haccepts⟩ := hlast
    exact haccepts.isSome

theorem Begins.isSome {wanted : Nonterminal} {id : ProductionId} (h : grammar.Begins wanted id) :
    (grammar.get? id).isSome = true := by
  obtain ⟨first, haccepts, hleads⟩ := h
  exact isSome_of_leads haccepts.isSome hleads

theorem leads_iff_descends {id other : ProductionId} {production : Production}
    (hget : grammar.get? id = some production) :
    ReflTransGen grammar.Leads id other ↔ other = id ∨ grammar.Descends production other := by
  rw [ReflTransGen.cases_head_iff, eq_comm]
  refine or_congr_right ⟨?_, ?_⟩
  · rintro ⟨first, ⟨production', corner, hget', hcorner, haccepts⟩, hleads⟩
    rw [hget, Option.some.injEq] at hget'
    subst hget'
    exact ⟨corner, hcorner, first, haccepts, hleads⟩
  · rintro ⟨corner, hcorner, first, haccepts, hleads⟩
    exact ⟨first, ⟨production, corner, hget, hcorner, haccepts⟩, hleads⟩

theorem get?_lt {id : ProductionId} (h : (grammar.get? id).isSome = true) :
    id.number < grammar.productions.length := by
  by_contra hlt
  rw [get?, List.getElem?_eq_none (Nat.le_of_not_lt hlt)] at h
  cases h

theorem mem_toList {id : ProductionId} {production : Production} :
    (id, production) ∈ grammar.toList ↔ grammar.get? id = some production := by
  simp only [toList, get?, List.mem_filterMap, Prod.exists, List.mem_zipIdx_iff_getElem?,
    Option.map_eq_some_iff, Prod.mk.injEq, Option.join_eq_some_iff]
  constructor
  · rintro ⟨entry, number, hentry, production, rfl, rfl, rfl⟩
    exact hentry
  · intro h
    exact ⟨some production, id.number, h, production, rfl, rfl, rfl⟩

/-! ### One production more or less -/

/-- The second grammar has one production more. -/
structure Extends (grammar more : Grammar) (id : ProductionId) (production : Production) : Prop where
  undefined : grammar.get? id = none
  defined : more.get? id = some production
  others : ∀ other, other ≠ id → more.get? other = grammar.get? other

variable {more : Grammar} {new id : ProductionId} {production : Production}

theorem Extends.get?_more_iff (h : Extends grammar more new production) {p : Production} :
    more.get? id = some p ↔ (id = new ∧ p = production) ∨ grammar.get? id = some p := by
  by_cases hid : id = new
  · rw [hid, h.defined, h.undefined]
    simp [eq_comm]
  · rw [h.others id hid]
    simp [hid]

theorem Extends.get?_iff (h : Extends grammar more new production) {p : Production} :
    grammar.get? id = some p ↔ id ≠ new ∧ more.get? id = some p := by
  by_cases hid : id = new
  · rw [hid, h.undefined]
    simp
  · rw [h.others id hid]
    simp [hid]

theorem Extends.get?_mono (h : Extends grammar more new production) {p : Production}
    (hget : grammar.get? id = some p) : more.get? id = some p :=
  h.get?_more_iff.2 (.inr hget)

theorem Extends.accepts_mono (h : Extends grammar more new production) {wanted : Nonterminal}
    (haccepts : grammar.Accepts wanted id) : more.Accepts wanted id := by
  obtain ⟨p, hget, hresult⟩ := haccepts
  exact ⟨p, h.get?_mono hget, hresult⟩

theorem Extends.leads_mono (h : Extends grammar more new production) {other : ProductionId}
    (hleads : ReflTransGen grammar.Leads id other) : ReflTransGen more.Leads id other := by
  refine ReflTransGen.mono (?_ : grammar.Leads ≤ more.Leads) _ _ hleads
  rintro a b ⟨p, corner, hget, hcorner, haccepts⟩
  exact ⟨p, corner, h.get?_mono hget, hcorner, h.accepts_mono haccepts⟩

theorem Extends.begins_mono (h : Extends grammar more new production) {wanted : Nonterminal}
    (hbegins : grammar.Begins wanted id) : more.Begins wanted id := by
  obtain ⟨first, haccepts, hleads⟩ := hbegins
  exact ⟨first, h.accepts_mono haccepts, h.leads_mono hleads⟩

theorem Extends.descends_mono (h : Extends grammar more new production) {p : Production}
    (hdescends : grammar.Descends p id) : more.Descends p id := by
  obtain ⟨corner, hcorner, hbegins⟩ := hdescends
  exact ⟨corner, hcorner, h.begins_mono hbegins⟩

theorem Extends.accepts_of_ne (h : Extends grammar more new production) {wanted : Nonterminal}
    (hne : id ≠ new) (haccepts : more.Accepts wanted id) : grammar.Accepts wanted id := by
  obtain ⟨p, hget, hresult⟩ := haccepts
  exact ⟨p, h.others id hne ▸ hget, hresult⟩

/-- A path that uses the new production ends at it or at something that can begin it. -/
theorem Extends.leads_cases (h : Extends grammar more new production) {first : ProductionId}
    (hleads : ReflTransGen more.Leads first id) :
    id = new ∨ grammar.Descends production id ∨
      first ≠ new ∧ ReflTransGen grammar.Leads first id := by
  induction hleads with
  | refl =>
    by_cases hfirst : first = new
    · exact .inl hfirst
    · exact .inr (.inr ⟨hfirst, .refl⟩)
  | @tail b c _ hlast ih =>
    by_cases hc : c = new
    · exact .inl hc
    obtain ⟨p, corner, hget, hcorner, haccepts⟩ := hlast
    have haccepts := h.accepts_of_ne hc haccepts
    by_cases hb : b = new
    · rw [hb, h.defined, Option.some.injEq] at hget
      exact .inr (.inl ⟨corner, hget ▸ hcorner, c, haccepts, .refl⟩)
    · have hstep : grammar.Leads b c := ⟨p, corner, h.others b hb ▸ hget, hcorner, haccepts⟩
      rcases ih with ih | ⟨corner', hcorner', origin, haccepts', hleads⟩ | ⟨hfirst, hleads⟩
      · exact absurd ih hb
      · exact .inr (.inl ⟨corner', hcorner', origin, haccepts', hleads.tail hstep⟩)
      · exact .inr (.inr ⟨hfirst, hleads.tail hstep⟩)

/-- What neither is the new production nor can begin it begins the same nonterminals as before. -/
theorem Extends.begins_iff (h : Extends grammar more new production) (hnew : id ≠ new)
    (hnot : ¬grammar.Descends production id) {wanted : Nonterminal} :
    more.Begins wanted id ↔ grammar.Begins wanted id := by
  refine ⟨?_, h.begins_mono⟩
  rintro ⟨first, haccepts, hleads⟩
  rcases h.leads_cases hleads with heq | hdescends | ⟨hfirst, hleads⟩
  · exact absurd heq hnew
  · exact absurd hdescends hnot
  · exact ⟨first, h.accepts_of_ne hfirst haccepts, hleads⟩

theorem Extends.beginsSentence_iff (h : Extends grammar more new production) (hnew : id ≠ new)
    (hnot : ¬grammar.Descends production id) : more.BeginsSentence id ↔ grammar.BeginsSentence id := by
  constructor
  · rintro ⟨first, p, hget, hends, hleads⟩
    rcases h.leads_cases hleads with heq | hdescends | ⟨hfirst, hleads⟩
    · exact absurd heq hnew
    · exact absurd hdescends hnot
    · exact ⟨first, p, h.others first hfirst ▸ hget, hends, hleads⟩
  · rintro ⟨first, p, hget, hends, hleads⟩
    exact ⟨first, p, h.get?_mono hget, hends, h.leads_mono hleads⟩

end Grammar

end LiveProse
