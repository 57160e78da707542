import LiveProse.Proofs.Grammar.Closing

/-! The indices of a grammar say what they are meant to, and go on doing so whatever is defined and
undefined. -/

namespace LiveProse

namespace Grammar

/-- The keys of what a production can begin with. -/
def beginningKeys (production : Production) : List ParsemeKey :=
  production.beginnings.filterMap (·.key?)

/-- The indices over single productions file every defined production and nothing else. -/
structure Filed (grammar : Grammar) : Prop where
  nodup_beginnings : grammar.byBeginning.pairs.Nodup
  mem_beginnings : ∀ key id, (key, id) ∈ grammar.byBeginning.pairs ↔
    ∃ production, grammar.get? id = some production ∧ key ∈ beginningKeys production
  nodup_results : grammar.byResult.pairs.Nodup
  mem_results : grammar.FiledByResult

/-- All indices agree with the defined productions. -/
structure Indexed (grammar : Grammar) : Prop extends grammar.Filed where
  closures : ∀ wanted id, grammar.Wants wanted →
    (id ∈ grammar.additionalBeginnings wanted ↔ grammar.Begins wanted id)
  nodup_ancestors : grammar.ancestors.pairs.Nodup
  mem_ancestors : ∀ id wanted, (id, wanted) ∈ grammar.ancestors.pairs ↔
    grammar.Wants wanted ∧ grammar.Begins wanted id
  sentences : ∀ id, grammar.canBeginSentence id = true ↔ grammar.BeginsSentence id

variable {grammar : Grammar}

theorem lookup_map_self {α β : Type} [DecidableEq α] (f : α → β) {xs : List α} {x : α} (h : x ∈ xs) :
    (xs.map fun x => (x, f x)).lookup x = some (f x) := by
  induction xs with
  | nil => cases h
  | cons y xs ih =>
    by_cases hxy : x = y
    · simp [hxy]
    · have hne : (x == y) = false := by simpa using hxy
      rw [List.map_cons, List.lookup_cons, hne]
      exact ih ((List.mem_cons.1 h).resolve_left hxy)

theorem mem_foldl_closures {closures : List (Nonterminal × List ProductionId)}
    {index : PairIndex ProductionId Nonterminal} {id : ProductionId} {wanted : Nonterminal} :
    (id, wanted) ∈ (closures.foldl (fun index (wanted, closure) =>
        closure.foldl (·.insert · wanted) index) index).pairs ↔
      (∃ closure, (wanted, closure) ∈ closures ∧ id ∈ closure) ∨ (id, wanted) ∈ index.pairs := by
  induction closures generalizing index with
  | nil => simp
  | cons entry closures ih =>
    obtain ⟨other, closure⟩ := entry
    rw [List.foldl_cons, ih, PairIndex.mem_insertAll (fun id => id) (fun _ => other) closure]
    simp only [Prod.mk.injEq, List.mem_cons]
    constructor
    · rintro (⟨c, hc, hid⟩ | ⟨x, hx, rfl, rfl⟩ | h)
      · exact .inl ⟨c, .inr hc, hid⟩
      · exact .inl ⟨closure, .inl ⟨rfl, rfl⟩, hx⟩
      · exact .inr h
    · rintro (⟨c, ⟨rfl, rfl⟩ | hc, hid⟩ | h)
      · exact .inr (.inl ⟨id, hid, rfl, rfl⟩)
      · exact .inl ⟨c, hc, hid⟩
      · exact .inr (.inr h)

theorem nodup_foldl_closures {closures : List (Nonterminal × List ProductionId)}
    {index : PairIndex ProductionId Nonterminal} (h : index.pairs.Nodup) :
    (closures.foldl (fun index (wanted, closure) =>
      closure.foldl (·.insert · wanted) index) index).pairs.Nodup := by
  induction closures generalizing index with
  | nil => exact h
  | cons entry closures ih =>
    exact ih (PairIndex.nodup_insertAll (fun id => id) (fun _ => entry.1) entry.2 h)

/-- The nonterminals that the slots of the defined productions ask for. -/
theorem mem_wanted {wanted : Nonterminal} :
    wanted ∈ (grammar.toList.flatMap fun (_, production) =>
      production.slots.flatMap (·.needs)).eraseDups ↔ grammar.Wants wanted := by
  simp only [List.mem_eraseDups, List.mem_flatMap, Prod.exists, mem_toList, Wants]
  constructor
  · rintro ⟨id, production, hget, slot, hslot, hneeds⟩
    exact ⟨id, production, slot, hget, hslot, hneeds⟩
  · rintro ⟨id, production, slot, hget, hslot, hneeds⟩
    exact ⟨id, production, hget, slot, hslot, hneeds⟩

/-- Working out the other indices again makes them right. -/
theorem Filed.rebuild (h : grammar.Filed) : grammar.rebuild.Indexed := by
  have hclosure : ∀ wanted id, id ∈ grammar.closure [wanted] ↔ grammar.Begins wanted id := by
    intro wanted id
    simp [mem_closure h.mem_results]
  refine ⟨⟨h.1, h.2, h.3, h.4⟩, fun wanted id hwants => ?_, ?_, fun id wanted => ?_, fun id => ?_⟩
  · change id ∈ (List.lookup wanted (List.map (fun wanted => (wanted, grammar.closure [wanted]))
      _)).getD [] ↔ grammar.Begins wanted id
    have hwants : grammar.Wants wanted := hwants
    rw [lookup_map_self (fun wanted => grammar.closure [wanted]) (mem_wanted.2 hwants)]
    exact hclosure wanted id
  · exact nodup_foldl_closures List.nodup_nil
  · refine mem_foldl_closures.trans ?_
    change _ ↔ grammar.Wants wanted ∧ grammar.Begins wanted id
    simp only [List.mem_map, Prod.mk.injEq, List.not_mem_nil, or_false, mem_wanted]
    constructor
    · rintro ⟨-, ⟨w, hw, rfl, rfl⟩, hid⟩
      exact ⟨hw, (hclosure w id).1 hid⟩
    · rintro ⟨hwants, hbegins⟩
      exact ⟨_, ⟨wanted, hwants, rfl, rfl⟩, (hclosure wanted id).2 hbegins⟩
  · change (List.eraseDups _).contains id = true ↔ grammar.BeginsSentence id
    rw [List.contains_iff_mem, List.mem_eraseDups, List.mem_flatMap]
    constructor
    · rintro ⟨⟨first, production⟩, hmem, hid⟩
      have hget := mem_toList.1 hmem
      dsimp only at hid
      split_ifs at hid with hends
      · refine ⟨first, production, hget, hends, (leads_iff_descends hget).2 ?_⟩
        rwa [List.mem_cons, mem_leftCornerDescendants h.mem_results] at hid
      · cases hid
    · rintro ⟨first, production, hget, hends, hleads⟩
      refine ⟨(first, production), mem_toList.2 hget, ?_⟩
      dsimp only
      rw [if_pos hends, List.mem_cons, mem_leftCornerDescendants h.mem_results]
      exact (leads_iff_descends hget).1 hleads

theorem indexed_empty : ({} : Grammar).Indexed := by
  have hnone : ∀ id, ({} : Grammar).get? id = none := fun _ => rfl
  refine ⟨⟨List.nodup_nil, ?_, List.nodup_nil, ?_⟩, ?_, List.nodup_nil, ?_, ?_⟩
  · simp [hnone]
  · intro name id
    simp [hnone]
  · rintro wanted id ⟨first, production, slot, hget, -⟩
    cases hget
  · intro id wanted
    simp only [List.not_mem_nil, false_iff]
    rintro ⟨⟨first, production, slot, hget, -⟩, -⟩
    cases hget
  · intro id
    simp only [canBeginSentence, List.contains_nil, Bool.false_eq_true, false_iff]
    rintro ⟨first, production, hget, -⟩
    cases hget

/-! ### Defining -/

theorem define_extends (grammar : Grammar) (production : Production) :
    grammar.Extends (grammar.define production).1 (grammar.define production).2 production := by
  refine ⟨?_, ?_, fun other hother => ?_⟩
  · change (grammar.productions[grammar.productions.length]?).join = none
    rw [List.getElem?_eq_none (Nat.le_refl _)]
    rfl
  · change ((grammar.productions ++ [some production])[grammar.productions.length]?).join = _
    rw [List.getElem?_concat_length]
    rfl
  · change ((grammar.productions ++ [some production])[other.number]?).join = _
    have hne : other.number ≠ grammar.productions.length := by
      rintro heq
      exact hother (congrArg ProductionId.mk heq)
    rcases Nat.lt_or_ge other.number grammar.productions.length with hlt | hge
    · rw [List.getElem?_append_left hlt]
      rfl
    · rw [get?, List.getElem?_eq_none hge, List.getElem?_eq_none]
      rw [List.length_append, List.length_singleton]
      omega

theorem Filed.define (h : grammar.Filed) (production : Production) :
    (grammar.define production).1.Indexed := by
  have hget (id : ProductionId) (p : Production) :
      (grammar.define production).1.get? id = some p ↔
        (id = (grammar.define production).2 ∧ p = production) ∨ grammar.get? id = some p :=
    (define_extends grammar production).get?_more_iff
  refine Filed.rebuild ⟨?_, fun key id => ?_, ?_, fun name id => ?_⟩
  · exact PairIndex.nodup_insertAll (fun key => key) _ _ h.nodup_beginnings
  · refine (PairIndex.mem_insertAll (fun key => key) _ _).trans ?_
    change _ ↔ ∃ p, (grammar.define production).1.get? id = some p ∧ key ∈ beginningKeys p
    simp only [hget, h.mem_beginnings key id, Prod.mk.injEq]
    constructor
    · rintro (⟨k, hk, rfl, rfl⟩ | ⟨p, hp, hk⟩)
      · exact ⟨production, .inl ⟨rfl, rfl⟩, hk⟩
      · exact ⟨p, .inr hp, hk⟩
    · rintro ⟨p, ⟨rfl, rfl⟩ | hp, hk⟩
      · exact .inl ⟨key, hk, rfl, rfl⟩
      · exact .inr ⟨p, hp, hk⟩
  · exact PairIndex.nodup_insert h.nodup_results _ _
  · refine PairIndex.mem_insert.trans ?_
    change _ ↔ ∃ p, (grammar.define production).1.get? id = some p ∧ p.result.name = name
    simp only [hget, h.mem_results name id, Prod.mk.injEq]
    constructor
    · rintro (⟨rfl, rfl⟩ | ⟨p, hp, hname⟩)
      · exact ⟨production, .inl ⟨rfl, rfl⟩, rfl⟩
      · exact ⟨p, .inr hp, hname⟩
    · rintro ⟨p, ⟨rfl, rfl⟩ | hp, hname⟩
      · exact .inl ⟨hname.symm, rfl⟩
      · exact .inr ⟨p, hp, hname⟩

/-! ### Undefining -/

/-- The grammar without a production, its other indices as they were. -/
def without (grammar : Grammar) (id : ProductionId) (production : Production) : Grammar :=
  { grammar with
    productions := grammar.productions.set id.number none
    ids := grammar.ids.remove production id
    byBeginning := (beginningKeys production).foldl (·.remove · id) grammar.byBeginning
    byResult := grammar.byResult.remove production.result.name id }

variable {id : ProductionId} {production : Production}

theorem undefine_eq (h : grammar.get? id = some production) :
    grammar.undefine id = .ok ((grammar.without id production).rebuild, production) := by
  rw [undefine, h]
  rfl

theorem of_undefine {less : Grammar} (h : grammar.undefine id = .ok (less, production)) :
    grammar.get? id = some production ∧ less = (grammar.without id production).rebuild := by
  cases hget : grammar.get? id with
  | none =>
    rw [undefine, hget] at h
    cases h
  | some found =>
    rw [undefine_eq hget] at h
    obtain ⟨hless, rfl⟩ := Prod.mk.inj (Except.ok.inj h)
    exact ⟨rfl, hless.symm⟩

theorem without_extends (h : grammar.get? id = some production) :
    (grammar.without id production).rebuild.Extends grammar id production := by
  have hlt : id.number < grammar.productions.length := get?_lt (by rw [h]; rfl)
  refine ⟨?_, h, fun other hother => ?_⟩
  · change ((grammar.productions.set id.number none)[id.number]?).join = none
    rw [List.getElem?_set_self hlt]
    rfl
  · change _ = ((grammar.productions.set id.number none)[other.number]?).join
    rw [List.getElem?_set_ne]
    · rfl
    · intro heq
      exact hother (congrArg ProductionId.mk heq.symm)

theorem Filed.without (h : grammar.Filed) (hid : grammar.get? id = some production) :
    (grammar.without id production).rebuild.Indexed := by
  have hget : ∀ other p, (grammar.without id production).get? other = some p ↔
      other ≠ id ∧ grammar.get? other = some p := fun _ _ => (without_extends hid).get?_iff
  refine Filed.rebuild ⟨?_, fun key other => ?_, ?_, fun name other => ?_⟩
  · exact PairIndex.nodup_removeAll (fun key => key) (fun _ => id) _ h.nodup_beginnings
  · refine (PairIndex.mem_removeAll (fun key => key) (fun _ => id) _ h.nodup_beginnings).trans ?_
    simp only [hget, h.mem_beginnings key other, ne_eq, Prod.mk.injEq, not_and]
    constructor
    · rintro ⟨hnot, p, hp, hkey⟩
      refine ⟨p, ⟨fun heq => ?_, hp⟩, hkey⟩
      rw [heq, hid, Option.some.injEq] at hp
      exact hnot key (hp ▸ hkey) rfl heq
    · rintro ⟨p, ⟨hother, hp⟩, hkey⟩
      exact ⟨fun _ _ _ heq => hother heq, p, hp, hkey⟩
  · exact PairIndex.nodup_remove h.nodup_results _ _
  · refine (PairIndex.mem_remove h.nodup_results).trans ?_
    simp only [hget, h.mem_results name other, ne_eq, Prod.mk.injEq, not_and]
    constructor
    · rintro ⟨hnot, p, hp, hname⟩
      refine ⟨p, ⟨fun heq => ?_, hp⟩, hname⟩
      rw [heq, hid, Option.some.injEq] at hp
      exact hnot (hp ▸ hname.symm) heq
    · rintro ⟨p, ⟨hother, hp⟩, hname⟩
      exact ⟨fun _ heq => hother heq, p, hp, hname⟩

end Grammar

end LiveProse
