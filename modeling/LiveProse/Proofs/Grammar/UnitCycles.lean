import LiveProse.Grammar.Grammar
import LiveProse.Proofs.Grammar.DepthFirst
import LiveProse.Proofs.Store.Contents
import Mathlib.Data.List.Permutation

/-! The search for unit cycles finds one exactly if there is one. The vertices of the unit graph are
names; its edges are those of single productions (`Production.Passes`), and the search follows all of
them, because each leads from a root. -/

namespace LiveProse

open Relation

/-- The production can turn a name into its result without taking in anything else: some slot asks for
the name, and all its siblings may be skipped. -/
def Production.Passes (production : Production) (target : Word) : Prop :=
  ∃ (index : ℕ) (slot : Slot), production.slots[index]? = some slot ∧
    (∀ (other : ℕ) (sibling : Slot), other ≠ index → production.slots[other]? = some sibling →
      sibling.optional = true) ∧
    ∃ wanted ∈ slot.needs, wanted.name = target

theorem Production.mem_unitTargets_iff {production : Production} {target : Word} :
    target ∈ production.unitTargets ↔ production.Passes target := by
  have hsiblings (index : ℕ) : (production.slots.eraseIdx index).all (·.optional) = true ↔
      ∀ (other : ℕ) (sibling : Slot), other ≠ index → production.slots[other]? = some sibling →
        sibling.optional = true := by
    simp only [List.all_eq_true, List.mem_eraseIdx_iff_getElem?]
    exact ⟨fun h other sibling hne hget => h sibling ⟨other, hne, hget⟩,
      fun h sibling ⟨other, hne, hget⟩ => h other sibling hne hget⟩
  simp only [unitTargets, List.mem_flatMap, List.mem_range, List.mem_ite_nil_right, hsiblings]
  constructor
  · rintro ⟨index, hindex, hskipped, hmem⟩
    have hslot : production.slots[index]? = some production.slots[index] := List.getElem?_eq_getElem hindex
    rw [hslot] at hmem
    exact ⟨index, _, hslot, hskipped, List.mem_map.1 hmem⟩
  · rintro ⟨index, slot, hslot, hskipped, hneeds⟩
    refine ⟨index, (List.getElem?_eq_some_iff.1 hslot).1, hskipped, ?_⟩
    rw [hslot]
    exact List.mem_map.2 hneeds

namespace UnitCycle

/-- The edges of the unit graph: from the result of a production to what it can turn into it by
itself. -/
def Edge (productions : List Production) (name target : Word) : Prop :=
  ∃ production ∈ productions, production.result.name = name ∧ production.Passes target

variable {productions : List Production} {name target : Word}

theorem mem_edges : (name, target) ∈ (edges productions).pairs ↔
    ∃ production ∈ productions, production.result.name = name ∧
      target ∈ production.unitTargets := by
  have hfold : ∀ index : PairIndex Word Word,
      (name, target) ∈ (productions.foldl (fun index production =>
        production.unitTargets.foldl (·.insert production.result.name ·) index) index).pairs ↔
        (∃ production ∈ productions, production.result.name = name ∧
          target ∈ production.unitTargets) ∨ (name, target) ∈ index.pairs := by
    induction productions with
    | nil => simp
    | cons production productions ih =>
      intro index
      rw [List.foldl_cons, ih,
        PairIndex.mem_insertAll (fun _ => production.result.name) (fun word => word)]
      simp only [Prod.mk.injEq, List.mem_cons, exists_eq_or_imp]
      constructor
      · rintro (h | ⟨word, hword, hname, rfl⟩ | h)
        · exact .inl (.inr h)
        · exact .inl (.inl ⟨hname.symm, hword⟩)
        · exact .inr h
      · rintro ((⟨hname, htarget⟩ | h) | h)
        · exact .inr (.inl ⟨target, htarget, hname.symm, rfl⟩)
        · exact .inl h
        · exact .inr (.inr h)
  rw [edges, hfold]
  simp

theorem mem_get_edges : target ∈ (edges productions).get name ↔ Edge productions name target := by
  simp only [PairIndex.mem_get, mem_edges, Edge, Production.mem_unitTargets_iff]

/-- Every name that an edge leads from is a root. -/
theorem mem_roots_of_edge {edges : PairIndex Word Word} (h : target ∈ edges.get name) :
    name ∈ roots edges := by
  rw [roots, List.mem_mergeSort, PairIndex.keys, List.mem_eraseDups]
  exact List.mem_map.2 ⟨(name, target), PairIndex.mem_get.1 h, rfl⟩

theorem ends_exploreAll (edges : PairIndex Word Word) :
    Ends edges.get (roots edges) (exploreAll edges) :=
  ends_explore (fun _ => Nat.le_refl _) (roots edges)

/-- If no cycle is found, the names have an order that every edge goes down. -/
theorem exists_ordered_of_find?_eq_none (h : find? productions = none) :
    ∃ done, Ordered (edges productions).get done ∧
      ∀ a b, b ∈ (edges productions).get a → a ∈ done := by
  have hends := ends_exploreAll (edges productions)
  unfold find? at h
  generalize exploreAll (edges productions) = answer at h hends
  cases hends with
  | finished hsound _ hdone =>
    exact ⟨_, hsound.ordered, fun a b hedge => hdone (mem_roots_of_edge hedge)⟩
  | cycle => cases h

/-- The name that is found lies on a cycle. -/
theorem transGen_of_find?_eq_some (h : find? productions = some name) :
    TransGen (Edge productions) name name := by
  have hends := ends_exploreAll (edges productions)
  unfold find? at h
  generalize exploreAll (edges productions) = answer at h hends
  cases hends with
  | finished => cases h
  | cycle hcycle =>
    obtain rfl := Option.some.inj h
    exact TransGen.mono (fun _ _ => mem_get_edges.1) _ _ hcycle

theorem find?_isSome_iff : (find? productions).isSome = true ↔
    ∃ name, TransGen (Edge productions) name name := by
  constructor
  · intro h
    obtain ⟨name, hname⟩ := Option.isSome_iff_exists.1 h
    exact ⟨name, transGen_of_find?_eq_some hname⟩
  · rintro ⟨name, hcycle⟩
    by_contra hnone
    obtain ⟨done, hordered, hall⟩ := exists_ordered_of_find?_eq_none (Option.not_isSome_iff_eq_none.1 hnone)
    exact hordered.acyclic hall (TransGen.mono (fun _ _ => mem_get_edges.2) _ _ hcycle)

end UnitCycle

namespace Grammar

/-- When a production is about to be added to a grammar, the search for unit cycles ends of itself. It
finds a name exactly if the unit graph of the defined productions and the new one has a cycle, and the
name lies on one; and a production with which nothing else is wrong is accepted exactly if there is no
cycle. -/
theorem unitCycle_exact (grammar : Grammar) (production : Production) (vocabulary : Vocabulary) :
    let productions := grammar.toList.map (·.2) ++ [production]
    UnitCycle.exploreAll (UnitCycle.edges productions) ≠ .error .exhausted ∧
    ((UnitCycle.find? productions).isSome = true ↔
      ∃ name, TransGen (UnitCycle.Edge productions) name name) ∧
    (∀ name, UnitCycle.find? productions = some name →
      TransGen (UnitCycle.Edge productions) name name) ∧
    (production.slots ≠ [] → (∀ slot ∈ production.slots, slot.isEmpty = false) →
      production.hasContent = true → grammar.find? production = none →
      (grammar.validate production vocabulary = .ok () ↔
        ¬∃ name, TransGen (UnitCycle.Edge productions) name name)) := by
  intro productions
  refine ⟨?_, UnitCycle.find?_isSome_iff, fun name => UnitCycle.transGen_of_find?_eq_some, ?_⟩
  · intro hexhausted
    have hends := UnitCycle.ends_exploreAll (UnitCycle.edges productions)
    rw [hexhausted] at hends
    cases hends
  · intro hslots hfilled hcontent hnew
    have hempty : production.slots.isEmpty = false := by simpa using hslots
    have hnone : production.slots.findIdx? (·.isEmpty) = none := List.findIdx?_eq_none_iff.2 hfilled
    rw [← UnitCycle.find?_isSome_iff, validate, hempty, hnone, hcontent, hnew]
    dsimp only
    generalize UnitCycle.find? productions = found
    cases found <;> simp

/-- Animals may be dogs; then a cat may be an animal, but a dog may not. -/
theorem unitCycle_exact_dogs :
    let dogs : Production := ⟨.subsentence, ⟨⟨0⟩, 0⟩, [.ofList [.nonterminal ⟨⟨1⟩, 0⟩]]⟩
    let cats : Production := ⟨.subsentence, ⟨⟨2⟩, 0⟩, [.ofList [.nonterminal ⟨⟨0⟩, 0⟩]]⟩
    let back : Production := ⟨.subsentence, ⟨⟨1⟩, 0⟩, [.ofList [.nonterminal ⟨⟨0⟩, 3⟩]]⟩
    let grammar := (define {} dogs).1
    grammar.validate cats {} = .ok () ∧
      (¬∃ name, TransGen (UnitCycle.Edge [dogs, cats]) name name) ∧
      UnitCycle.find? [dogs, back] = some ⟨0⟩ ∧
      TransGen (UnitCycle.Edge [dogs, back]) ⟨0⟩ ⟨0⟩ := by
  intro dogs cats back grammar
  have hcats := unitCycle_exact grammar cats {}
  have hback := unitCycle_exact grammar back {}
  have hvalid : grammar.validate cats {} = .ok () := by cbv
  have hfound : UnitCycle.find? [dogs, back] = some ⟨0⟩ := by cbv
  refine ⟨hvalid, ?_, hfound, hback.2.2.1 _ hfound⟩
  exact (hcats.2.2.2 (by decide) (by decide) (by decide) (by decide +kernel)).1 hvalid

end Grammar

end LiveProse
