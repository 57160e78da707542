import LiveProse.Deduction.Engine
import Mathlib.Data.Set.Card
import Mathlib.Data.List.Nodup
import Mathlib.Order.CompletePartialOrder

/-! Derivations over a store of facts: which of them hold, which lead through a fact, what can be
derived at all, and lists of facts that go through a set of derivations one by one. -/

namespace LiveProse

/-- The facts are the conclusions of the derivations of a set, once for each derivation. -/
def Lists {φ δ : Type} (conclusion : δ → φ) (facts : List φ) (S : Set δ) : Prop :=
  ∃ ds : List δ, ds.Nodup ∧ (∀ d, d ∈ ds ↔ d ∈ S) ∧ ds.map conclusion = facts

namespace Lists

variable {φ δ α : Type} {conclusion : δ → φ} {facts more : List φ} {S T : Set δ}

theorem congr (h : Lists conclusion facts S) (hS : S = T) : Lists conclusion facts T :=
  hS ▸ h

theorem nil : Lists conclusion [] (∅ : Set δ) :=
  ⟨[], List.nodup_nil, by simp, rfl⟩

theorem single {f : φ} (d : δ) (h : conclusion d = f) : Lists conclusion [f] {d} :=
  ⟨[d], List.nodup_singleton d, by simp, by simp [h]⟩

theorem append (h : Lists conclusion facts S) (h' : Lists conclusion more T) (hST : Disjoint S T) :
    Lists conclusion (facts ++ more) (S ∪ T) := by
  obtain ⟨ds, hnodup, hmem, rfl⟩ := h
  obtain ⟨es, hnodup', hmem', rfl⟩ := h'
  refine ⟨ds ++ es, List.nodup_append'.2 ⟨hnodup, hnodup', ?_⟩, ?_, List.map_append⟩
  · intro d hd he
    exact Set.disjoint_left.1 hST ((hmem d).1 hd) ((hmem' d).1 he)
  · intro d
    rw [List.mem_append, hmem, hmem', Set.mem_union]

/-- A condition in front of a list is one more condition on its derivations. -/
theorem ite {p : Prop} [Decidable p] (h : p → Lists conclusion facts S) :
    Lists conclusion (if p then facts else []) {d | p ∧ d ∈ S} := by
  by_cases hp : p
  · rw [if_pos hp]
    exact (h hp).congr (by simp [hp])
  · rw [if_neg hp]
    exact nil.congr (by simp [hp])

/-- A list for each of some values. No derivation belongs to two of them. -/
theorem flatMap {xs : List α} {f : α → List φ} {S : α → Set δ} (hxs : xs.Nodup)
    (h : ∀ x ∈ xs, Lists conclusion (f x) (S x))
    (hdisjoint : ∀ x ∈ xs, ∀ y ∈ xs, ∀ d, d ∈ S x → d ∈ S y → x = y) :
    Lists conclusion (xs.flatMap f) {d | ∃ x ∈ xs, d ∈ S x} := by
  induction xs with
  | nil => exact nil.congr (by simp)
  | cons x xs ih =>
    obtain ⟨hx, hxs⟩ := List.nodup_cons.1 hxs
    have hhead := h x List.mem_cons_self
    have htail := ih hxs (fun y hy => h y (List.mem_cons_of_mem _ hy)) fun y hy z hz =>
      hdisjoint y (List.mem_cons_of_mem _ hy) z (List.mem_cons_of_mem _ hz)
    rw [List.flatMap_cons]
    refine (hhead.append htail ?_).congr ?_
    · rw [Set.disjoint_left]
      rintro d hd ⟨y, hy, hd'⟩
      exact hx (hdisjoint x List.mem_cons_self y (List.mem_cons_of_mem _ hy) d hd hd' ▸ hy)
    · ext d
      simp

/-- One fact for each of some values. -/
theorem map {xs : List α} {f : α → φ} (mk : α → δ) (hxs : xs.Nodup) (hmk : mk.Injective)
    (h : ∀ x, conclusion (mk x) = f x) : Lists conclusion (xs.map f) {d | ∃ x ∈ xs, d = mk x} := by
  refine ⟨xs.map mk, hxs.map hmk, ?_, ?_⟩
  · intro d
    simp [eq_comm]
  · rw [List.map_map]
    exact List.map_congr_left fun x _ => h x

/-- One fact for each of the values that satisfy a condition. -/
theorem filterMap {xs : List α} {f : α → φ} {p : α → Prop} [DecidablePred p] (mk : α → δ)
    (hxs : xs.Nodup) (hmk : mk.Injective) (h : ∀ x, conclusion (mk x) = f x) :
    Lists conclusion (xs.filterMap fun x => if p x then some (f x) else none)
      {d | ∃ x ∈ xs, p x ∧ d = mk x} := by
  have heq : (xs.filterMap fun x => if p x then some (f x) else none) =
      (xs.filter fun x => decide (p x)).map f := by
    induction xs with
    | nil => rfl
    | cons x xs ih =>
      have ih := ih (List.nodup_cons.1 hxs).2
      by_cases hx : p x <;> simp [hx, ih]
  rw [heq]
  refine (map mk (hxs.filter _) hmk h).congr ?_
  ext d
  simp [and_assoc]

/-- How often a fact is listed is the number of derivations that conclude it. -/
theorem encard_eq [DecidableEq φ] (h : Lists conclusion facts S) (f : φ) :
    {d | d ∈ S ∧ conclusion d = f}.encard = facts.count f := by
  classical
  obtain ⟨ds, hnodup, hmem, rfl⟩ := h
  have hset : {d | d ∈ S ∧ conclusion d = f} =
      ((ds.filter fun d => conclusion d = f).toFinset : Set δ) := by
    ext d
    simp [hmem]
  rw [hset, Set.encard_coe_eq_coe_finsetCard, List.toFinset_card_of_nodup (hnodup.filter _),
    ← List.countP_eq_length_filter, List.count, List.countP_map]
  rfl

theorem encard_eq_length (h : Lists conclusion facts S) : S.encard = facts.length := by
  classical
  obtain ⟨ds, hnodup, hmem, rfl⟩ := h
  have hset : S = (ds.toFinset : Set δ) := by
    ext d
    simp [hmem]
  rw [hset, Set.encard_coe_eq_coe_finsetCard, List.toFinset_card_of_nodup hnodup, List.length_map]

theorem mem_facts (h : Lists conclusion facts S) {f : φ} (hf : f ∈ facts) :
    ∃ d ∈ S, conclusion d = f := by
  obtain ⟨ds, -, hmem, rfl⟩ := h
  obtain ⟨d, hd, rfl⟩ := List.mem_map.1 hf
  exact ⟨d, (hmem d).1 hd, rfl⟩

end Lists

/-- The ways in which the facts of a store follow from one another. Which there are, and what their
antecedents are, may depend on what the store knows besides facts. -/
structure Calculus (σ φ δ : Type) where
  conclusion : δ → φ
  antecedents : σ → δ → List φ
  Applies : σ → δ → Prop

namespace Calculus

variable {σ φ δ : Type} [Deductive σ φ] (c : Calculus σ φ δ)

/-- All antecedents of a derivation hold. -/
def Holding (store : σ) (d : δ) : Prop :=
  c.Applies store d ∧ ∀ a ∈ c.antecedents store d, Deductive.holds store a = true

/-- The derivations of a fact that hold. -/
def support (store : σ) (fact : φ) : Set δ :=
  {d | c.conclusion d = fact ∧ c.Holding store d}

/-- The derivations that have a fact among their antecedents and would hold if it did. -/
def through (store : σ) (fact : φ) : Set δ :=
  {d | c.Applies store d ∧ fact ∈ c.antecedents store d ∧
    ∀ a ∈ c.antecedents store d, a = fact ∨ Deductive.holds store a = true}

/-- The least set of facts that contains the observed ones and is closed under derivations. -/
inductive Derivable (store : σ) : φ → Prop
  | observed {fact : φ} : Deductive.kind store fact ≠ .deduction →
      Deductive.holds store fact = true → Derivable store fact
  | derived {d : δ} : c.Applies store d → (∀ a ∈ c.antecedents store d, Derivable store a) →
      Derivable store (c.conclusion d)

/-- Stores with the same derivations that agree on all facts but one. -/
structure AgreeBut (s t : σ) (fact : φ) : Prop where
  applies : c.Applies s = c.Applies t
  antecedents : c.antecedents s = c.antecedents t
  holds : ∀ a, a ≠ fact → Deductive.holds s a = Deductive.holds t a

variable {c} {s t : σ} {fact : φ}

theorem AgreeBut.symm (h : c.AgreeBut s t fact) : c.AgreeBut t s fact :=
  ⟨h.applies.symm, h.antecedents.symm, fun a ha => (h.holds a ha).symm⟩

/-- What leads through a fact does not depend on whether it holds. -/
theorem AgreeBut.through_eq (h : c.AgreeBut s t fact) : c.through s fact = c.through t fact := by
  ext d
  simp only [through, h.applies, h.antecedents, Set.mem_ofPred_eq]
  refine and_congr_right fun _ => and_congr_right fun _ => forall₂_congr fun a _ => ?_
  by_cases ha : a = fact
  · simp [ha]
  · rw [h.holds a ha]

theorem AgreeBut.support_eq (h : c.AgreeBut s t fact)
    (hfact : Deductive.holds s fact = Deductive.holds t fact) (g : φ) :
    c.support s g = c.support t g := by
  have hall : ∀ a, Deductive.holds s a = Deductive.holds t a := by
    intro a
    by_cases ha : a = fact
    · rw [ha, hfact]
    · exact h.holds a ha
  simp only [support, Holding, h.applies, h.antecedents, hall]

/-- When a fact comes to hold, the derivations through it come to hold, and no others. -/
theorem AgreeBut.encard_support (h : c.AgreeBut s t fact) (hs : Deductive.holds s fact = false)
    (ht : Deductive.holds t fact = true) (g : φ) :
    (c.support t g).encard =
      (c.support s g).encard + {d | d ∈ c.through t fact ∧ c.conclusion d = g}.encard := by
  have hunion : c.support t g =
      c.support s g ∪ {d | d ∈ c.through t fact ∧ c.conclusion d = g} := by
    ext d
    simp only [support, through, Holding, Set.mem_ofPred_eq, Set.mem_union, h.applies, h.antecedents]
    constructor
    · rintro ⟨hg, happlies, hall⟩
      by_cases hfact : fact ∈ c.antecedents t d
      · exact .inr ⟨⟨happlies, hfact, fun a ha => .inr (hall a ha)⟩, hg⟩
      · refine .inl ⟨hg, happlies, fun a ha => ?_⟩
        rw [h.holds a fun heq => hfact (heq ▸ ha)]
        exact hall a ha
    · rintro (⟨hg, happlies, hall⟩ | ⟨⟨happlies, -, hall⟩, hg⟩)
      · refine ⟨hg, happlies, fun a ha => ?_⟩
        by_cases hfact : a = fact
        · rw [hfact, ht]
        · rw [← h.holds a hfact, hall a ha]
      · refine ⟨hg, happlies, fun a ha => ?_⟩
        rcases hall a ha with rfl | hall
        · exact ht
        · exact hall
  rw [hunion, Set.encard_union_eq]
  rw [Set.disjoint_left]
  rintro d ⟨-, -, hall⟩ ⟨⟨-, hfact, -⟩, -⟩
  rw [hall fact (h.antecedents ▸ hfact)] at hs
  cases hs

/-- When the truth of a fact changes, the derivations through it change, and no others. -/
theorem AgreeBut.differing_eq (h : c.AgreeBut s t fact) (hs : Deductive.holds s fact = false)
    (ht : Deductive.holds t fact = true) :
    {d | ¬(c.Holding s d ↔ c.Holding t d)} = c.through t fact := by
  ext d
  simp only [Holding, through, h.applies, h.antecedents, Set.mem_ofPred_eq]
  constructor
  · intro hne
    by_cases hfact : fact ∈ c.antecedents t d
    · by_cases hafter : c.Applies t d ∧ ∀ a ∈ c.antecedents t d, Deductive.holds t a = true
      · exact ⟨hafter.1, hfact, fun a ha => .inr (hafter.2 a ha)⟩
      · refine absurd (iff_of_false (fun hbefore => ?_) hafter) hne
        rw [hbefore.2 fact hfact] at hs
        cases hs
    · refine absurd (and_congr_right fun _ => forall₂_congr fun a ha => ?_) hne
      rw [h.holds a fun heq => hfact (heq ▸ ha)]
  · rintro ⟨happlies, hfact, hall⟩ hiff
    have hafter : ∀ a ∈ c.antecedents t d, Deductive.holds t a = true := by
      intro a ha
      rcases hall a ha with rfl | hholds
      · exact ht
      · exact hholds
    rw [(hiff.2 ⟨happlies, hafter⟩).2 fact hfact] at hs
    cases hs

end Calculus

end LiveProse
