import LiveProse.Proofs.Deduction.Termination

/-! What a run changes, counted. In one direction no fact turns twice, and so no derivation comes to hold
and stops again, or the other way round; each is listed when the last of its antecedents comes to hold, or
the first of them stops. So the numbers of what two stretches of a run change add up, and the engine's
statistics are these numbers (`Contract.work_propagate`). -/

namespace LiveProse

open Deductive Engine

/-! ### Numbers -/

namespace DerivationStats

variable {direction : Direction}

/-- The statistics after some more steps in a direction, by which some derivations and some facts
changed. -/
def addWork (stats : DerivationStats) (direction : Direction) (steps derivations facts : ℕ) :
    DerivationStats where
  justified := stats.justified + if direction = .justify then steps else 0
  unjustified := stats.unjustified + if direction = .unjustify then steps else 0
  enumerated := stats.enumerated + derivations
  transitions := stats.transitions + facts

theorem addWork_zero (stats : DerivationStats) : stats.addWork direction 0 0 0 = stats := by
  cases direction <;> rfl

theorem addWork_addWork (stats : DerivationStats) (k l m k' l' m' : ℕ) :
    (stats.addWork direction k l m).addWork direction k' l' m' =
      stats.addWork direction (k + k') (l + l') (m + m') := by
  cases direction <;> simp [addWork, Nat.add_assoc]

theorem addStep_eq (stats : DerivationStats) (direction : Direction) :
    stats.addStep direction = stats.addWork direction 1 0 0 := by
  cases direction <;> rfl

theorem addTransition_eq (stats : DerivationStats) (direction : Direction) (consequences : ℕ) :
    stats.addTransition consequences = stats.addWork direction 0 consequences 1 := by
  cases direction <;> rfl

end DerivationStats

namespace Engine

variable {engine : Engine} {change : DerivationStats → DerivationStats}

theorem stats_record (h : engine.collecting = true) :
    (engine.record change).stats = change engine.stats := by
  rw [record, if_pos h]

theorem collecting_record (engine : Engine) (change : DerivationStats → DerivationStats) :
    (engine.record change).collecting = engine.collecting := by
  unfold record
  split_ifs <;> rfl

end Engine

/-! ### Changes in one direction -/

namespace Direction

variable {direction : Direction} {α : Type} {P Q R : α → Prop}

/-- One condition gives way to another in a direction: it comes to hold for some values and stops for
none, or the other way round. -/
def Leads (direction : Direction) (P Q : α → Prop) : Prop :=
  match direction with
  | justify => ∀ x, P x → Q x
  | unjustify => ∀ x, Q x → P x

theorem Leads.trans (h : direction.Leads P Q) (h' : direction.Leads Q R) : direction.Leads P R := by
  cases direction with
  | justify => exact fun x hx => h' x (h x hx)
  | unjustify => exact fun x hx => h x (h' x hx)

/-- A condition that changes in two stages changes for each value in one of them at most. -/
theorem Leads.encard_add (h : direction.Leads P Q) (h' : direction.Leads Q R) :
    {x | ¬(P x ↔ R x)}.encard = {x | ¬(P x ↔ Q x)}.encard + {x | ¬(Q x ↔ R x)}.encard := by
  have hstages (x : α) : (¬(P x ↔ R x) ↔ ¬(P x ↔ Q x) ∨ ¬(Q x ↔ R x)) ∧
      (¬(P x ↔ Q x) → (Q x ↔ R x)) := by
    cases direction with
    | justify =>
      have hfirst : P x → Q x := h x
      have hlast : Q x → R x := h' x
      tauto
    | unjustify =>
      have hfirst : Q x → P x := h x
      have hlast : R x → Q x := h' x
      tauto
  have hunion : {x | ¬(P x ↔ R x)} = {x | ¬(P x ↔ Q x)} ∪ {x | ¬(Q x ↔ R x)} :=
    Set.ext fun x => (hstages x).1
  rw [hunion, Set.encard_union_eq]
  exact Set.disjoint_left.2 fun x hfirst hlast => hlast ((hstages x).2 hfirst)

end Direction

/-! ### Work -/

section Work

variable {σ φ δ γ : Type} [Deductive σ φ]

/-- What lies between two states of the engine and its store: in one direction, so many steps, by which
so many derivations and so many facts changed. -/
structure Work (c : Calculus σ φ δ) (direction : Direction) (engine : Engine) (s : σ)
    (engine' : Engine) (t : σ) (steps derivations facts : ℕ) : Prop where
  collecting : engine'.collecting = engine.collecting
  stats : engine'.stats = engine.stats.addWork direction steps derivations facts
  applies : c.Applies t = c.Applies s
  antecedents : c.antecedents t = c.antecedents s
  leads : direction.Leads (fun f => holds s f = true) fun f => holds t f = true
  encard_derivations : {d | ¬(c.Holding s d ↔ c.Holding t d)}.encard = derivations
  encard_facts : {f | ¬(holds s f = true ↔ holds t f = true)}.encard = facts

variable {c : Calculus σ φ δ} {direction : Direction} {engine engine₁ engine₂ : Engine} {s t u : σ}
variable {steps steps' derivations derivations' facts facts' : ℕ}

namespace Work

/-- The derivations change in the direction in which the facts do. -/
theorem leads_holding (h : Work c direction engine s engine₁ t steps derivations facts) :
    direction.Leads (c.Holding s) (c.Holding t) := by
  have hleads := h.leads
  cases direction with
  | justify =>
    rintro d ⟨happlies, hall⟩
    exact ⟨h.applies ▸ happlies, fun a ha => hleads a (hall a (h.antecedents ▸ ha))⟩
  | unjustify =>
    rintro d ⟨happlies, hall⟩
    exact ⟨h.applies ▸ happlies, fun a ha => hleads a (hall a (h.antecedents.symm ▸ ha))⟩

theorem trans (h : Work c direction engine s engine₁ t steps derivations facts)
    (h' : Work c direction engine₁ t engine₂ u steps' derivations' facts') :
    Work c direction engine s engine₂ u (steps + steps') (derivations + derivations')
      (facts + facts') where
  collecting := h'.collecting.trans h.collecting
  stats := by rw [h'.stats, h.stats, DerivationStats.addWork_addWork]
  applies := h'.applies.trans h.applies
  antecedents := h'.antecedents.trans h.antecedents
  leads := h.leads.trans h'.leads
  encard_derivations := by
    rw [h.leads_holding.encard_add h'.leads_holding, h.encard_derivations, h'.encard_derivations,
      Nat.cast_add]
  encard_facts := by
    rw [h.leads.encard_add h'.leads, h.encard_facts, h'.encard_facts, Nat.cast_add]

end Work

variable {count : σ → φ → ℕ} {Sound : σ → Prop} {frame : σ → γ} {conceivable : γ → List φ}
variable {fact : φ} {waiting : List φ} {after : σ × Bool}

namespace Contract

variable (h : Contract c count Sound frame conceivable)
include h

/-- A step that leaves the truth of its fact as it is. -/
theorem work_stay (hcollecting : engine.collecting = true)
    (hshift : Shift count frame direction s fact after) (hflag : after.2 = false) :
    Work c direction engine s (engine.record (·.addStep direction)) after.1 1 0 0 := by
  have hholds : holds after.1 = holds s := by
    funext a
    by_cases ha : a = fact
    · rw [ha, hshift.stayed hflag]
    · exact hshift.holds_eq a ha
  have hagree := h.agreeBut hshift
  refine ⟨collecting_record _ _, by rw [stats_record hcollecting, DerivationStats.addStep_eq],
    hagree.applies.symm, hagree.antecedents.symm, ?_, ?_, by simp [hholds]⟩
  · rw [hholds]
    cases direction <;> exact fun _ => id
  · simp [Calculus.Holding, hagree.applies, hagree.antecedents, hholds]

/-- A step that changes the truth of its fact. -/
theorem work_turn (hcollecting : engine.collecting = true)
    (hshift : Shift count frame direction s fact after) (hsound : Sound after.1)
    (hflag : after.2 = true) :
    Work c direction engine s ((engine.record (·.addStep direction)).record
      (·.addTransition (consequences after.1 fact).length)) after.1 1
        (consequences after.1 fact).length 1 := by
  have hagree := h.agreeBut hshift
  have hlists := (h.lists after.1 fact hsound).encard_eq_length
  obtain ⟨hbefore, hafter⟩ := hshift.turned hflag
  have hcollecting' := (collecting_record engine (·.addStep direction)).trans hcollecting
  refine ⟨(collecting_record _ _).trans (collecting_record _ _), ?_, hagree.applies.symm,
    hagree.antecedents.symm, ?_, ?_, ?_⟩
  · rw [stats_record hcollecting', stats_record hcollecting, DerivationStats.addStep_eq,
      DerivationStats.addTransition_eq _ direction, DerivationStats.addWork_addWork, Nat.zero_add,
      Nat.zero_add]
  · cases direction with
    | justify =>
      intro a hholds
      by_cases ha : a = fact
      · rw [ha]
        exact hafter
      · exact (hshift.holds_eq a ha).trans hholds
    | unjustify =>
      intro a hholds
      by_cases ha : a = fact
      · rw [ha]
        exact hbefore
      · exact (hshift.holds_eq a ha).symm.trans hholds
  · rw [← hlists]
    cases direction with
    | justify => rw [hagree.differing_eq hbefore hafter]
    | unjustify =>
      rw [← hagree.through_eq, ← hagree.symm.differing_eq hafter hbefore]
      exact congrArg Set.encard (Set.ext fun d => not_congr iff_comm)
  · have hset : {f | ¬(holds s f = true ↔ holds after.1 f = true)} = {fact} := by
      ext a
      by_cases ha : a = fact
      · subst ha
        cases direction <;> simp_all [Direction.sense]
      · simp [ha, hshift.holds_eq a ha]
    rw [hset, Set.encard_singleton, Nat.cast_one]

variable [DecidableEq φ]

/-- Going through the loop takes a step for every fact that waits and one for every derivation that
changes. -/
theorem work_empties (hempties : Empties direction engine s waiting engine₁ t)
    (hcollecting : engine.collecting = true) (hsound : Sound s)
    (hkinds : ∀ a ∈ waiting, kind s a = .deduction) (hbalanced : c.Balanced count direction s waiting) :
    ∃ derivations facts,
      Work c direction engine s engine₁ t (waiting.length + derivations) derivations facts := by
  -- a fact that turns puts its consequences in front, and each counts as one derivation
  induction hempties with
  | @done engine s =>
    refine ⟨0, 0, rfl, engine.stats.addWork_zero.symm, rfl, rfl, ?_, by simp, by simp⟩
    cases direction <;> exact fun _ => id
  | @stay engine engine₁ s s₁ t fact waiting hchange hrest ih =>
    have hkind := hkinds fact List.mem_cons_self
    obtain ⟨hsound', hshift, -⟩ := h.change_spec hsound hkind hbalanced
    have hbalanced' := h.change_balanced hsound hkind hbalanced
    rw [hchange] at hsound' hshift hbalanced'
    have hfirst := h.work_stay hcollecting hshift rfl
    obtain ⟨derivations, facts, hwork⟩ := ih (hfirst.collecting.trans hcollecting) hsound'
      (fun a ha => ((h.framed _ _ hshift.frame_eq).2.2 a).trans (hkinds a (List.mem_cons_of_mem _ ha)))
      hbalanced'
    refine ⟨0 + derivations, 0 + facts, ?_⟩
    convert hfirst.trans hwork using 1
    rw [List.length_cons]
    omega
  | @turn engine engine₁ s s₁ t fact waiting hchange hrest ih =>
    have hkind := hkinds fact List.mem_cons_self
    obtain ⟨hsound', hshift, -⟩ := h.change_spec hsound hkind hbalanced
    have hbalanced' := h.change_balanced hsound hkind hbalanced
    rw [hchange] at hsound' hshift hbalanced'
    have hfirst := h.work_turn hcollecting hshift hsound' rfl
    have hall : ∀ a ∈ consequences s₁ fact ++ waiting, kind s₁ a = .deduction := by
      intro a ha
      rcases List.mem_append.1 ha with ha | ha
      · obtain ⟨d, -, rfl⟩ := (h.lists s₁ fact hsound').mem_facts ha
        exact h.kind_conclusion s₁ d hsound'
      · exact ((h.framed _ _ hshift.frame_eq).2.2 a).trans (hkinds a (List.mem_cons_of_mem _ ha))
    obtain ⟨derivations, facts, hwork⟩ :=
      ih (hfirst.collecting.trans hcollecting) hsound' hall hbalanced'
    refine ⟨(consequences s₁ fact).length + derivations, 1 + facts, ?_⟩
    convert hfirst.trans hwork using 1
    rw [List.length_cons, List.length_append]
    omega

/-- A run that begins with an observation takes one step more than derivations change. -/
theorem work_propagate (hcollecting : engine.collecting = true) (hsound : Sound s)
    (hsettled : c.Settled count s) (hkind : kind s fact ≠ .deduction)
    (hshift : Shift count frame direction s fact (change direction s fact))
    (hsound' : Sound (change direction s fact).1) :
    let after := propagate direction engine s fact
    ∃ derivations facts,
      Work c direction engine s after.1 after.2 (derivations + 1) derivations facts := by
  obtain ⟨engine', t, hrun, -⟩ := h.run_observation engine hsound hsettled hkind hshift hsound'
  have hbalanced := h.observation_balanced hsettled hkind hshift hsound'
  have hempties := empties_of_run hrun
  rw [propagate, hrun]
  cases hempties with
  | stay hchange hrest =>
    rw [hchange] at hshift
    cases hrest
    exact ⟨0, 0, h.work_stay hcollecting hshift rfl⟩
  | @turn _ _ _ s₁ _ _ _ hchange hrest =>
    rw [hchange] at hshift hsound' hbalanced
    have hfirst := h.work_turn hcollecting hshift hsound' rfl
    rw [List.append_nil] at hrest
    have hall : ∀ a ∈ consequences s₁ fact, kind s₁ a = .deduction := by
      intro a ha
      obtain ⟨d, -, rfl⟩ := (h.lists s₁ fact hsound').mem_facts ha
      exact h.kind_conclusion s₁ d hsound'
    obtain ⟨derivations, facts, hwork⟩ :=
      h.work_empties hrest (hfirst.collecting.trans hcollecting) hsound' hall hbalanced
    refine ⟨(consequences s₁ fact).length + derivations, 1 + facts, ?_⟩
    convert hfirst.trans hwork using 1
    omega

end Contract

end Work

end LiveProse
