import LiveProse.Deduction.RuleGraph
import LiveProse.Proofs.Deduction.Rules

/-! The engine is exact. Rule graphs keep what it relies on, and so every store that does shows after
every call the facts that the observed ones lead to, each deduction counted once for each of its
derivations (`Respects.runAll_exact`). -/

namespace LiveProse

namespace RuleGraph

variable {ν : Type} [DecidableEq ν] {start graph : RuleGraph ν} {name : ν}

/-- The rules of a graph. -/
def rulesOf (graph : RuleGraph ν) : Rules ν (Fin graph.rules.length) where
  kind := graph.kind
  counterpart? := graph.counterpart?
  conclusion d := graph.rules[d].conclusion
  antecedents d := graph.rules[d].antecedents

/-- A graph that has the rules of another and counts no observation twice. -/
def Under (start graph : RuleGraph ν) : Prop :=
  graph.pairs = start.pairs ∧ graph.deductions = start.deductions ∧ graph.rules = start.rules ∧
    ∀ name, start.kind name ≠ .deduction → graph.counts.count name ≤ 1

theorem Under.kind_eq (h : Under start graph) (name : ν) : graph.kind name = start.kind name := by
  rw [kind, kind, h.1, h.2.1]

/-- The rules that a name leads through. -/
theorem lists_consequences (graph : RuleGraph ν) (name : ν) :
    Lists graph.rulesOf.conclusion (graph.consequences name)
      (graph.rulesOf.through graph.holds name) := by
  let leads (rule : Rule ν) : Bool := rule.antecedents.contains name &&
    rule.antecedents.all fun other => other = name || graph.holds other
  refine ⟨(List.finRange graph.rules.length).filter fun d => leads graph.rules[d],
    (List.nodup_finRange _).filter _, fun d => ?_, ?_⟩
  · simp [leads, rulesOf, Rules.through, List.mem_finRange]
  · have hrules : (List.finRange graph.rules.length).map (fun d => graph.rules[d]) = graph.rules := by
      simp
    change _ = (graph.rules.filter leads).map (·.conclusion)
    conv_rhs => rw [← hrules, List.filter_map, List.map_map]
    rfl

theorem Under.eq (h : Under start graph) :
    graph = { start with counts := graph.counts, trace := graph.trace } := by
  obtain ⟨hpairs, hdeductions, hrules, -⟩ := h
  cases graph
  dsimp only at hpairs hdeductions hrules ⊢
  rw [hpairs, hdeductions, hrules]

theorem holds_iff (graph : RuleGraph ν) (name : ν) :
    graph.holds name = true ↔ 0 < graph.counts.count name :=
  graph.counts.contains_iff_count_pos name

theorem holds_congr {after : RuleGraph ν} (h : after.counts.count name = graph.counts.count name) :
    after.holds name = graph.holds name := by
  rw [Bool.eq_iff_iff, holds_iff, holds_iff, h]

/-- A name that is justified is counted once more, unless it is observed and holds already. -/
theorem count_justify (graph : RuleGraph ν) (name other : ν) :
    (graph.justify name).1.counts.count other = graph.counts.count other +
      if other = name ∧ (graph.holds name = false ∨ graph.kind name = .deduction) then 1 else 0 := by
  have hcounts : (graph.justify name).1.counts =
      if (!graph.holds name) = true ∨ graph.kind name = .deduction then
        (graph.counts.acquire name).1 else graph.counts := rfl
  rw [hcounts]
  by_cases h : graph.holds name = false ∨ graph.kind name = .deduction
  · rw [if_pos (by simpa using h), Bank.count_acquire]
    simp only [h, and_true, eq_comm (a := name)]
  · rw [if_neg (by simpa using h)]
    simp [h]

theorem count_unjustify (graph : RuleGraph ν) (name other : ν) :
    (graph.unjustify name).1.counts.count other =
      graph.counts.count other - if other = name then 1 else 0 := by
  change (graph.counts.release name).count other = _
  rw [Bank.count_release]
  simp only [eq_comm]

/-- Counts may change as long as no observation is counted twice. -/
theorem Under.recount (h : Under start graph) {after : RuleGraph ν} (hpairs : after.pairs = graph.pairs)
    (hdeductions : after.deductions = graph.deductions) (hrules : after.rules = graph.rules)
    (hcounts : ∀ name, start.kind name ≠ .deduction → after.counts.count name ≤ 1) :
    Under start after :=
  ⟨hpairs.trans h.1, hdeductions.trans h.2.1, hrules.trans h.2.2.1, hcounts⟩

/-- Changing an observation. -/
theorem Under.observation (h : Under start graph) (direction : Direction)
    (hname : start.kind name ≠ .deduction) :
    let after := Engine.change direction graph name
    Under start after.1 ∧ after.2 = (Deductive.holds graph name != direction.sense) ∧
      ∀ other, after.1.counts.count other =
        if other = name then (if direction.sense then 1 else 0) else graph.counts.count other := by
  intro after
  have hone := h.2.2.2 name hname
  have hkind : graph.kind name ≠ .deduction := by rwa [h.kind_eq]
  have hholds := graph.holds_iff name
  have hcount (other : ν) : after.1.counts.count other =
      if other = name then (if direction.sense then 1 else 0) else graph.counts.count other := by
    by_cases hother : other = name
    · subst hother
      rw [if_pos rfl]
      cases direction with
      | justify =>
        refine (graph.count_justify other other).trans ?_
        cases hnow : graph.holds other <;> simp [hnow, hkind, Direction.sense] at hholds ⊢ <;> omega
      | unjustify =>
        refine (graph.count_unjustify other other).trans ?_
        simp [Direction.sense]
        omega
    · rw [if_neg hother]
      cases direction with
      | justify => exact (graph.count_justify name other).trans (by simp [hother])
      | unjustify => exact (graph.count_unjustify name other).trans (by simp [hother])
  refine ⟨?_, ?_, hcount⟩
  · have hle (other : ν) (hobserved : start.kind other ≠ .deduction) :
        after.1.counts.count other ≤ 1 := by
      rw [hcount]
      split_ifs
      · exact Nat.le_refl 1
      · exact Nat.zero_le 1
      · exact h.2.2.2 other hobserved
    cases direction <;> exact h.recount rfl rfl rfl hle
  · cases direction with
    | justify =>
      change (!graph.holds name) = (graph.holds name != true)
      cases graph.holds name <;> rfl
    | unjustify =>
      have hnot : (graph.unjustify name).1.holds name = false := by
        rw [← Bool.not_eq_true, holds_iff]
        exact Nat.not_lt.2 ((hcount name).trans (if_pos rfl)).le
      change (graph.holds name && !(graph.unjustify name).1.holds name) = (graph.holds name != false)
      rw [hnot]
      cases graph.holds name <;> rfl

/-- Justifying a deduction counts it once more. -/
theorem Under.justify (h : Under start graph) (hname : start.kind name = .deduction) :
    let after := graph.justify name
    Under start after.1 ∧ after.2 = (graph.counts.count name == 0) ∧
      ∀ other, after.1.counts.count other = graph.counts.count other + if other = name then 1 else 0 := by
  intro after
  have hkind : graph.kind name = .deduction := (h.kind_eq name).trans hname
  have hcount (other : ν) : after.1.counts.count other =
      graph.counts.count other + if other = name then 1 else 0 := by
    simp [after, count_justify, hkind]
  refine ⟨h.recount rfl rfl rfl fun other hother => ?_, ?_, hcount⟩
  · rw [hcount, if_neg, Nat.add_zero]
    · exact h.2.2.2 other hother
    · rintro rfl
      exact hother hname
  · change (!graph.holds name) = _
    rw [Bool.eq_iff_iff, Bool.not_eq_true', ← Bool.not_eq_true, holds_iff, beq_iff_eq]
    omega

/-- Unjustifying a deduction takes one of its counts back. -/
theorem Under.unjustify (h : Under start graph) (hpos : 0 < graph.counts.count name) :
    let after := graph.unjustify name
    Under start after.1 ∧ after.2 = (graph.counts.count name == 1) ∧
      ∀ other, after.1.counts.count other + (if other = name then 1 else 0) =
        graph.counts.count other := by
  intro after
  have hcount (other : ν) : after.1.counts.count other + (if other = name then 1 else 0) =
      graph.counts.count other := by
    rw [count_unjustify]
    split_ifs with hother
    · rw [hother]
      exact Nat.sub_add_cancel hpos
    · rfl
  refine ⟨h.recount rfl rfl rfl fun other hother => ?_, ?_, hcount⟩
  · exact (Nat.le_of_add_right_le (hcount other).le).trans (h.2.2.2 other hother)
  · have hone := hcount name
    rw [if_pos rfl] at hone
    change (graph.holds name && !after.1.holds name) = _
    rw [Bool.eq_iff_iff, Bool.and_eq_true, Bool.not_eq_true', ← Bool.not_eq_true, holds_iff,
      holds_iff, beq_iff_eq]
    omega

/-- A rule graph keeps what the engine relies on. -/
theorem respects (start : RuleGraph ν) :
    Respects start.rulesOf (fun graph : RuleGraph ν => graph.counts.count) (Under start) where
  kind_eq graph name h := h.kind_eq name
  counterpart?_eq graph name h := by
    change graph.counterpart? name = start.counterpart? name
    rw [counterpart?, counterpart?, h.1]
  observation direction graph name h hname := by
    obtain ⟨hunder, hflag, hcount⟩ := h.observation direction hname
    refine ⟨hunder, hflag, fun other => ?_, fun other hother => ?_⟩
    · change (Engine.change direction graph name).1.holds other = _
      rw [Bool.eq_iff_iff, holds_iff, hcount]
      split_ifs with hother hsense
      · simp [hsense]
      · simp [hsense]
      · exact (holds_iff graph other).symm
    · rw [hcount, if_neg]
      rintro rfl
      exact hname hother
  holds_iff graph name _ _ := graph.holds_iff name
  justify graph name h hname := by
    obtain ⟨hunder, hflag, hcount⟩ := h.justify hname
    refine ⟨hunder, hflag, fun other hne => holds_congr ?_, fun other _ => hcount other⟩
    exact (hcount other).trans (by rw [if_neg hne, Nat.add_zero])
  unjustify graph name h hname hpos := by
    obtain ⟨hunder, hflag, hcount⟩ := h.unjustify hpos
    refine ⟨hunder, hflag, fun other hne => holds_congr ?_, fun other _ => hcount other⟩
    rw [← hcount other, if_neg hne]
    rfl
  consequences graph name h := by
    rw [h.eq]
    exact lists_consequences { start with counts := graph.counts, trace := graph.trace } name
  bound graph h := by
    have hle := Set.ncard_image_le (f := start.rulesOf.conclusion)
      (Set.finite_univ (α := Fin start.rules.length))
    rw [Set.image_univ, Set.ncard_univ, Nat.card_eq_fintype_card, Fintype.card_fin] at hle
    change _ < graph.rules.length + 1
    rw [h.2.2.1]
    exact Nat.lt_succ_of_le hle

end RuleGraph

/-- The steps that the engine takes in some calls, last one first. -/
def Call.steps {σ φ : Type} [Deductive σ φ] (engine : Engine) (store : σ) (calls : List (Call φ)) :
    List (Step σ φ) :=
  (Call.runAll engine (⟨store, []⟩ : Traced σ φ) calls).2.steps

/-- Begun with nothing true, the engine counts every deduction exactly once for each of its
derivations whose antecedents hold, uncounts none that is not counted, and never lets both senses of
a combined fact hold. Where no fact feeds itself, any two runs, be it over different stores, agree on
all facts if they agree on the observed ones. -/
theorem Respects.runAll_exact {σ τ φ δ : Type} [Deductive σ φ] [Deductive τ φ] [DecidableEq φ]
    [Finite φ] [Finite δ] {rules : Rules φ δ} (hrules : rules.WellFormed)
    (hacyclic : rules.Acyclic) {count : σ → φ → ℕ} {Valid : σ → Prop}
    (h : Respects rules count Valid) {count' : τ → φ → ℕ} {Valid' : τ → Prop}
    (h' : Respects rules count' Valid') (engine engine' : Engine) {s : σ} {t : τ} (hs : Valid s)
    (ht : Valid' t) (hfalse : ∀ f, Deductive.holds s f = false)
    (hfalse' : ∀ f, Deductive.holds t f = false) {calls calls' : List (Call φ)}
    (hcalls : ∀ call ∈ calls, rules.Allows call) (hcalls' : ∀ call ∈ calls', rules.Allows call) :
    let last := (Call.runAll engine s calls).2
    let last' := (Call.runAll engine' t calls').2
    (∀ f, rules.kind f = .deduction →
      {d | rules.conclusion d = f ∧
        ∀ a ∈ rules.antecedents d, Deductive.holds last a = true}.ncard = count last f) ∧
    (∀ step ∈ Call.steps engine s calls, rules.kind step.fact = .deduction →
      step.direction = .unjustify → 0 < count step.before step.fact) ∧
    (∀ f g, rules.kind f = .combined → rules.counterpart? f = some g →
      ¬(Deductive.holds last f = true ∧ Deductive.holds last g = true)) ∧
    ((∀ f, rules.kind f ≠ .deduction → Deductive.holds last f = Deductive.holds last' f) →
      ∀ f, Deductive.holds last f = Deductive.holds last' f) := by
  intro last last'
  have hkept := h.runAll_kept hrules engine (h.kept_of_false hrules hs hfalse) hcalls
  have hkept' := h'.runAll_kept hrules engine'
    (h'.kept_of_false hrules ht hfalse') hcalls'
  have hlast : last = (Call.runAll engine (⟨s, []⟩ : Traced σ φ) calls).2.store :=
    congrArg Prod.snd (Call.runAll_traced engine ⟨s, []⟩ calls)
  have hlast' : last' = (Call.runAll engine' (⟨t, []⟩ : Traced τ φ) calls').2.store :=
    congrArg Prod.snd (Call.runAll_traced engine' ⟨t, []⟩ calls')
  rw [hlast, hlast']
  refine ⟨fun f hf => h.ncard_support hkept hf, fun step hstep hkind hdirection => ?_,
    hkept.paired, h.holds_eq h' hacyclic hkept hkept'⟩
  have hstep := hkept.sound.2 step hstep
  have hvalid := hstep.before.1
  have hpos := hstep.counted ((h.kind_eq _ _ hvalid).trans hkind) hdirection
  rwa [Respects.tally_eq hkind] at hpos

/-- Two senses of one question, a further observation, and deductions of which one has two
derivations. -/
def twoWays : RuleGraph (Fin 6) where
  pairs := [[0, 1]]
  deductions := [3, 4, 5]
  rules := [⟨[0, 2], 3⟩, ⟨[3, 2], 4⟩, ⟨[1], 4⟩, ⟨[4, 3], 5⟩, ⟨[2, 0], 5⟩]

/-- Two runs over the graph: one changes its mind twice and is forced in between. -/
theorem Respects.runAll_exact_twoWays :
    let calls : List (Call (Fin 6)) :=
      [.justify 2, .justify 0, .justify 1, .forceFalse [4, 1, 3, 2], .justify 2, .justify 0]
    let calls' : List (Call (Fin 6)) := [.justify 0, .justify 2, .unjustify 1]
    let last := (Call.runAll {} twoWays calls).2
    let last' := (Call.runAll {} twoWays calls').2
    (∀ f, twoWays.kind f ≠ .deduction → Deductive.holds last f = Deductive.holds last' f) ∧
      (∀ step ∈ Call.steps {} twoWays calls, twoWays.kind step.fact = .deduction →
        step.direction = .unjustify → 0 < step.before.counts.count step.fact) ∧
      ({d | twoWays.rulesOf.conclusion d = 5 ∧
        ∀ a ∈ twoWays.rulesOf.antecedents d, Deductive.holds last a = true}.ncard =
          last.counts.count 5) ∧
      ∀ f, Deductive.holds last f = Deductive.holds last' f := by
  intro calls calls' last last'
  have hobserved : ∀ f, twoWays.kind f ≠ .deduction →
      Deductive.holds last f = Deductive.holds last' f := by decide
  have hacyclic : twoWays.rulesOf.Acyclic := Rules.acyclic_of_rank (·.val) (by decide)
  have hrules : twoWays.rulesOf.WellFormed := ⟨by decide, by decide, by decide⟩
  have hunder : RuleGraph.Under twoWays twoWays := ⟨rfl, rfl, rfl, by decide⟩
  obtain ⟨hcount, hsteps, -, hsame⟩ := Respects.runAll_exact hrules hacyclic twoWays.respects
    twoWays.respects {} {} hunder hunder (by decide) (by decide)
    (show ∀ call ∈ calls, twoWays.rulesOf.Allows call by simp [calls, Rules.Allows]; decide)
    (show ∀ call ∈ calls', twoWays.rulesOf.Allows call by simp [calls', Rules.Allows]; decide)
  exact ⟨hobserved, hsteps, hcount 5 (by decide), hsame hobserved⟩

end LiveProse
