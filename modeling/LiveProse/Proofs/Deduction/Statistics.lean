import LiveProse.Proofs.Deduction.Work

/-! What the statistics tell. A call is made of runs in one direction each. The statistics of a run are the
numbers of what it changed, and nothing in them depends on the order in which consequences are listed
(`Respects.runs_measure`). -/

namespace LiveProse

open Deductive Engine

/-! ### The runs of a call -/

/-- A run in one direction: the fact that it begins with and the store that it begins in. -/
structure Run (σ φ : Type) where
  direction : Direction
  fact : φ
  before : σ

namespace Call

variable {σ φ : Type} [Deductive σ φ]

/-- The runs by which facts are forced. -/
def forcingRuns (engine : Engine) (store : σ) : List φ → List (Run σ φ)
  | [] => []
  | fact :: facts =>
    if kind store fact ≠ .deduction ∧ holds store fact then
      let (engine, after) := propagate .unjustify engine store fact
      ⟨.unjustify, fact, store⟩ :: forcingRuns engine after facts
    else forcingRuns engine store facts

/-- The runs that a call is made of. -/
def runs (engine : Engine) (store : σ) : Call φ → List (Run σ φ)
  | justify fact =>
    match opposed? store fact with
    | some other =>
      [⟨.unjustify, other, store⟩, ⟨.justify, fact, (propagate .unjustify engine store other).2⟩]
    | none => [⟨.justify, fact, store⟩]
  | unjustify fact => [⟨.unjustify, fact, store⟩]
  | forceFalse facts => forcingRuns engine store facts

/-- The runs that calls are made of. -/
def allRuns (engine : Engine) (store : σ) : List (Call φ) → List (Run σ φ)
  | [] => []
  | call :: calls =>
    let (after, store') := call.run engine store
    call.runs engine store ++ allRuns after store' calls

/-- Goes on with a run from where the engine and its store are. -/
def follow (state : Engine × σ) (run : Run σ φ) : Engine × σ :=
  propagate run.direction state.1 state.2 run.fact

theorem foldl_forcingRuns (engine : Engine) (store : σ) (facts : List φ) :
    (forcingRuns engine store facts).foldl follow (engine, store) = Engine.forceFalse engine store facts := by
  induction facts generalizing engine store with
  | nil => rfl
  | cons fact facts ih =>
    rw [forcingRuns, Engine.forceFalse, List.foldl_cons]
    dsimp only
    split_ifs
    · exact ih _ _
    · exact ih _ _

theorem foldl_runs (engine : Engine) (store : σ) (call : Call φ) :
    (call.runs engine store).foldl follow (engine, store) = call.run engine store := by
  cases call with
  | justify fact =>
    rw [runs, run, Engine.justify, ← opposed?]
    cases opposed? store fact <;> rfl
  | unjustify fact => rfl
  | forceFalse facts => exact foldl_forcingRuns engine store facts

/-- The runs do all that the calls do. -/
theorem foldl_allRuns (engine : Engine) (store : σ) (calls : List (Call φ)) :
    (allRuns engine store calls).foldl follow (engine, store) = runAll engine store calls := by
  induction calls generalizing engine store with
  | nil => rfl
  | cons call calls ih =>
    rw [allRuns, List.foldl_append, foldl_runs]
    exact ih _ _

end Call

namespace Respects

variable {σ τ φ δ : Type} [Deductive σ φ] [Deductive τ φ] [DecidableEq φ] [Finite δ] {rules : Rules φ δ}
variable {count : σ → φ → ℕ} {count' : τ → φ → ℕ} {Valid : σ → Prop} {Valid' : τ → Prop}
variable {direction : Direction} {engine : Engine} {s : σ} {t : τ} {fact : φ} {facts : List φ}

/-- Two stores over the same rules that agree on what was observed, and engines that counted the same
over them. -/
structure Alike (rules : Rules φ δ) (count : σ → φ → ℕ) (count' : τ → φ → ℕ) (Valid : σ → Prop)
    (Valid' : τ → Prop) (x : Engine × σ) (y : Engine × τ) : Prop where
  booked : Booked rules count Valid x.2
  booked' : Booked rules count' Valid' y.2
  observed : ∀ f, rules.kind f ≠ .deduction → holds x.2 f = holds y.2 f
  collecting : x.1.collecting = true
  collecting' : y.1.collecting = true
  stats : x.1.stats = y.1.stats

variable (hrules : rules.WellFormed) (h : Respects rules count Valid)
include hrules h

/-- A run leaves the deductions counted, and of the observations it changes the one that it begins
with. -/
theorem booked_propagate (direction : Direction) (engine : Engine) (hbooked : Booked rules count Valid s)
    (hfact : rules.kind fact ≠ .deduction) :
    let after := (propagate direction engine s fact).2
    Booked rules count Valid after ∧ ∀ f, rules.kind f ≠ .deduction →
      holds after f = if f = fact then direction.sense else holds s f := by
  have hvalid := hbooked.sound.1
  have hsets := h.sets direction hfact
  rw [← h.frame_eq hvalid] at hsets
  obtain ⟨engine', s', heq, hsound, -, hsettled, hobserved⟩ := (h.contract hrules).propagate_sets engine
    hbooked.sound hbooked.settled ((h.kind_eq s fact hvalid).symm ▸ hfact) hsets
  rw [heq]
  exact ⟨⟨hsound, hsettled⟩, fun f hf => hobserved f ((h.kind_eq s f hvalid).symm ▸ hf)⟩

theorem work_propagate (direction : Direction) (hbooked : Booked rules count Valid s)
    (hfact : rules.kind fact ≠ .deduction) (hcollecting : engine.collecting = true) :
    let after := propagate direction engine s fact
    ∃ derivations facts,
      Work (rules.calculus σ) direction engine s after.1 after.2 (derivations + 1) derivations facts := by
  have hvalid := hbooked.sound.1
  have hsets := h.sets direction hfact
  rw [← h.frame_eq hvalid] at hsets
  obtain ⟨hsound, hshift, -⟩ := hsets s hbooked.sound rfl
  exact (h.contract hrules).work_propagate hcollecting hbooked.sound hbooked.settled
    ((h.kind_eq s fact hvalid).symm ▸ hfact) hshift hsound

omit hrules [Finite δ] in
theorem opposed?_eq (hs : Valid s) : opposed? s fact =
    (if rules.kind fact = .combined then rules.counterpart? fact else none).filter (holds s) := by
  rw [opposed?, h.kind_eq s fact hs, h.counterpart?_eq s fact hs]

omit [Finite δ] in
/-- Facts that oppose each other are observed. -/
theorem kind_opposed (hs : Valid s) {other : φ} (hopposed : opposed? s fact = some other) :
    rules.kind other ≠ .deduction := by
  rw [h.opposed?_eq hs] at hopposed
  have hsome := (Option.filter_eq_some_iff.1 hopposed).1
  split_ifs at hsome with hkind
  obtain ⟨-, hother, -⟩ := hrules.counterpart fact other hkind hsome
  simp [hother]

/-- The runs by which facts are forced begin with observations, in stores that are as they should be. -/
theorem booked_forcingRuns (engine : Engine) (hbooked : Booked rules count Valid s) (facts : List φ) :
    (∀ run ∈ Call.forcingRuns engine s facts, rules.kind run.fact ≠ .deduction ∧
      Booked rules count Valid run.before) ∧
      Booked rules count Valid (Engine.forceFalse engine s facts).2 := by
  induction facts generalizing engine s with
  | nil => exact ⟨nofun, hbooked⟩
  | cons fact facts ih =>
    rw [Call.forcingRuns, Engine.forceFalse, List.foldl_cons]
    dsimp only
    split_ifs with hforced
    · have hfact : rules.kind fact ≠ .deduction := h.kind_eq s fact hbooked.sound.1 ▸ hforced.1
      obtain ⟨hruns, hlast⟩ := ih (propagate .unjustify engine s fact).1
        (h.booked_propagate hrules .unjustify engine hbooked hfact).1
      exact ⟨List.forall_mem_cons.2 ⟨⟨hfact, hbooked⟩, hruns⟩, hlast⟩
    · exact ih engine hbooked

/-- So do the runs that a call is made of. -/
theorem booked_runs (engine : Engine) (hbooked : Booked rules count Valid s) {call : Call φ}
    (hcall : rules.Allows call) :
    (∀ run ∈ call.runs engine s, rules.kind run.fact ≠ .deduction ∧
      Booked rules count Valid run.before) ∧
      Booked rules count Valid (call.run engine s).2 := by
  cases call with
  | justify fact =>
    rw [Call.runs, Call.run, Engine.justify, ← opposed?]
    cases hopposed : opposed? s fact with
    | none =>
      exact ⟨List.forall_mem_singleton.2 ⟨hcall, hbooked⟩,
        (h.booked_propagate hrules .justify engine hbooked hcall).1⟩
    | some other =>
      have hother := h.kind_opposed hrules hbooked.sound.1 hopposed
      have hmiddle := (h.booked_propagate hrules .unjustify engine hbooked hother).1
      exact ⟨List.forall_mem_cons.2 ⟨⟨hother, hbooked⟩, List.forall_mem_singleton.2 ⟨hcall, hmiddle⟩⟩,
        (h.booked_propagate hrules .justify _ hmiddle hcall).1⟩
  | unjustify fact =>
    exact ⟨List.forall_mem_singleton.2 ⟨hcall, hbooked⟩,
      (h.booked_propagate hrules .unjustify engine hbooked hcall).1⟩
  | forceFalse facts => exact h.booked_forcingRuns hrules engine hbooked facts

theorem booked_allRuns (engine : Engine) (hbooked : Booked rules count Valid s) {calls : List (Call φ)}
    (hcalls : ∀ call ∈ calls, rules.Allows call) :
    ∀ run ∈ Call.allRuns engine s calls, rules.kind run.fact ≠ .deduction ∧
      Booked rules count Valid run.before := by
  induction calls generalizing engine s with
  | nil => exact nofun
  | cons call calls ih =>
    obtain ⟨hcall, hcalls⟩ := List.forall_mem_cons.1 hcalls
    obtain ⟨hruns, hafter⟩ := h.booked_runs hrules engine hbooked hcall
    exact List.forall_mem_append.2 ⟨hruns, ih _ hafter hcalls⟩

/-! ### Two stores -/

section Alike

variable [Finite φ] (h' : Respects rules count' Valid') (hacyclic : rules.Acyclic)
include h' hacyclic
variable {x : Engine × σ} {y : Engine × τ}

omit hrules in
theorem Alike.holds_eq (halike : Alike rules count count' Valid Valid' x y) : holds x.2 = holds y.2 :=
  funext (h.holds_eq_of_booked h' hacyclic halike.booked halike.booked' halike.observed)

/-- Runs that begin alike take the same steps, in whatever order consequences are listed. -/
theorem Alike.propagate (halike : Alike rules count count' Valid Valid' x y) (direction : Direction)
    (hfact : rules.kind fact ≠ .deduction) :
    Alike rules count count' Valid Valid' (Engine.propagate direction x.1 x.2 fact)
      (Engine.propagate direction y.1 y.2 fact) := by
  obtain ⟨hbooked, hobserved⟩ := h.booked_propagate hrules direction x.1 halike.booked hfact
  obtain ⟨hbooked', hobserved'⟩ := h'.booked_propagate hrules direction y.1 halike.booked' hfact
  obtain ⟨derivations, facts, hwork⟩ :=
    h.work_propagate hrules direction halike.booked hfact halike.collecting
  obtain ⟨derivations', facts', hwork'⟩ :=
    h'.work_propagate hrules direction halike.booked' hfact halike.collecting'
  have hsame : ∀ f, rules.kind f ≠ .deduction → holds (Engine.propagate direction x.1 x.2 fact).2 f =
      holds (Engine.propagate direction y.1 y.2 fact).2 f := by
    intro f hf
    rw [hobserved f hf, hobserved' f hf, halike.observed f hf]
  have hbefore := halike.holds_eq h h' hacyclic
  have hafter := funext (h.holds_eq_of_booked h' hacyclic hbooked hbooked' hsame)
  have hholding {s : σ} {t : τ} (heq : holds s = holds t) :
      (rules.calculus σ).Holding s = (rules.calculus τ).Holding t := by
    funext d
    simp only [Calculus.Holding, Rules.calculus, heq]
  have hderivations : derivations = derivations' := by
    have hencard := hwork.encard_derivations
    rw [hholding hbefore, hholding hafter, hwork'.encard_derivations] at hencard
    exact_mod_cast hencard.symm
  have hfacts : facts = facts' := by
    have hencard := hwork.encard_facts
    rw [hbefore, hafter, hwork'.encard_facts] at hencard
    exact_mod_cast hencard.symm
  exact ⟨hbooked, hbooked', hsame, hwork.collecting.trans halike.collecting,
    hwork'.collecting.trans halike.collecting',
    by rw [hwork.stats, hwork'.stats, halike.stats, hderivations, hfacts]⟩

theorem Alike.forceFalse (halike : Alike rules count count' Valid Valid' x y) (facts : List φ) :
    Alike rules count count' Valid Valid' (Engine.forceFalse x.1 x.2 facts)
      (Engine.forceFalse y.1 y.2 facts) := by
  unfold Engine.forceFalse
  induction facts generalizing x y with
  | nil => exact halike
  | cons fact facts ih =>
    have hkind := h.kind_eq x.2 fact halike.booked.sound.1
    have hkind' := h'.kind_eq y.2 fact halike.booked'.sound.1
    rw [List.foldl_cons, List.foldl_cons]
    dsimp only
    rw [hkind, hkind', halike.holds_eq h h' hacyclic]
    split_ifs with hforced
    · exact ih (halike.propagate hrules h h' hacyclic .unjustify hforced.1)
    · exact ih halike

theorem Alike.call (halike : Alike rules count count' Valid Valid' x y) {call : Call φ}
    (hcall : rules.Allows call) :
    Alike rules count count' Valid Valid' (call.run x.1 x.2) (call.run y.1 y.2) := by
  cases call with
  | justify fact =>
    have hopposed : opposed? y.2 fact = opposed? x.2 fact := by
      rw [h.opposed?_eq halike.booked.sound.1, h'.opposed?_eq halike.booked'.sound.1,
        halike.holds_eq h h' hacyclic]
    rw [Call.run, Call.run, Engine.justify, ← opposed?, Engine.justify, ← opposed?, hopposed]
    cases hother : opposed? x.2 fact with
    | none => exact halike.propagate hrules h h' hacyclic .justify hcall
    | some other =>
      have hfirst := halike.propagate hrules h h' hacyclic .unjustify
        (h.kind_opposed hrules halike.booked.sound.1 hother)
      exact hfirst.propagate hrules h h' hacyclic .justify hcall
  | unjustify fact => exact halike.propagate hrules h h' hacyclic .unjustify hcall
  | forceFalse facts => exact halike.forceFalse hrules h h' hacyclic facts

theorem Alike.runAll (halike : Alike rules count count' Valid Valid' x y) {calls : List (Call φ)}
    (hcalls : ∀ call ∈ calls, rules.Allows call) :
    Alike rules count count' Valid Valid' (Call.runAll x.1 x.2 calls) (Call.runAll y.1 y.2 calls) := by
  induction calls generalizing x y with
  | nil => exact halike
  | cons call calls ih =>
    obtain ⟨hcall, hcalls⟩ := List.forall_mem_cons.1 hcalls
    exact ih (halike.call hrules h h' hacyclic hcall) hcalls

end Alike

end Respects

/-- Calls are made of runs. Where nothing was true in the beginning, each run adds to the statistics what it
changed: a consequence listed for each derivation that came to hold or stopped, a transition for each fact
that turned, and a step in its direction for each of these derivations and one for the fact that it began
with. So whatever order consequences are listed in, the same calls count the same. -/
theorem Respects.runs_measure {σ τ φ δ : Type} [Deductive σ φ] [Deductive τ φ] [DecidableEq φ] [Finite φ]
    [Finite δ] {rules : Rules φ δ} (hrules : rules.WellFormed) (hacyclic : rules.Acyclic)
    {count : σ → φ → ℕ} {Valid : σ → Prop} (h : Respects rules count Valid) {count' : τ → φ → ℕ}
    {Valid' : τ → Prop} (h' : Respects rules count' Valid') (engine : Engine)
    (hcollecting : engine.collecting = true) {s : σ} {t : τ} (hs : Valid s) (ht : Valid' t)
    (hfalse : ∀ f, Deductive.holds s f = false) (hfalse' : ∀ f, Deductive.holds t f = false)
    {calls : List (Call φ)} (hcalls : ∀ call ∈ calls, rules.Allows call) :
    (Call.allRuns engine s calls).foldl Call.follow (engine, s) = Call.runAll engine s calls ∧
    (∀ run ∈ Call.allRuns engine s calls, ∀ counting : Engine, counting.collecting = true →
      let after := Engine.propagate run.direction counting run.before run.fact
      let derivations := {d | ¬((∀ a ∈ rules.antecedents d, Deductive.holds run.before a = true) ↔
        ∀ a ∈ rules.antecedents d, Deductive.holds after.2 a = true)}.ncard
      let facts := {f | Deductive.holds run.before f ≠ Deductive.holds after.2 f}.ncard
      after.1.stats = counting.stats.addWork run.direction (derivations + 1) derivations facts) ∧
    (Call.runAll engine s calls).1.stats = (Call.runAll engine t calls).1.stats := by
  have hbooked := (h.kept_of_false hrules hs hfalse).booked
  have hbooked' := (h'.kept_of_false hrules ht hfalse').booked
  refine ⟨Call.foldl_allRuns engine s calls, fun run hrun counting hcounting => ?_, ?_⟩
  · obtain ⟨hfact, hbefore⟩ := h.booked_allRuns hrules engine hbooked hcalls run hrun
    obtain ⟨derivations, facts, hwork⟩ :=
      h.work_propagate hrules run.direction hbefore hfact hcounting
    intro after derivations' facts'
    have hderivations : derivations' = derivations := by
      have hencard := hwork.encard_derivations
      simp only [Calculus.Holding, Rules.calculus, true_and] at hencard
      exact (Set.ncard_def _).trans (by rw [hencard, ENat.toNat_natCast])
    have hfacts : facts' = facts := by
      have hencard := hwork.encard_facts
      simp only [← Bool.eq_iff_iff] at hencard
      exact (Set.ncard_def _).trans (by rw [hencard, ENat.toNat_natCast])
    rw [hderivations, hfacts]
    exact hwork.stats
  · have halike : Alike rules count count' Valid Valid' (engine, s) (engine, t) :=
      ⟨hbooked, hbooked', fun f _ => (hfalse f).trans (hfalse' f).symm, hcollecting, hcollecting, rfl⟩
    exact (halike.runAll hrules h h' hacyclic hcalls).stats

/-! ### Another order -/

/-- A store that lists consequences the other way round. -/
structure Reversed (σ : Type) where
  store : σ

namespace Reversed

variable {σ φ δ : Type} [Deductive σ φ]

instance : Deductive (Reversed σ) φ where
  kind reversed := Deductive.kind reversed.store
  holds reversed := Deductive.holds reversed.store
  counterpart? reversed := Deductive.counterpart? reversed.store
  justify reversed fact :=
    (⟨(Deductive.justify reversed.store fact).1⟩, (Deductive.justify reversed.store fact).2)
  unjustify reversed fact :=
    (⟨(Deductive.unjustify reversed.store fact).1⟩, (Deductive.unjustify reversed.store fact).2)
  consequences reversed fact := (Deductive.consequences reversed.store fact).reverse
  bound reversed := Deductive.bound reversed.store

/-- The order of consequences is nothing that the engine relies on. -/
theorem respects [DecidableEq φ] {rules : Rules φ δ} {count : σ → φ → ℕ} {Valid : σ → Prop}
    (h : Respects rules count Valid) : Respects rules (fun reversed : Reversed σ => count reversed.store)
      (fun reversed => Valid reversed.store) where
  kind_eq reversed := h.kind_eq reversed.store
  counterpart?_eq reversed := h.counterpart?_eq reversed.store
  observation direction reversed := by
    cases direction with
    | justify => exact h.observation .justify reversed.store
    | unjustify => exact h.observation .unjustify reversed.store
  holds_iff reversed := h.holds_iff reversed.store
  justify reversed := h.justify reversed.store
  unjustify reversed := h.unjustify reversed.store
  consequences reversed fact hvalid := by
    obtain ⟨ds, hnodup, hmem, hmap⟩ := h.consequences reversed.store fact hvalid
    refine ⟨ds.reverse, List.nodup_reverse.2 hnodup, fun d => List.mem_reverse.trans (hmem d), ?_⟩
    rw [List.map_reverse, hmap]
    rfl
  bound reversed := h.bound reversed.store

end Reversed

/-- The sense of the question changes, by two runs, and then all is forced. The first of the two runs stops
four of the five derivations and turns four facts. Listed the other way round, the calls count the
same. -/
theorem Respects.runs_measure_twoWays :
    let calls : List (Call (Fin 6)) := [.justify 2, .justify 0, .justify 1, .forceFalse [4, 1, 2]]
    let before := (Call.runAll {} twoWays [.justify 2, .justify 0]).2
    let after := (Engine.propagate .unjustify {} before 0).2
    {d | ¬((∀ a ∈ twoWays.rulesOf.antecedents d, Deductive.holds before a = true) ↔
        ∀ a ∈ twoWays.rulesOf.antecedents d, Deductive.holds after a = true)}.ncard = 4 ∧
      {f | Deductive.holds before f ≠ Deductive.holds after f}.ncard = 4 ∧
      (Call.runAll {} twoWays calls).1.stats = ⟨8, 8, 10, 14⟩ ∧
      (Call.runAll {} (⟨twoWays⟩ : Reversed (RuleGraph (Fin 6))) calls).1.stats = ⟨8, 8, 10, 14⟩ := by
  intro calls before after
  have hacyclic : twoWays.rulesOf.Acyclic := Rules.acyclic_of_rank (·.val) (by decide)
  have hrules : twoWays.rulesOf.WellFormed := ⟨by decide, by decide, by decide⟩
  have hunder : RuleGraph.Under twoWays twoWays := ⟨rfl, rfl, rfl, by decide⟩
  obtain ⟨-, hruns, hsame⟩ := Respects.runs_measure hrules hacyclic twoWays.respects
    (Reversed.respects twoWays.respects) {} rfl hunder
    (show RuleGraph.Under twoWays (⟨twoWays⟩ : Reversed (RuleGraph (Fin 6))).store from hunder)
    (by decide) (by decide)
    (show ∀ call ∈ calls, twoWays.rulesOf.Allows call by simp [calls, Rules.Allows]; decide)
  have hrun : ⟨.unjustify, 0, before⟩ ∈ Call.allRuns {} twoWays calls := by
    have hopposed : opposed? before 1 = some 0 := by decide
    have hthird (engine : Engine) : ⟨.unjustify, 0, before⟩ ∈ Call.runs engine before (.justify 1) := by
      rw [Call.runs, hopposed]
      exact List.mem_cons_self
    exact List.mem_append_right _ (List.mem_append_right _ (List.mem_append_left _ (hthird _)))
  have hcounted : (Engine.propagate .unjustify {} before 0).1.stats = ⟨0, 5, 4, 4⟩ := by decide
  have htotal : (Call.runAll {} twoWays calls).1.stats = ⟨8, 8, 10, 14⟩ := by decide
  have hmeasured := hcounted.symm.trans (hruns _ hrun {} rfl)
  have henumerated : 4 = 0 + _ := congrArg DerivationStats.enumerated hmeasured
  have htransitions : 4 = 0 + _ := congrArg DerivationStats.transitions hmeasured
  rw [Nat.zero_add] at henumerated htransitions
  exact ⟨henumerated.symm, htransitions.symm, htotal, hsame.symm.trans htotal⟩

end LiveProse
