import LiveProse.Proofs.Deduction.Exactness

/-!
Runs of the engine come to an end. A fact that changes its truth in a run does not change back in it, so
a run changes the truth of finitely many facts, and between two changes only facts that wait are taken.
Neither depends on the derivations: a fact may feed itself, and its consequences may be listed over and
over again.
-/

namespace LiveProse

open Deductive

/-- What a store has to keep so that runs end: a change of a fact leaves all others as they are and goes
in its direction or nowhere, the flag tells which, and consequences are of finitely many facts. -/
structure OneWay {σ φ : Type} [Deductive σ φ] (Valid : σ → Prop) (concluded : Finset φ) : Prop where
  valid : ∀ direction s f, Valid s → Valid (Engine.change direction s f).1
  others : ∀ direction s f g, Valid s → g ≠ f →
    holds (Engine.change direction s f).1 g = holds s g
  own : ∀ direction s f, Valid s → holds (Engine.change direction s f).1 f ≠ holds s f →
    holds (Engine.change direction s f).1 f = direction.sense
  flag : ∀ direction s f, Valid s →
    ((Engine.change direction s f).2 = true ↔ holds (Engine.change direction s f).1 f ≠ holds s f)
  consequences : ∀ s f, Valid s → ∀ g ∈ Deductive.consequences s f, g ∈ concluded

namespace Engine

variable {σ φ : Type} [Deductive σ φ]

/-- The loop of a run, without any limit: from the facts that wait to nothing that waits. -/
inductive Empties (direction : Direction) : Engine → σ → List φ → Engine → σ → Prop where
  | done {engine : Engine} {store : σ} : Empties direction engine store [] engine store
  | stay {engine engine' : Engine} {store store' store'' : σ} {fact : φ} {waiting : List φ} :
    change direction store fact = (store', false) →
      Empties direction (engine.record (·.addStep direction)) store' waiting engine' store'' →
        Empties direction engine store (fact :: waiting) engine' store''
  | turn {engine engine' : Engine} {store store' store'' : σ} {fact : φ} {waiting : List φ} :
    change direction store fact = (store', true) →
      Empties direction
          ((engine.record (·.addStep direction)).record
            (·.addTransition (Deductive.consequences store' fact).length)) store'
          (Deductive.consequences store' fact ++ waiting) engine' store'' →
        Empties direction engine store (fact :: waiting) engine' store''

variable {direction : Direction} {engine engine₁ engine₂ : Engine} {s s₁ s₂ : σ} {waiting : List φ}

/-- The loop comes to one end at most. -/
theorem Empties.unique (h : Empties direction engine s waiting engine₁ s₁)
    (h' : Empties direction engine s waiting engine₂ s₂) : engine₂ = engine₁ ∧ s₂ = s₁ := by
  induction h with
  | done =>
    cases h'
    exact ⟨rfl, rfl⟩
  | stay hchange _ ih =>
    cases h' with
    | stay hchange' hrest =>
      rw [hchange] at hchange'
      cases hchange'
      exact ih hrest
    | turn hchange' _ =>
      rw [hchange] at hchange'
      cases hchange'
  | turn hchange _ ih =>
    cases h' with
    | stay hchange' _ =>
      rw [hchange] at hchange'
      cases hchange'
    | turn hchange' hrest =>
      rw [hchange] at hchange'
      cases hchange'
      exact ih hrest

/-- Taking waiting facts until one changes its truth is a part of the loop. -/
theorem empties_of_settle (direction : Direction) (engine : Engine) (s : σ) (waiting : List φ) :
    match settle direction engine s waiting with
    | (engine', s', none) => Empties direction engine s waiting engine' s'
    | (engine', s', some (turned, rest)) => ∀ engine'' s'', Empties direction
        (engine'.record (·.addTransition (Deductive.consequences s' turned).length)) s'
        (Deductive.consequences s' turned ++ rest) engine'' s'' →
          Empties direction engine s waiting engine'' s'' := by
  induction waiting generalizing engine s with
  | nil => exact .done
  | cons fact waiting ih =>
    rw [settle]
    cases hchange : change direction s fact with
    | mk s' flag =>
      cases flag with
      | true => exact fun _ _ => .turn hchange
      | false =>
        have hrest := ih (engine.record (·.addStep direction)) s'
        dsimp only
        generalize settle direction (engine.record (·.addStep direction)) s' waiting = answer at hrest
        obtain ⟨engine', s'', next⟩ := answer
        cases next with
        | none => exact .stay hchange hrest
        | some next => exact fun _ _ hempties => .stay hchange (hrest _ _ hempties)

/-- A run that leaves nothing waiting goes through the whole loop. -/
theorem empties_of_run {budget : ℕ} (h : run direction budget engine s waiting = (engine₁, s₁, [])) :
    Empties direction engine s waiting engine₁ s₁ := by
  induction budget generalizing engine s waiting with
  | zero =>
    cases h
    exact .done
  | succ budget ih =>
    have hsettle := empties_of_settle direction engine s waiting
    rw [run] at h
    generalize settle direction engine s waiting = answer at h hsettle
    obtain ⟨engine', s', next⟩ := answer
    cases next with
    | none =>
      cases h
      exact hsettle
    | some next => exact hsettle _ _ (ih h)

/-- The other sense of a combined fact, if it holds and so has to be made false first. -/
def opposed? (store : σ) (fact : φ) : Option φ :=
  (if kind store fact = .combined then counterpart? store fact else none).filter (holds store)

end Engine

open Engine

/-- A call whose loops all come to their ends. -/
inductive Call.Ends {σ φ : Type} [Deductive σ φ] : Engine → σ → Call φ → Engine → σ → Prop where
  | justify {engine engine' : Engine} {s s' : σ} {fact : φ} : opposed? s fact = none →
    Empties .justify engine s [fact] engine' s' → Ends engine s (.justify fact) engine' s'
  | justifyOpposed {engine engine' engine'' : Engine} {s s' s'' : σ} {fact other : φ} :
    opposed? s fact = some other → Empties .unjustify engine s [other] engine' s' →
      Empties .justify engine' s' [fact] engine'' s'' → Ends engine s (.justify fact) engine'' s''
  | unjustify {engine engine' : Engine} {s s' : σ} {fact : φ} :
    Empties .unjustify engine s [fact] engine' s' → Ends engine s (.unjustify fact) engine' s'
  | forceNone {engine : Engine} {s : σ} : Ends engine s (.forceFalse []) engine s
  | forcePass {engine engine' : Engine} {s s' : σ} {fact : φ} {facts : List φ} :
    ¬(kind s fact ≠ .deduction ∧ holds s fact = true) →
      Ends engine s (.forceFalse facts) engine' s' →
        Ends engine s (.forceFalse (fact :: facts)) engine' s'
  | forceNext {engine engine' engine'' : Engine} {s s' s'' : σ} {fact : φ} {facts : List φ} :
    kind s fact ≠ .deduction ∧ holds s fact = true → Empties .unjustify engine s [fact] engine' s' →
      Ends engine' s' (.forceFalse facts) engine'' s'' →
        Ends engine s (.forceFalse (fact :: facts)) engine'' s''

/-- A call comes to one end at most. -/
theorem Call.Ends.unique {σ φ : Type} [Deductive σ φ] {engine engine₁ engine₂ : Engine} {s s₁ s₂ : σ}
    {call : Call φ} (h : call.Ends engine s engine₁ s₁) (h' : call.Ends engine s engine₂ s₂) :
    engine₂ = engine₁ ∧ s₂ = s₁ := by
  induction h with
  | justify hnone hrun =>
    cases h' with
    | justify _ hrun' => exact hrun.unique hrun'
    | justifyOpposed hsome => rw [hnone] at hsome; cases hsome
  | justifyOpposed hsome hfirst hrun =>
    cases h' with
    | justify hnone => rw [hsome] at hnone; cases hnone
    | justifyOpposed hsome' hfirst' hrun' =>
      cases hsome.symm.trans hsome'
      obtain ⟨rfl, rfl⟩ := hfirst.unique hfirst'
      exact hrun.unique hrun'
  | unjustify hrun =>
    cases h' with
    | unjustify hrun' => exact hrun.unique hrun'
  | forceNone =>
    cases h'
    exact ⟨rfl, rfl⟩
  | forcePass hpass _ ih =>
    cases h' with
    | forcePass _ hrest => exact ih hrest
    | forceNext hforced => exact absurd hforced hpass
  | forceNext hforced hrun _ ih =>
    cases h' with
    | forcePass hpass => exact absurd hforced hpass
    | forceNext _ hrun' hrest =>
      obtain ⟨rfl, rfl⟩ := hrun.unique hrun'
      exact ih hrest

namespace OneWay

variable {σ φ : Type} [Deductive σ φ] {Valid : σ → Prop} {concluded facts : Finset φ}
variable {direction : Direction} {s : σ} {fact : φ} {waiting : List φ}

/-- How many of some facts can still change their truth in a direction. -/
def room (direction : Direction) (facts : Finset φ) (s : σ) : ℕ :=
  (facts.filter fun f => holds s f ≠ direction.sense).card

variable (h : OneWay Valid concluded)
include h

theorem still_of_change (hs : Valid s) {f : φ}
    (hafter : holds (change direction s fact).1 f ≠ direction.sense) : holds s f ≠ direction.sense := by
  by_cases hfact : f = fact
  · subst hfact
    intro hbefore
    refine hafter (h.own direction s f hs fun hsame => hafter (hsame.trans hbefore))
  · rwa [h.others direction s fact f hs hfact] at hafter

/-- No change makes room. -/
theorem room_change_le (direction : Direction) (hs : Valid s) (fact : φ) (facts : Finset φ) :
    room direction facts (change direction s fact).1 ≤ room direction facts s :=
  Finset.card_le_card (Finset.monotone_filter_right facts fun _ _ => h.still_of_change hs)

/-- A change of truth takes up room. -/
theorem room_change_lt (direction : Direction) (hs : Valid s) (hfact : fact ∈ facts)
    (hflag : (change direction s fact).2 = true) :
    room direction facts (change direction s fact).1 < room direction facts s := by
  have hchanged := (h.flag direction s fact hs).1 hflag
  have hafter := h.own direction s fact hs hchanged
  refine Finset.card_lt_card (Finset.ssubset_iff_subset_ne.2
    ⟨Finset.monotone_filter_right facts fun _ _ => h.still_of_change hs, fun heq => ?_⟩)
  have hmem : fact ∈ facts.filter fun f => holds s f ≠ direction.sense :=
    Finset.mem_filter.2 ⟨hfact, fun hbefore => hchanged (hafter.trans hbefore.symm)⟩
  rw [← heq] at hmem
  exact (Finset.mem_filter.1 hmem).2 hafter

/-- When waiting facts are taken until one changes its truth, there is less room afterwards. -/
theorem settle_spec (direction : Direction) (engine : Engine) (hs : Valid s)
    (hwaiting : ∀ f ∈ waiting, f ∈ facts) :
    ∃ engine' s' next, settle direction engine s waiting = (engine', s', next) ∧ Valid s' ∧
      ∀ turned rest, next = some (turned, rest) →
        (∀ f ∈ rest, f ∈ facts) ∧ room direction facts s' < room direction facts s := by
  induction waiting generalizing engine s with
  | nil => exact ⟨engine, s, none, rfl, hs, nofun⟩
  | cons fact waiting ih =>
    obtain ⟨hfact, hwaiting⟩ := List.forall_mem_cons.1 hwaiting
    have hvalid := h.valid direction s fact hs
    have hle := h.room_change_le direction hs fact facts
    have hlt := h.room_change_lt direction hs hfact
    rw [settle]
    cases hchange : change direction s fact with
    | mk s' flag =>
      rw [hchange] at hvalid hle hlt
      cases flag with
      | true =>
        refine ⟨_, s', _, rfl, hvalid, fun turned rest hnext => ?_⟩
        obtain ⟨rfl, rfl⟩ := Prod.mk.inj (Option.some.inj hnext)
        exact ⟨hwaiting, hlt rfl⟩
      | false =>
        obtain ⟨engine', s'', next, heq, hvalid', hnext⟩ :=
          ih (engine.record (·.addStep direction)) hvalid hwaiting
        refine ⟨engine', s'', next, heq, hvalid', fun turned rest hsome => ?_⟩
        obtain ⟨hrest, hroom⟩ := hnext turned rest hsome
        exact ⟨hrest, hroom.trans_le hle⟩

/-- A run that may change the truth of more facts than can still change leaves nothing waiting. -/
theorem run_spec {budget : ℕ} (engine : Engine) (hs : Valid s) (hconcluded : concluded ⊆ facts)
    (hwaiting : ∀ f ∈ waiting, f ∈ facts) (hroom : room direction facts s < budget) :
    ∃ engine' s', run direction budget engine s waiting = (engine', s', []) ∧ Valid s' := by
  -- the number of facts that wait is no measure: a turn may put any number of them in front, but each
  -- turn leaves less room, and between two turns `settle` goes down the list
  induction budget generalizing engine s waiting with
  | zero => exact absurd hroom (Nat.not_lt_zero _)
  | succ budget ih =>
    obtain ⟨engine', s', next, heq, hvalid, hnext⟩ :=
      h.settle_spec direction engine hs hwaiting
    rw [run, heq]
    cases next with
    | none => exact ⟨engine', s', rfl, hvalid⟩
    | some next =>
      obtain ⟨turned, rest⟩ := next
      obtain ⟨hrest, hlt⟩ := hnext turned rest rfl
      have hall : ∀ f ∈ Deductive.consequences s' turned ++ rest, f ∈ facts := by
        intro f hf
        rcases List.mem_append.1 hf with hf | hf
        · exact hconcluded (h.consequences s' turned hvalid f hf)
        · exact hrest f hf
      exact ih (engine'.record (·.addTransition (Deductive.consequences s' turned).length)) hvalid hall
        (by omega)

/-- The loop that begins with one fact comes to an end, which is what a run within the bound of the
store answers. -/
theorem propagate_spec (direction : Direction) (engine : Engine) (hs : Valid s) (fact : φ) :
    ∃ engine' s', Empties direction engine s [fact] engine' s' ∧ Valid s' ∧
      (concluded.card < bound s → propagate direction engine s fact = (engine', s')) := by
  classical
  let facts := insert fact concluded
  have hfacts : concluded ⊆ facts := Finset.subset_insert _ _
  have hwaiting : ∀ f ∈ [fact], f ∈ facts := by simp [facts]
  obtain ⟨engine', s', hends, hvalid⟩ :=
    h.run_spec engine hs hfacts hwaiting (Nat.lt_succ_self (room direction facts s))
  refine ⟨engine', s', empties_of_run hends, hvalid, fun hbound => ?_⟩
  have hroom : room direction facts s < bound s + 1 := by
    calc room direction facts s
      _ ≤ facts.card := Finset.card_filter_le _ _
      _ ≤ concluded.card + 1 := Finset.card_insert_le _ _
      _ < bound s + 1 := Nat.succ_lt_succ hbound
  obtain ⟨engine'', s'', hrun, -⟩ := h.run_spec engine hs hfacts hwaiting hroom
  obtain ⟨rfl, rfl⟩ := (empties_of_run hends).unique (empties_of_run hrun)
  rw [propagate, hrun]

theorem justify_spec (engine : Engine) (hs : Valid s) (fact : φ) :
    ∃ engine' s', (Call.justify fact).Ends engine s engine' s' ∧ Valid s' ∧
      ((∀ t, Valid t → concluded.card < bound t) →
        Engine.justify engine s fact = (engine', s')) := by
  cases hopposed : opposed? s fact with
  | none =>
    obtain ⟨engine', s', hempties, hvalid, hrun⟩ := h.propagate_spec .justify engine hs fact
    refine ⟨engine', s', .justify hopposed hempties, hvalid, fun hbound => ?_⟩
    rw [opposed?] at hopposed
    rw [Engine.justify, hopposed]
    exact hrun (hbound s hs)
  | some other =>
    obtain ⟨engine', s', hfirst, hvalid, hrun⟩ := h.propagate_spec .unjustify engine hs other
    obtain ⟨engine'', s'', hnext, hvalid', hrun'⟩ := h.propagate_spec .justify engine' hvalid fact
    refine ⟨engine'', s'', .justifyOpposed hopposed hfirst hnext, hvalid', fun hbound => ?_⟩
    rw [opposed?] at hopposed
    rw [Engine.justify, hopposed]
    simp only [hrun (hbound s hs)]
    exact hrun' (hbound s' hvalid)

theorem forceFalse_spec (engine : Engine) (hs : Valid s) (facts : List φ) :
    ∃ engine' s', (Call.forceFalse facts).Ends engine s engine' s' ∧ Valid s' ∧
      ((∀ t, Valid t → concluded.card < bound t) →
        Engine.forceFalse engine s facts = (engine', s')) := by
  induction facts generalizing engine s with
  | nil => exact ⟨engine, s, .forceNone, hs, fun _ => rfl⟩
  | cons fact facts ih =>
    by_cases hforced : kind s fact ≠ .deduction ∧ holds s fact = true
    · obtain ⟨engine', s', hfirst, hvalid, hrun⟩ := h.propagate_spec .unjustify engine hs fact
      obtain ⟨engine'', s'', hnext, hvalid', hrun'⟩ := ih engine' hvalid
      refine ⟨engine'', s'', .forceNext hforced hfirst hnext, hvalid', fun hbound => ?_⟩
      rw [Engine.forceFalse, List.foldl_cons]
      simp only [if_pos hforced, hrun (hbound s hs)]
      exact hrun' hbound
    · obtain ⟨engine', s', hnext, hvalid, hrun⟩ := ih engine hs
      refine ⟨engine', s', .forcePass hforced hnext, hvalid, fun hbound => ?_⟩
      rw [Engine.forceFalse, List.foldl_cons]
      simp only [if_neg hforced]
      exact hrun hbound

/-- Every call comes to an end with nothing left waiting, and to one end only, whatever the
derivations are: the loops have no limit here. A store whose bound is more than what its derivations
conclude makes the engine answer that end. -/
theorem call_ends (engine : Engine) (hs : Valid s) (call : Call φ) :
    ∃ engine' s', call.Ends engine s engine' s' ∧ Valid s' ∧
      (∀ engine'' s'', call.Ends engine s engine'' s'' → engine'' = engine' ∧ s'' = s') ∧
        ((∀ t, Valid t → concluded.card < bound t) → call.run engine s = (engine', s')) := by
  have hspec : ∃ engine' s', call.Ends engine s engine' s' ∧ Valid s' ∧
      ((∀ t, Valid t → concluded.card < bound t) → call.run engine s = (engine', s')) := by
    cases call with
    | justify fact => exact h.justify_spec engine hs fact
    | unjustify fact =>
      obtain ⟨engine', s', hempties, hvalid, hrun⟩ := h.propagate_spec .unjustify engine hs fact
      exact ⟨engine', s', .unjustify hempties, hvalid, fun hbound => hrun (hbound s hs)⟩
    | forceFalse facts => exact h.forceFalse_spec engine hs facts
  obtain ⟨engine', s', hends, hvalid, hrun⟩ := hspec
  exact ⟨engine', s', hends, hvalid, fun _ _ => hends.unique, hrun⟩

end OneWay

namespace RuleGraph

variable {ν : Type} [DecidableEq ν]

theorem holds_justify (graph : RuleGraph ν) (name other : ν) :
    (graph.justify name).1.holds other = (graph.holds other || decide (other = name)) := by
  rw [Bool.eq_iff_iff]
  simp only [Bool.or_eq_true, decide_eq_true_eq, holds_iff]
  unfold justify
  dsimp only
  split_ifs with hcount
  · rw [Bank.count_acquire]
    split_ifs with hother <;> grind
  · have hheld : 0 < graph.counts.count name := by
      rw [← holds_iff]
      by_contra hne
      exact hcount (.inl (by simpa using hne))
    grind

theorem holds_unjustify (graph : RuleGraph ν) {name other : ν} (hother : other ≠ name) :
    (graph.unjustify name).1.holds other = graph.holds other := by
  rw [Bool.eq_iff_iff, holds_iff, holds_iff]
  change 0 < (graph.counts.release name).count other ↔ _
  rw [Bank.count_release, if_neg hother.symm, Nat.sub_zero]

theorem holds_of_unjustify (graph : RuleGraph ν) {name other : ν}
    (hheld : (graph.unjustify name).1.holds other = true) : graph.holds other = true := by
  rw [holds_iff] at hheld ⊢
  change 0 < (graph.counts.release name).count other at hheld
  rw [Bank.count_release] at hheld
  omega

/-- Rule graphs change their names one way in a run, cyclic ones as well. -/
theorem oneWay (rules : List (Rule ν)) :
    OneWay (fun graph : RuleGraph ν => graph.rules = rules)
      (rules.map (·.conclusion)).toFinset where
  valid direction graph name hrules := by
    cases direction <;> exact hrules
  others direction graph name other _ hother := by
    cases direction with
    | justify =>
      change (graph.justify name).1.holds other = graph.holds other
      rw [holds_justify, decide_eq_false hother, Bool.or_false]
    | unjustify => exact graph.holds_unjustify hother
  own direction graph name _ hchanged := by
    cases direction with
    | justify =>
      change (graph.justify name).1.holds name = true
      rw [holds_justify, decide_eq_true rfl, Bool.or_true]
    | unjustify =>
      change (graph.unjustify name).1.holds name = false
      by_contra hheld
      rw [Bool.not_eq_false] at hheld
      exact hchanged (hheld.trans (graph.holds_of_unjustify hheld).symm)
  flag direction graph name _ := by
    cases direction with
    | justify =>
      change (!graph.holds name) = true ↔ (graph.justify name).1.holds name ≠ graph.holds name
      rw [holds_justify, decide_eq_true rfl, Bool.or_true]
      cases graph.holds name <;> decide
    | unjustify =>
      have hheld : (graph.unjustify name).1.holds name = true → graph.holds name = true :=
        graph.holds_of_unjustify
      change (graph.holds name && !(graph.unjustify name).1.holds name) = true ↔
        (graph.unjustify name).1.holds name ≠ graph.holds name
      revert hheld
      cases graph.holds name <;> cases (graph.unjustify name).1.holds name <;> decide
  consequences graph name hrules other hother := by
    obtain ⟨rule, hrule, rfl⟩ := List.mem_map.1 hother
    rw [← hrules]
    exact List.mem_toFinset.2 (List.mem_map_of_mem (List.mem_filter.1 hrule).1)

theorem card_conclusions_lt_bound (graph : RuleGraph ν) :
    (graph.rules.map (·.conclusion)).toFinset.card < Deductive.bound graph := by
  calc (graph.rules.map (·.conclusion)).toFinset.card
    _ ≤ (graph.rules.map (·.conclusion)).length := List.toFinset_card_le _
    _ = graph.rules.length := List.length_map _
    _ < Deductive.bound graph := Nat.lt_succ_self _

/-- Two names that conclude each other, and one of them itself. -/
def circle : RuleGraph (Fin 4) where
  pairs := [[0, 1]]
  deductions := [2, 3]
  rules := [⟨[0], 2⟩, ⟨[2], 3⟩, ⟨[3], 2⟩, ⟨[3, 2], 3⟩]

/-- The circle when the name outside of it has led into it. -/
def circling : RuleGraph (Fin 4) :=
  (Engine.justify {} circle 0).2

end RuleGraph

/-- The other sense of the name that led into a circle takes its place, and what conclude each other in
the circle go on holding. -/
theorem OneWay.call_ends_circling :
    ∃ engine store, (Call.justify (1 : Fin 4)).Ends {} RuleGraph.circling engine store ∧
      (∀ engine' store', (Call.justify (1 : Fin 4)).Ends {} RuleGraph.circling engine' store' →
        engine' = engine ∧ store' = store) ∧
      (List.finRange 4).map store.holds = [false, true, true, true] := by
  obtain ⟨engine, store, hends, -, hunique, hrun⟩ :=
    (RuleGraph.oneWay RuleGraph.circle.rules).call_ends {} (s := RuleGraph.circling) rfl (.justify 1)
  refine ⟨engine, store, hends, hunique, ?_⟩
  have heq := hrun fun graph hrules => by
    rw [← hrules]
    exact graph.card_conclusions_lt_bound
  have hstore : store = (Engine.justify {} RuleGraph.circling 1).2 := by
    change Engine.justify {} RuleGraph.circling 1 = _ at heq
    rw [heq]
  rw [hstore]
  decide

end LiveProse
