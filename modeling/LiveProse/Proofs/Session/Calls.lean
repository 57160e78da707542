import LiveProse.Proofs.Session.Phases

/-! What the calls of a session do to its chart. They keep it settled along an order of its sites, make
the facts they are about what they should be, and change no other observation; and every step of the
engine on the way is sound. -/

namespace LiveProse

namespace Chart

variable {position : BufferId → Site → ℕ} {chart : Chart} {fact : Fact}
variable {framed : Grammar × Vocabulary ×
  List (BufferId × BufferKind × TokenSequence × List (Site × SiteInfo))}

/-- A chart of a frame that is settled along an order of its sites, with certain observations. -/
structure Shows (position : BufferId → Site → ℕ) (framed : Grammar × Vocabulary ×
      List (BufferId × BufferKind × TokenSequence × List (Site × SiteInfo)))
    (observed : Fact → Bool) (chart : Chart) : Prop where
  ordered : chart.Ordered position
  frame : chart.skeleton = framed
  settled : table.Settled count chart
  observed : ∀ fact, kind fact ≠ .deduction → chart.holds fact = observed fact

/-- Every observation can be made false. -/
theorem sets_not (hkind : kind fact ≠ .deduction) :
    Sets count (Ordered position) skeleton .unjustify framed fact := by
  cases fact with
  | production id => exact sets_not_production
  | available id handle => exact sets_not_available
  | next id source target => exact sets_not_next
  | endOfSentence id site positive => exact sets_not_endOfSentence
  | potential | complete => exact absurd rfl hkind

/-- The other sense of a fact is an observation of its own. -/
theorem counterpart?_eq_some {other : Fact} (h : counterpart? fact = some other) :
    other ≠ fact ∧ kind other ≠ .deduction ∧ kind fact = .combined := by
  cases fact with
  | endOfSentence id site positive =>
    obtain rfl := Option.some.inj h
    refine ⟨?_, FactKind.noConfusion, rfl⟩
    cases positive <;> simp
  | _ => cases h

end Chart

theorem Step.Kept.mono {σ φ : Type} [Deductive σ φ] {count : σ → φ → ℕ} {P Q : σ → Prop}
    {step : Step σ φ} (h : step.Kept count P) (hPQ : ∀ s, P s → Q s) : step.Kept count Q :=
  ⟨hPQ _ h.before, hPQ _ h.after, h.counted⟩

/-- Phases lead to a session of a kind, through steps of the engine that are sound. -/
structure Reaches (session : Session) (phases : List Phase) (P : Session → Prop) : Prop where
  result : P (Phase.runAll session phases)
  steps : ∀ step ∈ Phase.stepsAll session phases, step.Kept Chart.count Chart.Sound

namespace Reaches

variable {session : Session} {phases more : List Phase} {P Q : Session → Prop}

theorem nil (h : P session) : Reaches session [] P := ⟨h, by simp [Phase.stepsAll]⟩

theorem mono (h : Reaches session phases P) (hPQ : ∀ s, P s → Q s) : Reaches session phases Q :=
  ⟨hPQ _ h.result, h.steps⟩

theorem append (h : Reaches session phases P) (hmore : ∀ s, P s → Reaches s more Q) :
    Reaches session (phases ++ more) Q := by
  have hrest := hmore _ h.result
  refine ⟨Phase.runAll_append ▸ hrest.result, fun step hstep => ?_⟩
  rw [Phase.stepsAll_append] at hstep
  rcases List.mem_append.1 hstep with hstep | hstep
  · exact h.steps step hstep
  · exact hrest.steps step hstep

theorem cons {phase : Phase} (h : Reaches session [phase] P) (hmore : ∀ s, P s → Reaches s more Q) :
    Reaches session (phase :: more) Q :=
  h.append hmore

/-- A change that goes past the engine takes no steps of it. -/
theorem alter {change : Session → Session} (h : P (change session)) :
    Reaches session [.alter change] P :=
  ⟨h, by simp [Phase.stepsAll, Phase.steps]⟩

open Chart

variable {position : BufferId → Site → ℕ} {observed : Fact → Bool} {facts : List Fact}
variable {framed : Grammar × Vocabulary ×
  List (BufferId × BufferKind × TokenSequence × List (Site × SiteInfo))}

theorem call (request : Call Fact) {engine : Engine} {traced : Traced Chart Fact}
    (heq : request.run session.engine (⟨session.chart, []⟩ : Traced Chart Fact) = (engine, traced))
    (hsound : traced.Sound count (Ordered position)) {R : Chart → Prop} (hR : R traced.store) :
    Reaches session [.call request] (fun after => R after.chart) := by
  have hrun := Call.run_traced session.engine (⟨session.chart, []⟩ : Traced Chart Fact) request
  rw [heq] at hrun
  refine ⟨?_, fun step hstep => ?_⟩
  · change R (request.run session.engine session.chart).2
    rw [hrun]
    exact hR
  · have hsteps : step ∈ traced.steps := by
      simp only [Phase.stepsAll, Phase.steps, List.append_nil, List.mem_reverse] at hstep
      change step ∈ (request.run session.engine (⟨session.chart, []⟩ : Traced Chart Fact)).2.steps
        at hstep
      rwa [heq] at hstep
    exact (hsound.2 step hsteps).mono fun _ h => h.sound

/-- The chart with an empty list of changes. -/
theorem traced_sound (h : session.chart.Shows position framed observed) :
    (⟨session.chart, []⟩ : Traced Chart Fact).Sound count (Ordered position) :=
  ⟨h.ordered, by simp⟩

theorem forceFalse (h : session.chart.Shows position framed observed) (facts : List Fact) :
    Reaches session [.call (.forceFalse facts)] fun after =>
      after.chart.Shows position framed fun a => if a ∈ facts then false else observed a := by
  obtain ⟨engine, traced, heq, hsound, hframe, hsettled, hobserved⟩ :=
    (ordered_contract position).traced.forceFalse_sets session.engine (traced_sound h) h.settled
      fun fact (_ : fact ∈ facts) hkind => (sets_not hkind).traced fun _ _ _ => hkind
  refine call (.forceFalse facts) heq hsound
    ⟨hsound.1, hframe.trans h.frame, hsettled, fun a ha => ?_⟩
  refine (hobserved a ha).trans ?_
  split_ifs
  · rfl
  · exact h.observed a ha

theorem unjustify (h : session.chart.Shows position framed observed)
    (hkinds : ∀ fact ∈ facts, kind fact ≠ .deduction) :
    Reaches session (Phase.unjustify facts) fun after =>
      after.chart.Shows position framed fun a => if a ∈ facts then false else observed a := by
  induction facts generalizing session observed with
  | nil => exact nil (by simpa using h)
  | cons fact facts ih =>
    have hkind := hkinds fact List.mem_cons_self
    obtain ⟨engine, traced, heq, hsound, hframe, hsettled, hobserved⟩ :=
      (ordered_contract position).traced.unjustify_sets session.engine (traced_sound h) h.settled
        hkind ((sets_not hkind).traced fun _ _ _ => hkind)
    have hfirst : Reaches session [.call (.unjustify fact)] fun after =>
        after.chart.Shows position framed fun a => if a = fact then false else observed a := by
      refine call (.unjustify fact) heq hsound
        ⟨hsound.1, hframe.trans h.frame, hsettled, fun a ha => ?_⟩
      refine (hobserved a ha).trans ?_
      split_ifs
      · rfl
      · exact h.observed a ha
    refine (hfirst.cons fun s hs =>
      ih hs fun other hmem => hkinds other (List.mem_cons_of_mem _ hmem)).mono fun s hs => ?_
    refine ⟨hs.ordered, hs.frame, hs.settled, fun a ha => (hs.observed a ha).trans ?_⟩
    by_cases hfact : a = fact <;> by_cases hmem : a ∈ facts <;> simp [hfact, hmem]

/-- Facts are made true whose other sense is neither held nor asked for. -/
theorem justify (h : session.chart.Shows position framed observed)
    (hsets : ∀ fact ∈ facts, kind fact ≠ .deduction ∧
      Sets count (Ordered position) skeleton .justify framed fact)
    (hother : ∀ fact ∈ facts, ∀ other, counterpart? fact = some other →
      observed other = false ∧ other ∉ facts) :
    Reaches session (Phase.justify facts) fun after =>
      after.chart.Shows position framed fun a => decide (a ∈ facts) || observed a := by
  induction facts generalizing session observed with
  | nil => exact nil (by simpa using h)
  | cons fact facts ih =>
    obtain ⟨hkind, hset⟩ := hsets fact List.mem_cons_self
    obtain ⟨engine, traced, heq, hsound, hframe, hsettled, hobserved⟩ :=
      (ordered_contract position).traced.justify_sets session.engine (traced_sound h) h.settled
        hkind ((h.frame.symm ▸ hset).traced fun _ _ _ => hkind) fun other _ hcounter => by
          obtain ⟨hne, hkind', -⟩ := counterpart?_eq_some hcounter
          exact ⟨hne, hkind', (sets_not hkind').traced fun _ _ _ => hkind'⟩
    have hfirst : Reaches session [.call (.justify fact)] fun after =>
        after.chart.Shows position framed fun a => decide (a = fact) || observed a := by
      refine call (.justify fact) heq hsound
        ⟨hsound.1, hframe.trans h.frame, hsettled, fun a ha => ?_⟩
      refine (hobserved a ha).trans ?_
      split_ifs with hfact hcounter
      · simp [hfact]
      · obtain ⟨hheld, -⟩ := hother fact List.mem_cons_self a hcounter.2
        simp [hfact, hheld]
      · rw [decide_eq_false hfact, Bool.false_or]
        exact h.observed a ha
    refine (hfirst.cons fun s hs => ih hs
      (fun other hmem => hsets other (List.mem_cons_of_mem _ hmem)) fun other hmem third hthird => ?_).mono
        fun s hs => ?_
    · obtain ⟨hheld, hnot⟩ := hother other (List.mem_cons_of_mem _ hmem) third hthird
      rw [List.mem_cons, not_or] at hnot
      exact ⟨by simp [hheld, hnot.1], hnot.2⟩
    · refine ⟨hs.ordered, hs.frame, hs.settled, fun a ha => (hs.observed a ha).trans ?_⟩
      by_cases hfact : a = fact <;> by_cases hmem : a ∈ facts <;> simp [hfact, hmem]

end Reaches

end LiveProse
