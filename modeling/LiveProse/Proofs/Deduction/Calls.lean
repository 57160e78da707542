import LiveProse.Proofs.Deduction.Steps

/-! What whole calls of the engine do to a store that keeps the contract. The deductions end as they
are counted, and of the observations only those change that the call is about. -/

namespace LiveProse

namespace Calculus

variable {σ φ δ : Type} [Deductive σ φ]

/-- The same derivations over a store that notes its changes. -/
def traced (c : Calculus σ φ δ) : Calculus (Traced σ φ) φ δ where
  conclusion := c.conclusion
  antecedents traced := c.antecedents traced.store
  Applies traced := c.Applies traced.store

end Calculus

/-- A step between sound stores that uncounts no deduction that is not counted. -/
structure Step.Kept {σ φ : Type} [Deductive σ φ] (count : σ → φ → ℕ) (Sound : σ → Prop)
    (step : Step σ φ) : Prop where
  before : Sound step.before
  after : Sound step.after
  counted : Deductive.kind step.before step.fact = .deduction → step.direction = .unjustify →
    0 < count step.before step.fact

/-- A sound store that was reached by steps that are as they should be. -/
def Traced.Sound {σ φ : Type} [Deductive σ φ] (count : σ → φ → ℕ) (Sound : σ → Prop)
    (traced : Traced σ φ) : Prop :=
  Sound traced.store ∧ ∀ step ∈ traced.steps, step.Kept count Sound

/-- In stores of a frame, a change of the fact in the direction is sound and makes the fact what it
should become. -/
def Sets {σ φ γ : Type} [Deductive σ φ] (count : σ → φ → ℕ) (Sound : σ → Prop) (frame : σ → γ)
    (direction : Direction) (framed : γ) (fact : φ) : Prop :=
  ∀ s, Sound s → frame s = framed →
    Sound (Engine.change direction s fact).1 ∧
      Shift count frame direction s fact (Engine.change direction s fact) ∧
      Deductive.holds (Engine.change direction s fact).1 fact = direction.sense

variable {σ φ δ γ : Type} [Deductive σ φ]
variable {c : Calculus σ φ δ} {count : σ → φ → ℕ} {Sound : σ → Prop} {frame : σ → γ}
variable {conceivable : γ → List φ} {direction : Direction} {s : σ} {fact : φ}

/-! ### Noting changes -/

theorem Shift.traced {traced : Traced σ φ} (h : Shift count frame direction traced.store fact
      (Engine.change direction traced.store fact)) :
    Shift (fun traced : Traced σ φ => count traced.store) (fun traced => frame traced.store)
      direction traced fact (traced.change direction fact) :=
  ⟨h.frame_eq, h.holds_eq, h.count_eq, h.turned, h.stayed⟩

theorem Sets.traced {framed : γ} (h : Sets count Sound frame direction framed fact)
    (hkind : ∀ s : σ, Sound s → frame s = framed → Deductive.kind s fact ≠ .deduction) :
    Sets (fun traced : Traced σ φ => count traced.store) (Traced.Sound count Sound)
      (fun traced => frame traced.store) direction framed fact := by
  rintro traced ⟨hsound, hsteps⟩ hframe
  obtain ⟨hsound', hshift, hholds⟩ := h traced.store hsound hframe
  rw [Traced.change_eq]
  refine ⟨⟨hsound', fun step hstep => ?_⟩, hshift.traced, hholds⟩
  rcases List.mem_cons.1 hstep with rfl | hstep
  · exact ⟨hsound, hsound', fun hded => absurd hded (hkind _ hsound hframe)⟩
  · exact hsteps step hstep

namespace Contract

/-- Noting its changes keeps a store to the contract. -/
theorem traced (h : Contract c count Sound frame conceivable) :
    Contract c.traced (fun traced : Traced σ φ => count traced.store) (Traced.Sound count Sound)
      (fun traced => frame traced.store) conceivable where
  kind_conclusion traced d hsound := h.kind_conclusion traced.store d hsound.1
  framed s t hframe := by
    obtain ⟨happlies, hantecedents, hkinds⟩ := h.framed s.store t.store hframe
    exact ⟨happlies, hantecedents, hkinds⟩
  holds_iff traced fact hsound hkind := h.holds_iff traced.store fact hsound.1 hkind
  lists traced fact hsound := h.lists traced.store fact hsound.1
  justify traced fact hsound hkind hsupport := by
    obtain ⟨hsound', hshift, hcount⟩ := h.justify traced.store fact hsound.1 hkind hsupport
    refine ⟨⟨hsound', fun step hstep => ?_⟩, @Shift.traced σ φ γ _ _ _ .justify _ traced hshift, hcount⟩
    rcases List.mem_cons.1 hstep with rfl | hstep
    · exact ⟨hsound.1, hsound', fun _ hdirection => Direction.noConfusion hdirection⟩
    · exact hsound.2 step hstep
  unjustify traced fact hsound hkind hpos := by
    obtain ⟨hsound', hshift, hcount⟩ := h.unjustify traced.store fact hsound.1 hkind hpos
    refine ⟨⟨hsound', fun step hstep => ?_⟩, @Shift.traced σ φ γ _ _ _ .unjustify _ traced hshift, hcount⟩
    rcases List.mem_cons.1 hstep with rfl | hstep
    · exact ⟨hsound.1, hsound', fun _ _ => hpos⟩
    · exact hsound.2 step hstep
  conceived traced fact hsound hkind hholds := h.conceived traced.store fact hsound.1 hkind hholds
  length_lt traced hsound := h.length_lt traced.store hsound.1

/-! ### Calls -/

variable [DecidableEq φ] (h : Contract c count Sound frame conceivable)
include h

/-- A run that begins with an observation changes no other. -/
theorem propagate_sets (engine : Engine) (hsound : Sound s) (hsettled : c.Settled count s)
    (hkind : Deductive.kind s fact ≠ .deduction)
    (hsets : Sets count Sound frame direction (frame s) fact) :
    ∃ engine' s', Engine.propagate direction engine s fact = (engine', s') ∧ Sound s' ∧
      frame s' = frame s ∧ c.Settled count s' ∧
      ∀ a, Deductive.kind s a ≠ .deduction →
        Deductive.holds s' a = if a = fact then direction.sense else Deductive.holds s a := by
  obtain ⟨hsound', hshift, hholds⟩ := hsets s hsound rfl
  obtain ⟨engine', s', heq, hsound'', ⟨hframe, hobserved⟩, hsettled'⟩ :=
    h.propagate_spec engine hsound hsettled hkind hshift hsound'
  refine ⟨engine', s', heq, hsound'', hframe.trans hshift.frame_eq, hsettled', fun a ha => ?_⟩
  rw [hobserved a ((h.framed _ _ hshift.frame_eq).2.2 a ▸ ha)]
  split_ifs with hfact
  · rw [hfact, hholds]
  · exact hshift.holds_eq a hfact

/-- Making an observation true makes its other sense false. -/
theorem justify_sets (engine : Engine) (hsound : Sound s) (hsettled : c.Settled count s)
    (hkind : Deductive.kind s fact ≠ .deduction)
    (hsets : Sets count Sound frame .justify (frame s) fact)
    (hother : ∀ other, Deductive.kind s fact = .combined →
      Deductive.counterpart? s fact = some other → other ≠ fact ∧
        Deductive.kind s other ≠ .deduction ∧
        Sets count Sound frame .unjustify (frame s) other) :
    ∃ engine' s', Engine.justify engine s fact = (engine', s') ∧ Sound s' ∧
      frame s' = frame s ∧ c.Settled count s' ∧
      ∀ a, Deductive.kind s a ≠ .deduction → Deductive.holds s' a =
        if a = fact then true
        else if Deductive.kind s fact = .combined ∧ Deductive.counterpart? s fact = some a then false
        else Deductive.holds s a := by
  unfold Engine.justify
  dsimp only
  cases hfilter : Option.filter (Deductive.holds s)
      (if Deductive.kind s fact = .combined then Deductive.counterpart? s fact else none) with
  | none =>
    obtain ⟨engine', s', heq, hsound', hframe, hsettled', hobserved⟩ :=
      h.propagate_sets engine hsound hsettled hkind hsets
    refine ⟨engine', s', heq, hsound', hframe, hsettled', fun a ha => ?_⟩
    rw [hobserved a ha]
    refine if_congr Iff.rfl rfl ?_
    split_ifs with hcounter
    · -- the other sense does not hold, or it would have been made false first
      rw [if_pos hcounter.1, hcounter.2] at hfilter
      simpa [Option.filter] using hfilter
    · rfl
  | some other =>
    obtain ⟨hsome, hholds⟩ := Option.filter_eq_some_iff.1 hfilter
    split_ifs at hsome with hcombined
    · obtain ⟨hne, hkind', hsets'⟩ := hother other hcombined hsome
      obtain ⟨engine₁, s₁, heq₁, hsound₁, hframe₁, hsettled₁, hobserved₁⟩ :=
        h.propagate_sets engine hsound hsettled hkind' hsets'
      have hkinds := (h.framed _ _ hframe₁).2.2
      obtain ⟨engine₂, s₂, heq₂, hsound₂, hframe₂, hsettled₂, hobserved₂⟩ :=
        h.propagate_sets engine₁ hsound₁ hsettled₁ (hkinds fact ▸ hkind) (hframe₁.symm ▸ hsets)
      refine ⟨engine₂, s₂, ?_, hsound₂, hframe₂.trans hframe₁, hsettled₂, fun a ha => ?_⟩
      · dsimp only
        rw [heq₁]
        exact heq₂
      · rw [hobserved₂ a (hkinds a ▸ ha), hobserved₁ a ha]
        refine if_congr Iff.rfl rfl (if_congr ?_ rfl rfl)
        rw [hsome, and_iff_right hcombined, Option.some.injEq, eq_comm]

theorem unjustify_sets (engine : Engine) (hsound : Sound s) (hsettled : c.Settled count s)
    (hkind : Deductive.kind s fact ≠ .deduction)
    (hsets : Sets count Sound frame .unjustify (frame s) fact) :
    ∃ engine' s', Engine.unjustify engine s fact = (engine', s') ∧ Sound s' ∧
      frame s' = frame s ∧ c.Settled count s' ∧
      ∀ a, Deductive.kind s a ≠ .deduction →
        Deductive.holds s' a = if a = fact then false else Deductive.holds s a :=
  h.propagate_sets engine hsound hsettled hkind hsets

/-- Making facts false makes the observations among them false and no others. -/
theorem forceFalse_sets (engine : Engine) {facts : List φ} (hsound : Sound s)
    (hsettled : c.Settled count s)
    (hsets : ∀ fact ∈ facts, Deductive.kind s fact ≠ .deduction →
      Sets count Sound frame .unjustify (frame s) fact) :
    ∃ engine' s', Engine.forceFalse engine s facts = (engine', s') ∧ Sound s' ∧
      frame s' = frame s ∧ c.Settled count s' ∧
      ∀ a, Deductive.kind s a ≠ .deduction →
        Deductive.holds s' a = if a ∈ facts then false else Deductive.holds s a := by
  unfold Engine.forceFalse
  induction facts generalizing engine s with
  | nil => exact ⟨engine, s, rfl, hsound, rfl, hsettled, fun a _ => by simp⟩
  | cons fact facts ih =>
    rw [List.foldl_cons]
    have hrest := fun other hmem => hsets other (List.mem_cons_of_mem fact hmem)
    dsimp only
    split_ifs with hcond
    · obtain ⟨engine₁, s₁, heq₁, hsound₁, hframe₁, hsettled₁, hobserved₁⟩ :=
        h.propagate_sets engine hsound hsettled hcond.1 (hsets fact List.mem_cons_self hcond.1)
      have hkinds := (h.framed _ _ hframe₁).2.2
      obtain ⟨engine₂, s₂, heq₂, hsound₂, hframe₂, hsettled₂, hobserved₂⟩ :=
        ih engine₁ hsound₁ hsettled₁ fun other hmem hkind =>
          hframe₁.symm ▸ hrest other hmem (hkinds other ▸ hkind)
      refine ⟨engine₂, s₂, by rw [heq₁]; exact heq₂, hsound₂, hframe₂.trans hframe₁, hsettled₂,
        fun a ha => ?_⟩
      rw [hobserved₂ a (hkinds a ▸ ha), hobserved₁ a ha]
      by_cases hfact : a = fact
      · simp [hfact, Direction.sense]
      · simp [hfact]
    · obtain ⟨engine₂, s₂, heq₂, hsound₂, hframe₂, hsettled₂, hobserved₂⟩ :=
        ih engine hsound hsettled hrest
      refine ⟨engine₂, s₂, heq₂, hsound₂, hframe₂, hsettled₂, fun a ha => ?_⟩
      rw [hobserved₂ a ha]
      by_cases hfact : a = fact
      · -- what was passed over did not hold
        subst hfact
        rw [not_and, Bool.not_eq_true] at hcond
        simp [hcond ha]
      · simp [hfact]

end Contract

end LiveProse
