import LiveProse.Proofs.Deduction.Calls
import Mathlib.Data.Set.Card
import Mathlib.Data.Set.Finite.Range
import Mathlib.Order.WellFounded

/-! Stores of facts under rules that are given once for all. A store that keeps its side counts every
deduction, after every call of the engine, once for each of its derivations that hold; and if no
fact feeds itself, the observations alone decide what else holds, in whatever order the calls came
and consequences were listed (`Respects.holds_eq`). -/

namespace LiveProse

/-- A request to the engine. -/
inductive Call (φ : Type) where
  | justify (fact : φ)
  | unjustify (fact : φ)
  | forceFalse (facts : List φ)

namespace Call

variable {σ φ : Type} [Deductive σ φ]

def run (engine : Engine) (store : σ) : Call φ → Engine × σ
  | justify fact => Engine.justify engine store fact
  | unjustify fact => Engine.unjustify engine store fact
  | forceFalse facts => Engine.forceFalse engine store facts

/-- Calls in order. -/
def runAll (engine : Engine) (store : σ) : List (Call φ) → Engine × σ
  | [] => (engine, store)
  | call :: calls =>
    let (engine, store) := call.run engine store
    runAll engine store calls

theorem run_traced (engine : Engine) (traced : Traced σ φ) (call : Call φ) :
    let after := call.run engine traced
    call.run engine traced.store = (after.1, after.2.store) := by
  cases call with
  | justify fact => exact Traced.justify_eq ..
  | unjustify fact => exact Traced.unjustify_eq ..
  | forceFalse facts => exact Traced.forceFalse_eq ..

theorem runAll_traced (engine : Engine) (traced : Traced σ φ) (calls : List (Call φ)) :
    let after := runAll engine traced calls
    runAll engine traced.store calls = (after.1, after.2.store) := by
  induction calls generalizing engine traced with
  | nil => rfl
  | cons call calls ih =>
    unfold runAll
    rw [run_traced]
    exact ih _ _

end Call

/-- Derivations of facts from facts. -/
structure Rules (φ δ : Type) where
  kind : φ → FactKind
  /-- The other sense of a combined fact. -/
  counterpart? : φ → Option φ
  conclusion : δ → φ
  antecedents : δ → List φ

namespace Rules

variable {φ δ : Type} (rules : Rules φ δ)

/-- Derivations have antecedents and conclude deductions, and the senses of combined facts go in
pairs. -/
structure WellFormed : Prop where
  antecedents_ne_nil : ∀ d, rules.antecedents d ≠ []
  kind_conclusion : ∀ d, rules.kind (rules.conclusion d) = .deduction
  counterpart : ∀ f g, rules.kind f = .combined → rules.counterpart? f = some g →
    g ≠ f ∧ rules.kind g = .combined ∧ rules.counterpart? g = some f

/-- A fact is an antecedent of a derivation of another. -/
def Feeds (f g : φ) : Prop :=
  ∃ d, f ∈ rules.antecedents d ∧ rules.conclusion d = g

/-- No fact feeds itself, directly or through others. -/
def Acyclic : Prop :=
  ∀ f, ¬Relation.TransGen rules.Feeds f f

variable {rules} in
/-- Where derivations go up in a measure, no fact feeds itself. -/
theorem acyclic_of_rank (rank : φ → ℕ)
    (h : ∀ d, ∀ a ∈ rules.antecedents d, rank a < rank (rules.conclusion d)) : rules.Acyclic := by
  have hstep {f g : φ} (hfeeds : rules.Feeds f g) : rank f < rank g := by
    obtain ⟨d, hmem, rfl⟩ := hfeeds
    exact h d f hmem
  have hlt {f g : φ} (hpath : Relation.TransGen rules.Feeds f g) : rank f < rank g := by
    induction hpath with
    | single hfeeds => exact hstep hfeeds
    | tail _ hfeeds ih => exact Nat.lt_trans ih (hstep hfeeds)
  exact fun f hpath => Nat.lt_irrefl _ (hlt hpath)

/-- The calls that may be made: deductions are forced at most. -/
def Allows : Call φ → Prop
  | .justify fact | .unjustify fact => rules.kind fact ≠ .deduction
  | .forceFalse _ => True

/-- The rules as a calculus over stores of any type. -/
def calculus (σ : Type) : Calculus σ φ δ where
  conclusion := rules.conclusion
  antecedents _ := rules.antecedents
  Applies _ _ := True

/-- The derivations of a fact whose antecedents hold. -/
def support (holds : φ → Bool) (fact : φ) : Set δ :=
  {d | rules.conclusion d = fact ∧ ∀ a ∈ rules.antecedents d, holds a = true}

/-- The derivations that a fact is an antecedent of and whose other antecedents hold. -/
def through (holds : φ → Bool) (fact : φ) : Set δ :=
  {d | fact ∈ rules.antecedents d ∧ ∀ a ∈ rules.antecedents d, a = fact ∨ holds a = true}

end Rules

/-- What the engine relies on: a store over some rules, as long as it is in one of its valid states,
sets observations, counts deductions, and lists as consequences of a fact one conclusion for each
derivation that leads through it. -/
structure Respects {σ φ δ : Type} [Deductive σ φ] [DecidableEq φ] (rules : Rules φ δ) (count : σ → φ → ℕ)
    (Valid : σ → Prop) : Prop where
  kind_eq : ∀ s f, Valid s → Deductive.kind s f = rules.kind f
  counterpart?_eq : ∀ s f, Valid s → Deductive.counterpart? s f = rules.counterpart? f
  /-- Changing an observation again makes no difference. -/
  observation : ∀ direction s f, Valid s → rules.kind f ≠ .deduction →
    let after := Engine.change direction s f
    Valid after.1 ∧ after.2 = (Deductive.holds s f != direction.sense) ∧
      (∀ g, Deductive.holds after.1 g = if g = f then direction.sense else Deductive.holds s g) ∧
      ∀ g, rules.kind g = .deduction → count after.1 g = count s g
  holds_iff : ∀ s f, Valid s → rules.kind f = .deduction →
    (Deductive.holds s f = true ↔ 0 < count s f)
  justify : ∀ s f, Valid s → rules.kind f = .deduction →
    let after := Deductive.justify s f
    Valid after.1 ∧ after.2 = (count s f == 0) ∧
      (∀ g, g ≠ f → Deductive.holds after.1 g = Deductive.holds s g) ∧
      ∀ g, rules.kind g = .deduction → count after.1 g = count s g + if g = f then 1 else 0
  unjustify : ∀ s f, Valid s → rules.kind f = .deduction → 0 < count s f →
    let after := Deductive.unjustify s f
    Valid after.1 ∧ after.2 = (count s f == 1) ∧
      (∀ g, g ≠ f → Deductive.holds after.1 g = Deductive.holds s g) ∧
      ∀ g, rules.kind g = .deduction → count after.1 g + (if g = f then 1 else 0) = count s g
  consequences : ∀ s f, Valid s →
    Lists rules.conclusion (Deductive.consequences s f) (rules.through (Deductive.holds s) f)
  bound : ∀ s, Valid s → (Set.range rules.conclusion).ncard < Deductive.bound s

namespace Respects

variable {σ φ δ : Type} [Deductive σ φ] [DecidableEq φ] {rules : Rules φ δ} {count : σ → φ → ℕ}
variable {Valid : σ → Prop} {s : σ} {fact : φ}

/-- A valid store that counts nothing but conclusions. -/
def Sound (rules : Rules φ δ) (count : σ → φ → ℕ) (Valid : σ → Prop) (s : σ) : Prop :=
  Valid s ∧ ∀ f, rules.kind f = .deduction → 0 < count s f → f ∈ Set.range rules.conclusion

/-- The count of deductions. -/
def tally (rules : Rules φ δ) (count : σ → φ → ℕ) (s : σ) (f : φ) : ℕ :=
  if rules.kind f = .deduction then count s f else 0

/-- What a store says about facts without saying whether they hold. -/
def frame (s : σ) : (φ → FactKind) × (φ → Option φ) :=
  (Deductive.kind s, Deductive.counterpart? s)

omit [Deductive σ φ] [DecidableEq φ] in
theorem tally_eq (hkind : rules.kind fact = .deduction) : tally rules count s fact = count s fact :=
  if_pos hkind

/-- The conclusions, each of them once. -/
noncomputable def conclusions [Finite δ] (rules : Rules φ δ) : List φ :=
  (Set.finite_range rules.conclusion).toFinset.toList

omit [Deductive σ φ] [DecidableEq φ] in
theorem mem_conclusions [Finite δ] : fact ∈ conclusions rules ↔ fact ∈ Set.range rules.conclusion := by
  rw [conclusions, Finset.mem_toList, Set.Finite.mem_toFinset]

omit [Deductive σ φ] [DecidableEq φ] in
theorem length_conclusions [Finite δ] (rules : Rules φ δ) :
    (conclusions rules).length = (Set.range rules.conclusion).ncard := by
  rw [conclusions, Finset.length_toList, ← Set.ncard_eq_toFinset_card _ (Set.finite_range _)]

/-- At most one sense of a combined fact holds. -/
def Paired (rules : Rules φ δ) (holds : φ → Bool) : Prop :=
  ∀ f g, rules.kind f = .combined → rules.counterpart? f = some g → ¬(holds f = true ∧ holds g = true)

omit [Deductive σ φ] [DecidableEq φ] in
theorem Paired.mono {holds holds' : φ → Bool} (hpaired : Paired rules holds)
    (hrules : rules.WellFormed)
    (hmono : ∀ f, rules.kind f ≠ .deduction → holds' f = true → holds f = true) :
    Paired rules holds' := by
  rintro f g hf hfg ⟨hholdsf, hholdsg⟩
  obtain ⟨-, hg, -⟩ := hrules.counterpart f g hf hfg
  exact hpaired f g hf hfg ⟨hmono f (by simp [hf]) hholdsf, hmono g (by simp [hg]) hholdsg⟩

/-- A store in which every deduction is counted once for each of its derivations that hold. -/
structure Booked (rules : Rules φ δ) (count : σ → φ → ℕ) (Valid : σ → Prop) (s : σ) : Prop where
  sound : Sound rules count Valid s
  settled : (rules.calculus σ).Settled (tally rules count) s

/-- What holds between calls, of a store and of the steps that led to it. -/
structure Kept (rules : Rules φ δ) (count : σ → φ → ℕ) (Valid : σ → Prop) (traced : Traced σ φ) :
    Prop where
  sound : traced.Sound (tally rules count) (Sound rules count Valid)
  settled : (rules.calculus σ).traced.Settled (fun traced => tally rules count traced.store) traced
  paired : Paired rules (Deductive.holds traced.store)

variable (h : Respects rules count Valid)
include h

theorem frame_eq (hs : Valid s) : frame s = (rules.kind, rules.counterpart?) :=
  Prod.ext (funext fun f => h.kind_eq s f hs) (funext fun f => h.counterpart?_eq s f hs)

/-- A count that goes up by one. -/
theorem shift_justify (hs : Valid s) (hkind : rules.kind fact = .deduction) :
    Shift (tally rules count) frame .justify s fact (Deductive.justify s fact) := by
  obtain ⟨hvalid, hflag, hholds, hcount⟩ := h.justify s fact hs hkind
  have hafter : Deductive.holds (Deductive.justify s fact).1 fact = true := by
    rw [h.holds_iff _ fact hvalid hkind, hcount fact hkind, if_pos rfl]
    exact Nat.succ_pos _
  refine ⟨by rw [h.frame_eq hs, h.frame_eq hvalid], hholds, fun g hg => ?_, fun hturned => ?_,
    fun hstayed => ?_⟩
  · unfold tally
    split_ifs with hded
    · rw [hcount g hded, if_neg hg, Nat.add_zero]
    · rfl
  · refine ⟨?_, hafter⟩
    rw [hflag, beq_iff_eq] at hturned
    rw [Direction.sense, Bool.not_true, ← Bool.not_eq_true, h.holds_iff s fact hs hkind, hturned]
    exact Nat.lt_irrefl 0
  · rw [hflag, beq_eq_false_iff_ne] at hstayed
    rw [hafter, (h.holds_iff s fact hs hkind).2 (Nat.pos_of_ne_zero hstayed)]

/-- A count that goes down by one. -/
theorem shift_unjustify (hs : Valid s) (hkind : rules.kind fact = .deduction)
    (hpos : 0 < count s fact) :
    Shift (tally rules count) frame .unjustify s fact (Deductive.unjustify s fact) := by
  obtain ⟨hvalid, hflag, hholds, hcount⟩ := h.unjustify s fact hs hkind hpos
  have hbefore := (h.holds_iff s fact hs hkind).2 hpos
  have hone := hcount fact hkind
  rw [if_pos rfl] at hone
  refine ⟨by rw [h.frame_eq hs, h.frame_eq hvalid], hholds, fun g hg => ?_, fun hturned => ?_,
    fun hstayed => ?_⟩
  · unfold tally
    split_ifs with hded
    · rw [← hcount g hded, if_neg hg, Nat.add_zero]
    · rfl
  · refine ⟨hbefore, ?_⟩
    rw [hflag, beq_iff_eq] at hturned
    rw [Direction.sense, ← Bool.not_eq_true, h.holds_iff _ fact hvalid hkind]
    omega
  · rw [hflag, beq_eq_false_iff_ne] at hstayed
    rw [hbefore, h.holds_iff _ fact hvalid hkind]
    omega

/-- Changes of observations are sound. -/
theorem sets (direction : Direction) (hkind : rules.kind fact ≠ .deduction) :
    Sets (tally rules count) (Sound rules count Valid) frame direction
      (rules.kind, rules.counterpart?) fact := by
  rintro s ⟨hs, hconclusions⟩ -
  obtain ⟨hvalid, hflag, hholds, hcount⟩ := h.observation direction s fact hs hkind
  have hafter := hholds fact
  rw [if_pos rfl] at hafter
  refine ⟨⟨hvalid, fun g hg hpos => hconclusions g hg (hcount g hg ▸ hpos)⟩,
    ⟨by rw [h.frame_eq hs, h.frame_eq hvalid], fun g hg => by rw [hholds, if_neg hg],
      fun g _ => ?_, fun hturned => ?_, fun hstayed => ?_⟩, hafter⟩
  · unfold tally
    split_ifs with hded
    · exact hcount g hded
    · rfl
  · rw [hflag, bne_iff_ne] at hturned
    exact ⟨Bool.eq_not.2 hturned, hafter⟩
  · rw [hflag] at hstayed
    rw [hafter, ← bne_eq_false_iff_eq.1 hstayed]

/-- A store under rules keeps the engine's contract. -/
theorem contract [Finite δ] (hrules : rules.WellFormed) :
    Contract (rules.calculus σ) (tally rules count) (Sound rules count Valid) frame
      (fun _ => conclusions rules) where
  kind_conclusion s d hs := (h.kind_eq s _ hs.1).trans (hrules.kind_conclusion d)
  framed s t hframe := ⟨rfl, rfl, fun f => congrFun (congrArg Prod.fst hframe) f⟩
  holds_iff s f hs hkind := by
    rw [h.kind_eq s f hs.1] at hkind
    rw [tally_eq hkind]
    exact h.holds_iff s f hs.1 hkind
  lists s f hs := (h.consequences s f hs.1).congr (by simp [Rules.through, Calculus.through, Rules.calculus])
  justify s f hs hkind hsupport := by
    rw [h.kind_eq s f hs.1] at hkind
    obtain ⟨hvalid, -, -, hcount⟩ := h.justify s f hs.1 hkind
    refine ⟨⟨hvalid, fun g hg hpos => ?_⟩, h.shift_justify hs.1 hkind, ?_⟩
    · by_cases hgf : g = f
      · obtain ⟨d, hd, -⟩ := hsupport
        exact ⟨d, hd.trans hgf.symm⟩
      · rw [hcount g hg, if_neg hgf, Nat.add_zero] at hpos
        exact hs.2 g hg hpos
    · rw [tally_eq hkind, tally_eq hkind, hcount f hkind, if_pos rfl]
  unjustify s f hs hkind hpos := by
    rw [h.kind_eq s f hs.1] at hkind
    rw [tally_eq hkind] at hpos
    obtain ⟨hvalid, -, -, hcount⟩ := h.unjustify s f hs.1 hkind hpos
    refine ⟨⟨hvalid, fun g hg hpos' => hs.2 g hg ?_⟩, h.shift_unjustify hs.1 hkind hpos, ?_⟩
    · have := hcount g hg
      omega
    · rw [tally_eq hkind, tally_eq hkind, ← hcount f hkind, if_pos rfl]
  conceived s f hs hkind hholds := by
    rw [h.kind_eq s f hs.1] at hkind
    exact mem_conclusions.2 (hs.2 f hkind ((h.holds_iff s f hs.1 hkind).1 hholds))
  length_lt s hs := by
    rw [length_conclusions]
    exact h.bound s hs.1

/-! ### Runs -/

variable {traced : Traced σ φ}

theorem sets_traced (direction : Direction) (hs : Valid traced.store)
    (hkind : rules.kind fact ≠ .deduction) :
    Sets (fun traced : Traced σ φ => tally rules count traced.store)
      (Traced.Sound (tally rules count) (Sound rules count Valid))
      (fun traced => frame traced.store) direction (frame traced.store) fact := by
  rw [h.frame_eq hs]
  exact (h.sets direction hkind).traced fun s hs _ => by rwa [h.kind_eq s fact hs.1]

/-- A call leaves things as they should be. -/
theorem run_kept [Finite δ] (hrules : rules.WellFormed) (engine : Engine) (hkept : Kept rules count Valid traced)
    {call : Call φ} (hcall : rules.Allows call) :
    Kept rules count Valid (call.run engine traced).2 := by
  have hcontract := (h.contract hrules).traced
  have hs := hkept.sound.1.1
  have hkinds : ∀ f, Deductive.kind traced f = rules.kind f := fun f => h.kind_eq _ f hs
  cases call with
  | justify fact =>
    have hother (other : φ) (hkind : rules.kind fact = .combined)
        (hcounter : rules.counterpart? fact = some other) := hrules.counterpart _ _ hkind hcounter
    obtain ⟨engine', t, heq, hsound, -, hsettled, hobserved⟩ :=
      hcontract.justify_sets engine hkept.sound hkept.settled (hkinds fact ▸ hcall)
        (h.sets_traced .justify hs hcall) fun other hkind hcounter => by
          rw [hkinds] at hkind
          rw [Traced.counterpart?_eq, h.counterpart?_eq _ _ hs] at hcounter
          obtain ⟨hne, hcombined, -⟩ := hother other hkind hcounter
          have hded : rules.kind other ≠ .deduction := by simp [hcombined]
          exact ⟨hne, hkinds other ▸ hded, h.sets_traced .unjustify hs hded⟩
    rw [Call.run, heq]
    refine ⟨hsound, hsettled, fun f g hf hfg => ?_⟩
    obtain ⟨hne, hg, hgf⟩ := hrules.counterpart f g hf hfg
    have hholdsf := hobserved f (by rw [hkinds, hf]; simp)
    have hholdsg := hobserved g (by rw [hkinds, hg]; simp)
    rw [hkinds, Traced.counterpart?_eq, h.counterpart?_eq _ _ hs] at hholdsf hholdsg
    change ¬(Deductive.holds t f = true ∧ Deductive.holds t g = true)
    rw [hholdsf, hholdsg]
    -- of two facts that exclude each other, justifying one has retracted the other
    have hbefore := hkept.paired f g hf hfg
    by_cases h1 : f = fact
    · subst h1
      simp [hne, hf, hfg]
    · by_cases h2 : g = fact
      · subst h2
        simp [h1, hg, hgf]
      · simp only [h1, h2, if_false]
        split_ifs
        · simp
        · simp
        · simp
        · exact hbefore
  | unjustify fact =>
    obtain ⟨engine', t, heq, hsound, -, hsettled, hobserved⟩ :=
      hcontract.unjustify_sets engine hkept.sound hkept.settled (hkinds fact ▸ hcall)
        (h.sets_traced .unjustify hs hcall)
    rw [Call.run, heq]
    refine ⟨hsound, hsettled, hkept.paired.mono hrules fun f hf hholds => ?_⟩
    rw [← Traced.holds_eq, hobserved f (hkinds f ▸ hf)] at hholds
    split_ifs at hholds
    exact hholds
  | forceFalse facts =>
    obtain ⟨engine', t, heq, hsound, -, hsettled, hobserved⟩ :=
      hcontract.forceFalse_sets engine hkept.sound hkept.settled fun fact _ hfact =>
        h.sets_traced .unjustify hs (hkinds fact ▸ hfact)
    rw [Call.run, heq]
    refine ⟨hsound, hsettled, hkept.paired.mono hrules fun f hf hholds => ?_⟩
    rw [← Traced.holds_eq, hobserved f (hkinds f ▸ hf)] at hholds
    split_ifs at hholds
    exact hholds

theorem runAll_kept [Finite δ] (hrules : rules.WellFormed) (engine : Engine) {calls : List (Call φ)}
    (hkept : Kept rules count Valid traced) (hcalls : ∀ call ∈ calls, rules.Allows call) :
    Kept rules count Valid (Call.runAll engine traced calls).2 := by
  induction calls generalizing engine traced with
  | nil => exact hkept
  | cons call calls ih =>
    exact ih _ (h.run_kept hrules engine hkept (hcalls call List.mem_cons_self))
      fun other hother => hcalls other (List.mem_cons_of_mem _ hother)

/-- A store in which nothing holds is as it should be. -/
theorem kept_of_false (hrules : rules.WellFormed) (hs : Valid s)
    (hfalse : ∀ f, Deductive.holds s f = false) : Kept rules count Valid (⟨s, []⟩ : Traced σ φ) := by
  have hzero (f : φ) (hf : rules.kind f = .deduction) : count s f = 0 := by
    have hnot := mt (h.holds_iff s f hs hf).2 (by rw [hfalse]; simp)
    omega
  refine ⟨⟨⟨hs, fun f hf hpos => ?_⟩, by simp⟩, fun f hf => ?_, fun f g _ _ hboth => ?_⟩
  · rw [hzero f hf] at hpos
    exact absurd hpos (Nat.lt_irrefl 0)
  · replace hf : rules.kind f = .deduction := (h.kind_eq s f hs).symm.trans hf
    change _ = ((tally rules count s f : ℕ) : ℕ∞)
    rw [tally_eq hf, hzero f hf, Nat.cast_zero, Set.encard_eq_zero, Set.eq_empty_iff_forall_notMem]
    rintro d ⟨-, -, hall⟩
    obtain ⟨a, ha⟩ := List.exists_mem_of_ne_nil _ (hrules.antecedents_ne_nil d)
    have := hall a ha
    rw [Traced.holds_eq, hfalse a] at this
    cases this
  · exact Bool.noConfusion ((hfalse f).symm.trans hboth.1)

omit h [DecidableEq φ] in
theorem Kept.booked (hkept : Kept rules count Valid traced) : Booked rules count Valid traced.store :=
  ⟨hkept.sound.1, hkept.settled⟩

/-- What the count of a deduction comes to. -/
theorem ncard_support_of_booked (hbooked : Booked rules count Valid s)
    (hkind : rules.kind fact = .deduction) :
    (rules.support (Deductive.holds s) fact).ncard = count s fact := by
  have hsettled := hbooked.settled fact ((h.kind_eq _ fact hbooked.sound.1).trans hkind)
  have hsupport : (rules.calculus σ).support s fact = rules.support (Deductive.holds s) fact := by
    simp [Calculus.support, Calculus.Holding, Rules.calculus, Rules.support]
  rw [hsupport, tally_eq hkind] at hsettled
  rw [Set.ncard_def, hsettled, ENat.toNat_natCast]

theorem ncard_support (hkept : Kept rules count Valid traced)
    (hkind : rules.kind fact = .deduction) :
    (rules.support (Deductive.holds traced.store) fact).ncard = count traced.store fact :=
  h.ncard_support_of_booked hkept.booked hkind

omit h [Deductive σ φ] [DecidableEq φ] in
theorem wellFounded_feeds [Finite φ] (hacyclic : rules.Acyclic) : WellFounded rules.Feeds := by
  have hirrefl : Std.Irrefl (Relation.TransGen rules.Feeds) := ⟨hacyclic⟩
  have htrans : IsTrans φ (Relation.TransGen rules.Feeds) :=
    ⟨fun _ _ _ => Relation.TransGen.trans⟩
  exact Subrelation.wf (fun hfeeds => Relation.TransGen.single hfeeds)
    (Finite.wellFounded_of_trans_of_irrefl (Relation.TransGen rules.Feeds))

/-- Where no fact feeds itself, the observations decide what holds. -/
theorem holds_eq_of_booked [Finite φ] [Finite δ] {τ : Type} [Deductive τ φ] {count' : τ → φ → ℕ}
    {Valid' : τ → Prop} (h' : Respects rules count' Valid') (hacyclic : rules.Acyclic) {t : τ}
    (hs : Booked rules count Valid s) (ht : Booked rules count' Valid' t)
    (hobserved : ∀ f, rules.kind f ≠ .deduction → Deductive.holds s f = Deductive.holds t f) (f : φ) :
    Deductive.holds s f = Deductive.holds t f := by
  induction f using (wellFounded_feeds hacyclic).induction with
  | _ f ih =>
    by_cases hf : rules.kind f = .deduction
    · have hsupport : rules.support (Deductive.holds s) f = rules.support (Deductive.holds t) f := by
        ext d
        refine and_congr_right fun hd => forall₂_congr fun a ha => ?_
        rw [ih a ⟨d, ha, hd⟩]
      rw [Bool.eq_iff_iff, h.holds_iff _ f hs.sound.1 hf, h'.holds_iff _ f ht.sound.1 hf,
        ← h.ncard_support_of_booked hs hf, ← h'.ncard_support_of_booked ht hf, hsupport]
    · exact hobserved f hf

theorem holds_eq [Finite φ] [Finite δ] {τ : Type} [Deductive τ φ] {count' : τ → φ → ℕ}
    {Valid' : τ → Prop} (h' : Respects rules count' Valid') (hacyclic : rules.Acyclic)
    {traced' : Traced τ φ} (hkept : Kept rules count Valid traced)
    (hkept' : Kept rules count' Valid' traced')
    (hobserved : ∀ f, rules.kind f ≠ .deduction →
      Deductive.holds traced.store f = Deductive.holds traced'.store f) (f : φ) :
    Deductive.holds traced.store f = Deductive.holds traced'.store f :=
  h.holds_eq_of_booked h' hacyclic hkept.booked hkept'.booked hobserved f

end Respects

end LiveProse
