import LiveProse.Proofs.Session.Histories

/-! No match is derived from itself, be it through other matches: counts of derivations can be relied on
because the derivations of matches never run in a circle. The names of the grammar have an order in which
a production that takes in one thing alone goes up, and everything else that a derivation does makes a
match end later, or longer, or fills one more of its slots. -/

namespace LiveProse

/-- A fact keeps to whatever follows from an order that it keeps to. -/
theorem Fact.Along.imp {edge span edge' span' : BufferId → Site → Site → Prop} {fact : Fact}
    (h : fact.Along edge span)
    (hedge : ∀ id source target, fact.buffer? = some id → edge id source target →
      edge' id source target)
    (hspan : ∀ id first last, fact.buffer? = some id → span id first last → span' id first last) :
    fact.Along edge' span' := by
  cases fact with
  | next id source target => exact hedge id source target rfl h
  | potential key | complete key => exact hspan _ _ _ rfl h
  | _ => trivial

/-! ### Grammars of sessions -/

theorem Chart.Reframes.reached {chart framed : Chart} {command : Command}
    (h : chart.Reframes command framed) (hold : chart.grammar.Reached) : framed.grammar.Reached := by
  cases h with
  | defined hvalid => exact hold.define hvalid
  | removed hget => exact hold.undefine (Grammar.undefine_eq hget)
  | _ => exact hold

/-- The grammar of a session comes about by productions that pass the checks. -/
theorem Session.reached_performAll {session : Session} (h : session.chart.Current)
    (hold : session.grammar.Reached) (history : List Command) :
    (session.performAll history).grammar.Reached := by
  induction history generalizing session with
  | nil => exact hold
  | cons command history ih =>
    obtain ⟨hcurrent, framed, hframed, hskeleton⟩ := (reaches_phases h command).result
    rw [← session.perform_eq command] at hcurrent hskeleton
    have hgrammar : (session.perform command).grammar = framed.grammar := congrArg (·.1) hskeleton
    exact ih hcurrent (hgrammar ▸ hframed.reached hold)

namespace Chart

variable {chart : Chart} {id : BufferId} {fact : Fact}
variable {before : Site → Site → Prop} {sites : Finset Site} {a b : Site}

/-! ### The order of the sites as numbers -/

/-- How many of some sites come before a site. -/
noncomputable def height (sites : Finset Site) (before : Site → Site → Prop) (site : Site) : ℕ :=
  {c | c ∈ sites ∧ before c site}.ncard

theorem finite_below (sites : Finset Site) (before : Site → Site → Prop) (site : Site) :
    {c | c ∈ sites ∧ before c site}.Finite :=
  sites.finite_toSet.subset fun _ hc => hc.1

theorem height_le [IsStrictOrder Site before] (h : before a b) :
    height sites before a ≤ height sites before b :=
  Set.ncard_le_ncard (fun _ hc => ⟨hc.1, Trans.trans hc.2 h⟩) (finite_below sites before b)

theorem height_lt [IsStrictOrder Site before] (ha : a ∈ sites) (h : before a b) :
    height sites before a < height sites before b := by
  refine Set.ncard_lt_ncard ⟨fun _ hc => ⟨hc.1, Trans.trans hc.2 h⟩, fun hsubset => ?_⟩
    (finite_below sites before b)
  exact irrefl_of before a (hsubset ⟨ha, h⟩).2

/-- Only finitely many sites have an edge to another one. -/
theorem exists_sources (chart : Chart) (id : BufferId) : ∃ sites : Finset Site,
    ∀ source target, chart.holds (.next id source target) = true → source ∈ sites := by
  cases hbuffer : chart.buffer? id with
  | none =>
    refine ⟨∅, fun source target hnext => ?_⟩
    rw [holds_of_buffer?_none rfl hbuffer] at hnext
    cases hnext
  | some buffer =>
    refine ⟨(buffer.records.map Prod.fst).toFinset, fun source target hnext => ?_⟩
    rw [holds_of_buffer? rfl hbuffer] at hnext
    obtain ⟨record, hrecord, -⟩ := (Option.any_eq_true _ _).1 hnext
    rw [List.mem_toFinset, ← Buffer.hasRecord_iff]
    exact Option.isSome_iff_exists.2 ⟨record, hrecord⟩

/-! ### What supports what -/

/-- In one buffer, a match is among the antecedents of a derivation of another. The edges of the
derivation hold, and its matches do not end before they begin; about other antecedents nothing is
said. -/
def Supports (chart : Chart) (id : BufferId) (before : Site → Site → Prop)
    (fact conclusion : Fact) : Prop :=
  kind fact = .deduction ∧ ∃ d, table.Applies chart d ∧ d.buffer = id ∧
    fact ∈ chart.antecedents d ∧ d.conclusion = conclusion ∧
    ∀ a ∈ chart.antecedents d, a.Along (fun id source target => chart.holds (.next id source target))
      fun _ first last => first = last ∨ before first last

/-- What can be derived at all has edges that hold, and does not end before it begins. -/
theorem along_of_derivable [IsStrictOrder Site before]
    (hlinear : ∀ source target, chart.holds (.next id source target) = true → before source target)
    (h : table.Derivable chart fact) :
    fact.Along (fun id source target => chart.holds (.next id source target))
      fun other first last => other = id → first = last ∨ before first last := by
  induction h with
  | @observed fact hkind hholds =>
    cases fact with
    | next => exact hholds
    | potential | complete => exact absurd rfl hkind
    | _ => trivial
  | derived happlies _ ih =>
    refine along_conclusion (fun _ _ _ => .inl rfl) ?_ happlies ih
    rintro other a b c d hfirst hedge hlast rfl
    -- the edge in between leads on
    have hlt := hlinear b c hedge
    have hlt : before a c := (hfirst rfl).elim (fun heq => heq ▸ hlt) fun h => Trans.trans h hlt
    exact .inr ((hlast rfl).elim (fun heq => heq ▸ hlt) fun h => Trans.trans hlt h)

/-- Support goes up in the order of matches, along any order of the sites that the edges follow. -/
theorem wellFounded_supports [IsStrictOrder Site before] (hnames : chart.grammar.UnitOrdered)
    (hlinear : ∀ source target, chart.holds (.next id source target) = true → before source target) :
    WellFounded (chart.Supports id before) := by
  obtain ⟨names, hnames⟩ := hnames
  obtain ⟨sites, hsites⟩ := chart.exists_sources id
  have hrank : ∀ fact conclusion, chart.Supports id before fact conclusion →
      chart.rank names (fun _ => height sites before) fact <
        chart.rank names (fun _ => height sites before) conclusion := by
    rintro fact conclusion ⟨hkind, d, happlies, rfl, hmem, rfl, halong⟩
    refine rank_lt_of_along (fun a ha => ?_) hnames happlies hmem hkind
    refine (halong a ha).imp (fun other source target hother hedge => ?_)
      fun other first last hother hspan => ?_
    · rw [eq_buffer_of_mem_antecedents happlies ha hother] at hedge
      exact height_lt (hsites source target hedge) (hlinear source target hedge)
    · rcases hspan with rfl | hlt
      · exact Nat.le_refl _
      · exact height_le hlt
  exact Subrelation.wf (fun {_ _} h => hrank _ _ h) (InvImage.wf _ wellFounded_rank)

/-- What can be derived rests on support alone. -/
theorem supports_of_derivable [IsStrictOrder Site before] {d : Derivation}
    (hlinear : ∀ source target, chart.holds (.next id source target) = true → before source target)
    (happlies : table.Applies chart d) (hid : d.buffer = id)
    (hderivable : ∀ a ∈ chart.antecedents d, table.Derivable chart a)
    (hmem : fact ∈ chart.antecedents d) (hkind : kind fact = .deduction) :
    chart.Supports id before fact d.conclusion := by
  subst hid
  refine ⟨hkind, d, happlies, rfl, hmem, rfl, fun a ha => ?_⟩
  refine (along_of_derivable hlinear (hderivable a ha)).imp (fun _ _ _ _ hedge => hedge)
    fun other first last hother hspan => hspan ?_
  exact eq_buffer_of_mem_antecedents happlies ha hother

/-- In the chart of a session, the consequences that the engine lists for a match that holds are
supported by it. -/
theorem Current.supports [IsStrictOrder Site before] (h : chart.Current) {conclusion : Fact}
    (hlinear : ∀ source target, chart.holds (.next id source target) = true → before source target)
    (hid : fact.buffer? = some id) (hkind : kind fact = .deduction) (hholds : chart.holds fact = true)
    (hmem : conclusion ∈ chart.consequences fact) : chart.Supports id before fact conclusion := by
  obtain ⟨d, ⟨happlies, hthrough, hothers⟩, rfl⟩ :=
    (h.ordered.sound.lists_consequences fact).mem_facts hmem
  have hbuffer := (eq_buffer_of_mem_antecedents happlies hthrough hid).symm
  refine supports_of_derivable hlinear happlies hbuffer (fun a ha => ?_) hthrough hkind
  refine (h.ordered.holds_iff_derivable h.settled h.unitOrdered a).1 ?_
  exact (hothers a ha).elim (fun heq => heq ▸ hholds) fun hheld => hheld

/-- In every grammar that comes about by productions that pass the checks and by removals, and in every
buffer whose edges follow an order of its sites, support is well founded: no match supports itself,
directly or through others. Everything that can be derived rests on such support alone. -/
theorem nothing_supports_itself [IsStrictOrder Site before] (hreached : chart.grammar.Reached)
    (hlinear : ∀ source target, chart.holds (.next id source target) = true → before source target) :
    WellFounded (chart.Supports id before) ∧
      (∀ fact, ¬Relation.TransGen (chart.Supports id before) fact fact) ∧
      ∀ d, table.Applies chart d → d.buffer = id →
        (∀ a ∈ chart.antecedents d, table.Derivable chart a) →
        ∀ fact ∈ chart.antecedents d, kind fact = .deduction →
          chart.Supports id before fact d.conclusion := by
  have hwf := wellFounded_supports hreached.unitOrdered hlinear
  refine ⟨hwf, fun fact hcircle => hwf.transGen.irrefl.irrefl fact hcircle, ?_⟩
  intro d happlies hid hderivable fact hmem hkind
  exact supports_of_derivable hlinear happlies hid hderivable hmem hkind

/-- In the sentence of a word and a full stop, the word as its first part supports the two as a match,
and nothing supports itself. -/
theorem nothing_supports_itself_wordAndStop :
    let chart := ((Session.new {}).performAll Session.wordAndStop).chart
    let before : Site → Site → Prop := fun a b => chart.position ⟨0⟩ a < chart.position ⟨0⟩ b
    chart.Supports ⟨0⟩ before (.potential ⟨⟨0⟩, ⟨0⟩, 1, ⟨0, 0⟩, ⟨0, 0⟩⟩)
        (.potential ⟨⟨0⟩, ⟨0⟩, 2, ⟨0, 0⟩, ⟨1, 0⟩⟩) ∧
      ∀ fact, ¬Relation.TransGen (chart.Supports ⟨0⟩ before) fact fact := by
  intro chart before
  have hcurrent : chart.Current :=
    (Session.reaches_history (Session.current_new {}) Session.wordAndStop).1
  have hreached : chart.grammar.Reached :=
    Session.reached_performAll (Session.current_new {}) .empty Session.wordAndStop
  have hlinear : ∀ source target, chart.holds (.next ⟨0⟩ source target) = true →
      before source target := hcurrent.ordered.aligned ⟨0⟩
  have hbefore : IsStrictOrder Site before :=
    { irrefl := fun a => Nat.lt_irrefl _, trans := fun a b c => Nat.lt_trans }
  obtain ⟨-, hnone, -⟩ := nothing_supports_itself hreached hlinear
  refine ⟨hcurrent.supports hlinear rfl rfl ?_ ?_, hnone⟩
  · decide +kernel
  · decide +kernel

end Chart

/-- After any history, what the engine derives from the matches that hold never leads back to them. -/
theorem Session.performAll_wellFounded (config : SessionConfig) (history : List Command) :
    let chart := ((new config).performAll history).chart
    WellFounded fun fact conclusion => Chart.kind fact = .deduction ∧ chart.holds fact = true ∧
      conclusion ∈ chart.consequences fact := by
  intro chart
  have h : chart.Current := (reaches_history (current_new config) history).1
  obtain ⟨names, hnames⟩ := h.unitOrdered
  have hrank : ∀ fact conclusion, (Chart.kind fact = .deduction ∧ chart.holds fact = true ∧
      conclusion ∈ chart.consequences fact) →
      chart.rank names chart.position fact < chart.rank names chart.position conclusion := by
    rintro fact conclusion ⟨hkind, hholds, hmem⟩
    obtain ⟨d, ⟨happlies, hthrough, hothers⟩, rfl⟩ :=
      (h.ordered.sound.lists_consequences fact).mem_facts hmem
    have hd : Chart.table.Holding chart d := ⟨happlies, fun a ha =>
      (hothers a ha).elim (fun heq => heq ▸ hholds) fun hheld => hheld⟩
    exact Chart.rank_lt h.ordered.aligned h.ordered.spanned hnames hd hthrough hkind
  exact Subrelation.wf (fun {_ _} h => hrank _ _ h) (InvImage.wf _ Chart.wellFounded_rank)

end LiveProse
