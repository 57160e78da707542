import LiveProse.Proofs.Chart.Observations

/-! What the matches of a buffer depend on: the facts about the buffer, what is known about the sites
of those facts, the productions in use, and what these can begin. A change of the chart that goes
past all of it leaves every derivation that holds as it was, so a chart that is settled stays so. -/

namespace LiveProse

/-- The sites that a fact is about. -/
def Fact.sites : Fact → List Site
  | .available _ handle => [.token handle]
  | .next _ source target => [source, target]
  | .endOfSentence _ site _ => [site]
  | .potential key | .complete key => key.ends
  | .production _ => []

/-- The buffer that a derivation is about. -/
def Derivation.buffer : Derivation → BufferId
  | boundaryToken buffer _ _ _ _ => buffer
  | boundaryMatch _ _ _ inner | underMatch _ _ _ inner => inner.buffer
  | underToken outer _ _ _ => outer.buffer
  | extendToken key _ | extendMatch key _ | skip key | completeWording key | completeAtEnd key
  | completeBefore key _ => key.buffer

theorem Derivation.buffer?_conclusion (d : Derivation) : d.conclusion.buffer? = some d.buffer := by
  cases d <;> rfl

namespace Chart

variable {chart s t : Chart} {id : BufferId} {d : Derivation} {key inner : MatchKey}
variable {production : ProductionId}

/-- Two charts have the same facts about a buffer and know the same about what these are about. -/
structure Agrees (id : BufferId) (s t : Chart) : Prop where
  holds : ∀ fact, fact.buffer? = some id ∨ fact.buffer? = none → t.holds fact = s.holds fact
  count : ∀ fact, fact.buffer? = some id → t.count fact = s.count fact
  info : ∀ fact site, fact.buffer? = some id → s.holds fact = true → site ∈ fact.sites →
    t.info id site = s.info id site
  matched : ∀ key, key.buffer = id → s.holds (.potential key) = true ∨ s.holds (.complete key) = true →
    t.grammar.get? key.production = s.grammar.get? key.production
  used : ∀ production, s.holds (.production production) = true →
    t.grammar.get? production = s.grammar.get? production ∧
    (∀ wanted, t.grammar.Begins wanted production ↔ s.grammar.Begins wanted production) ∧
    (t.grammar.BeginsSentence production ↔ s.grammar.BeginsSentence production)

theorem Agrees.symm (h : Agrees id s t) : Agrees id t s where
  holds fact hid := (h.holds fact hid).symm
  count fact hid := (h.count fact hid).symm
  info fact site hid hholds hsite :=
    (h.info fact site hid ((h.holds fact (.inl hid)).symm.trans hholds) hsite).symm
  matched key hid hholds := by
    have hpotential := h.holds (.potential key) (.inl (congrArg some hid))
    have hcomplete := h.holds (.complete key) (.inl (congrArg some hid))
    rw [hpotential, hcomplete] at hholds
    exact (h.matched key hid hholds).symm
  used production hholds := by
    rw [h.holds _ (.inr rfl)] at hholds
    obtain ⟨hget, hbegins, hsentence⟩ := h.used production hholds
    exact ⟨hget.symm, fun wanted => (hbegins wanted).symm, hsentence.symm⟩

/-! ### Parts of derivations -/

theorem opens_congr (hget : t.grammar.get? production = s.grammar.get? production) :
    t.Opens production = s.Opens production := by
  funext slot accepts first last
  rw [Opens, Opens, hget]

theorem acceptsResult_congr (hget : t.grammar.get? inner.production = s.grammar.get? inner.production) :
    t.acceptsResult inner = s.acceptsResult inner := by
  funext slot
  rw [acceptsResult, acceptsResult, result?, result?, hget]

theorem continues_congr (hget : t.grammar.get? key.production = s.grammar.get? key.production)
    (hbegins : ∀ wanted, t.grammar.Begins wanted production ↔ s.grammar.Begins wanted production) :
    t.Continues key production ↔ s.Continues key production := by
  have hneeds : t.needs key = s.needs key := by rw [needs, needs, hget]
  rw [Continues, Continues, hneeds]
  exact exists_congr fun wanted => and_congr_right fun _ => hbegins wanted

theorem fills_congr (hget : t.grammar.get? key.production = s.grammar.get? key.production)
    (hinfo : t.info key.buffer key.beginningSite = s.info key.buffer key.beginningSite) :
    t.Fills key = s.Fills key := by
  funext accepts last
  rw [Fills, Fills, hget, hinfo]

theorem filled_congr (hget : t.grammar.get? key.production = s.grammar.get? key.production) :
    t.Filled key = s.Filled key := by
  funext endsSentences
  rw [Filled, Filled, hget]

theorem boundary_congr {site : Site} (hinfo : t.info id site = s.info id site) :
    t.boundary id site = s.boundary id site := by
  rw [boundary, boundary, hinfo]

theorem openingGuard_congr (hget : t.grammar.get? key.production = s.grammar.get? key.production)
    (hget' : t.grammar.get? production = s.grammar.get? production)
    (hinfo : t.info key.buffer key.endSite = s.info key.buffer key.endSite) :
    t.openingGuard key production = s.openingGuard key production := by
  rw [openingGuard, openingGuard, endsSentences, endsSentences, endsSentences, endsSentences, hget,
    hget', boundary_congr hinfo]

theorem passingGuard_congr (hget : t.grammar.get? key.production = s.grammar.get? key.production) :
    t.passingGuard key = s.passingGuard key := by
  rw [passingGuard, passingGuard, isPassage, isPassage, hget]

/-- The antecedents are about the buffer of the conclusion, or about productions. -/
theorem buffer?_of_mem_antecedents (happlies : chart.Applies d) {fact : Fact}
    (hmem : fact ∈ chart.antecedents d) : fact.buffer? = some d.buffer ∨ fact.buffer? = none := by
  have hboundary (id : BufferId) (site : Site) (hmem : fact ∈ chart.boundary id site) :
      fact.buffer? = some id := by
    obtain ⟨-, rfl⟩ := mem_boundary.1 hmem
    rfl
  have hopening (outer : MatchKey) (p : ProductionId) (hmem : fact ∈ chart.openingGuard outer p) :
      fact.buffer? = some outer.buffer := by
    obtain ⟨-, -, rfl⟩ := mem_openingGuard.1 hmem
    rfl
  have hpassing (key : MatchKey) (hmem : fact ∈ chart.passingGuard key) :
      fact.buffer? = some key.buffer := by
    obtain ⟨-, rfl⟩ := mem_passingGuard.1 hmem
    rfl
  cases d with
  | boundaryToken id p slot before handle =>
    simp only [antecedents, List.cons_append, List.nil_append, List.mem_cons] at hmem
    rcases hmem with rfl | rfl | rfl | hmem
    · exact .inr rfl
    · exact .inl rfl
    · exact .inl rfl
    · exact .inl (hboundary _ _ hmem)
  | boundaryMatch p slot before inner =>
    simp only [antecedents, List.cons_append, List.nil_append, List.mem_cons] at hmem
    rcases hmem with rfl | rfl | rfl | hmem
    · exact .inr rfl
    · exact .inl rfl
    · exact .inl rfl
    · exact .inl (hboundary _ _ hmem)
  | underToken outer p slot handle =>
    simp only [antecedents, List.cons_append, List.nil_append, List.mem_cons] at hmem
    rcases hmem with rfl | rfl | rfl | rfl | hmem
    · exact .inr rfl
    · exact .inl rfl
    · exact .inl rfl
    · exact .inl rfl
    · exact .inl (hopening _ _ hmem)
  | underMatch outer p slot inner =>
    obtain ⟨hbuffer, -⟩ := happlies
    simp only [antecedents, List.cons_append, List.nil_append, List.mem_cons] at hmem
    change _ = some inner.buffer ∨ _
    rw [hbuffer]
    rcases hmem with rfl | rfl | rfl | rfl | hmem
    · exact .inr rfl
    · exact .inl rfl
    · exact .inl rfl
    · exact .inl (congrArg some hbuffer)
    · exact .inl (hopening _ _ hmem)
  | extendToken key handle =>
    simp only [antecedents, List.cons_append, List.nil_append, List.mem_cons] at hmem
    rcases hmem with rfl | rfl | rfl | hmem
    · exact .inl rfl
    · exact .inl rfl
    · exact .inl rfl
    · exact .inl (hpassing _ hmem)
  | extendMatch key inner =>
    obtain ⟨hbuffer, -⟩ := happlies
    simp only [antecedents, List.cons_append, List.nil_append, List.mem_cons] at hmem
    rcases hmem with rfl | rfl | rfl | hmem
    · exact .inl rfl
    · exact .inl rfl
    · exact .inl (congrArg some hbuffer)
    · exact .inl (hpassing _ hmem)
  | skip key | completeWording key =>
    rw [List.mem_singleton.1 hmem]
    exact .inl rfl
  | completeAtEnd key =>
    simp only [antecedents, List.mem_cons, List.not_mem_nil, or_false] at hmem
    rcases hmem with rfl | rfl <;> exact .inl rfl
  | completeBefore key next =>
    simp only [antecedents, List.mem_cons, List.not_mem_nil, or_false] at hmem
    rcases hmem with rfl | rfl <;> exact .inl rfl

/-- The antecedents that are about a buffer are about the one of the derivation. -/
theorem eq_buffer_of_mem_antecedents (happlies : chart.Applies d) {fact : Fact}
    (hmem : fact ∈ chart.antecedents d) (hid : fact.buffer? = some id) : id = d.buffer := by
  rcases buffer?_of_mem_antecedents happlies hmem with hbuffer | hbuffer <;> rw [hid] at hbuffer
  · exact Option.some.inj hbuffer
  · cases hbuffer

/-! ### Derivations that hold -/

section

variable (h : Agrees id s t) (hd : table.Holding s d)
include h hd

/-- What an antecedent is about is known alike in both charts. -/
theorem Agrees.info_of_antecedent (hid : d.buffer = id) {fact : Fact} (hmem : fact ∈ s.antecedents d)
    {buffer : BufferId} (hbuffer : fact.buffer? = some buffer) {site : Site} (hsite : site ∈ fact.sites) :
    t.info buffer site = s.info buffer site := by
  obtain rfl := (eq_buffer_of_mem_antecedents hd.1 hmem hbuffer).trans hid
  exact h.info fact site hbuffer (hd.2 fact hmem) hsite

theorem Agrees.get?_outer (hid : d.buffer = id) (hmem : .potential key ∈ s.antecedents d) :
    t.grammar.get? key.production = s.grammar.get? key.production :=
  h.matched key ((eq_buffer_of_mem_antecedents hd.1 hmem rfl).trans hid) (.inl (hd.2 _ hmem))

theorem Agrees.get?_inner (hid : d.buffer = id) (hmem : .complete key ∈ s.antecedents d) :
    t.grammar.get? key.production = s.grammar.get? key.production :=
  h.matched key ((eq_buffer_of_mem_antecedents hd.1 hmem rfl).trans hid) (.inr (hd.2 _ hmem))

/-- A derivation that holds has the same antecedents in the other chart, and applies there. -/
theorem Agrees.same (hid : d.buffer = id) : t.antecedents d = s.antecedents d ∧ t.Applies d := by
  have hsites (fact : Fact) (site : Site) (hmem : fact ∈ s.antecedents d) {buffer : BufferId}
      (hbuffer : fact.buffer? = some buffer) (hsite : site ∈ fact.sites) :
      t.info buffer site = s.info buffer site := h.info_of_antecedent hd hid hmem hbuffer hsite
  have houterInfo (key : MatchKey) (hmem : .potential key ∈ s.antecedents d) (site : Site)
      (hsite : site ∈ key.ends) := h.info_of_antecedent hd hid hmem rfl hsite
  have hinnerInfo (key : MatchKey) (hmem : .complete key ∈ s.antecedents d) (site : Site)
      (hsite : site ∈ key.ends) := h.info_of_antecedent hd hid hmem rfl hsite
  have houter (key : MatchKey) (hmem : .potential key ∈ s.antecedents d) := h.get?_outer hd hid hmem
  have hinner (key : MatchKey) (hmem : .complete key ∈ s.antecedents d) := h.get?_inner hd hid hmem
  have hused (p : ProductionId) (hmem : .production p ∈ s.antecedents d) := h.used p (hd.2 _ hmem)
  -- a rule reads the sites and the entries of its antecedents, and on those `s` and `t` agree
  subst hid
  obtain ⟨happlies, -⟩ := hd
  have happlies : s.Applies d := happlies
  cases d with
  | boundaryToken buffer p slot before handle =>
    have hbefore := hsites (.next buffer before (.token handle)) before (by simp [antecedents]) rfl
      (by simp [Fact.sites])
    have hsite := hsites (.available buffer handle) (.token handle) (by simp [antecedents]) rfl
      (by simp [Fact.sites])
    obtain ⟨hget, -, hsentence⟩ := hused p (by simp [antecedents])
    refine ⟨?_, ?_⟩
    · rw [antecedents, antecedents, boundary_congr hbefore]
    · change _ ∧ t.Opens p slot _ _ _
      rw [hsentence, opens_congr hget, hsite]
      exact happlies
  | boundaryMatch p slot before inner =>
    have hbefore := hsites (.next inner.buffer before inner.beginningSite) before
      (by simp [antecedents]) rfl (by simp [Fact.sites])
    have hfirst := hinnerInfo inner (by simp [antecedents]) _ inner.beginningSite_mem_ends
    have hlast := hinnerInfo inner (by simp [antecedents]) _ inner.endSite_mem_ends
    have hresult := hinner inner (by simp [antecedents])
    obtain ⟨hget, -, hsentence⟩ := hused p (by simp [antecedents])
    refine ⟨?_, ?_⟩
    · rw [antecedents, antecedents, boundary_congr hbefore]
    · change _ ∧ t.Opens p slot _ _ _
      rw [hsentence, opens_congr hget, hfirst, hlast, acceptsResult_congr hresult]
      exact happlies
  | underToken outer p slot handle =>
    have hend := houterInfo outer (by simp [antecedents]) _ outer.endSite_mem_ends
    have hsite := hsites (.available outer.buffer handle) (.token handle) (by simp [antecedents]) rfl
      (by simp [Fact.sites])
    have hparent := houter outer (by simp [antecedents])
    obtain ⟨hget, hbegins, -⟩ := hused p (by simp [antecedents])
    refine ⟨?_, ?_⟩
    · rw [antecedents, antecedents, openingGuard_congr hparent hget hend]
    · change t.Continues outer p ∧ t.Opens p slot _ _ _
      rw [continues_congr hparent hbegins, opens_congr hget, hsite]
      exact happlies
  | underMatch outer p slot inner =>
    obtain ⟨hbuffer, hrest⟩ := happlies
    have hend := houterInfo outer (by simp [antecedents]) _ outer.endSite_mem_ends
    have hfirst := hinnerInfo inner (by simp [antecedents]) _ inner.beginningSite_mem_ends
    have hlast := hinnerInfo inner (by simp [antecedents]) _ inner.endSite_mem_ends
    have hparent := houter outer (by simp [antecedents])
    have hresult := hinner inner (by simp [antecedents])
    obtain ⟨hget, hbegins, -⟩ := hused p (by simp [antecedents])
    refine ⟨?_, hbuffer, ?_⟩
    · rw [antecedents, antecedents, openingGuard_congr hparent hget (hbuffer ▸ hend)]
    · rw [continues_congr hparent hbegins, opens_congr hget, hfirst, hlast,
        acceptsResult_congr hresult]
      exact hrest
  | extendToken key handle =>
    have hfirst := houterInfo key (by simp [antecedents]) _ key.beginningSite_mem_ends
    have hsite := hsites (.available key.buffer handle) (.token handle) (by simp [antecedents]) rfl
      (by simp [Fact.sites])
    have hparent := houter key (by simp [antecedents])
    refine ⟨?_, ?_⟩
    · rw [antecedents, antecedents, passingGuard_congr hparent]
    · change t.Fills key _ _
      rw [fills_congr hparent hfirst, hsite]
      exact happlies
  | extendMatch key inner =>
    obtain ⟨hbuffer, hfills⟩ := happlies
    have hfirst := houterInfo key (by simp [antecedents]) _ key.beginningSite_mem_ends
    have hlast := hinnerInfo inner (by simp [antecedents]) _ inner.endSite_mem_ends
    have hparent := houter key (by simp [antecedents])
    have hresult := hinner inner (by simp [antecedents])
    refine ⟨?_, hbuffer, ?_⟩
    · rw [antecedents, antecedents, passingGuard_congr hparent]
    · rw [fills_congr hparent hfirst, acceptsResult_congr hresult, hlast]
      exact hfills
  | skip key =>
    have hfirst := houterInfo key (by simp [antecedents]) _ key.beginningSite_mem_ends
    have hlast := houterInfo key (by simp [antecedents]) _ key.endSite_mem_ends
    refine ⟨rfl, ?_⟩
    change t.Fills key _ _
    rw [fills_congr (houter key (by simp [antecedents])) hfirst, hlast]
    exact happlies
  | completeWording key | completeAtEnd key =>
    refine ⟨rfl, ?_⟩
    change t.Filled key _
    rw [filled_congr (houter key (by simp [antecedents]))]
    exact happlies
  | completeBefore key next =>
    have hnext := hsites (.next key.buffer key.endSite next) next (by simp [antecedents]) rfl
      (by simp [Fact.sites])
    refine ⟨rfl, ?_⟩
    change t.Filled key true ∧ t.closesSentence key.buffer next = true
    rw [filled_congr (houter key (by simp [antecedents])), closesSentence, hnext]
    exact happlies

theorem Agrees.holding (hid : d.buffer = id) : table.Holding t d := by
  obtain ⟨hantecedents, happlies⟩ := h.same hd hid
  refine ⟨happlies, fun a ha => ?_⟩
  have ha : a ∈ s.antecedents d := hantecedents ▸ ha
  refine (h.holds a ?_).trans (hd.2 a ha)
  rw [← hid]
  exact buffer?_of_mem_antecedents hd.1 ha

end

/-- The derivations of matches in the buffer are the same. -/
theorem Agrees.support_eq (h : Agrees id s t) {fact : Fact} (hid : fact.buffer? = some id) :
    table.support t fact = table.support s fact := by
  ext d
  refine and_congr_right fun hconclusion => ?_
  have hbuffer : d.buffer = id :=
    Option.some.inj (d.buffer?_conclusion.symm.trans ((congrArg Fact.buffer? hconclusion).trans hid))
  exact ⟨fun hd => h.symm.holding hd hbuffer, fun hd => h.holding hd hbuffer⟩

/-- Nothing is derived in a buffer that is not there. -/
theorem support_eq_empty {fact : Fact} (hid : fact.buffer? = some id)
    (hbuffer : chart.buffer? id = none) : table.support chart fact = ∅ := by
  refine Set.eq_empty_of_forall_notMem fun d hd => ?_
  obtain ⟨hconclusion, happlies, hall⟩ := hd
  have hown : d.buffer = id :=
    Option.some.inj (d.buffer?_conclusion.symm.trans ((congrArg Fact.buffer? hconclusion).trans hid))
  have hmem : ∃ fact ∈ chart.antecedents d, fact.buffer? = some d.buffer := by
    cases d <;> simp [antecedents, Derivation.buffer, Fact.buffer?]
  obtain ⟨a, ha, hbuffer?⟩ := hmem
  have hholds : chart.holds a = true := hall a ha
  rw [holds_of_buffer?_none (hown ▸ hbuffer?) hbuffer] at hholds
  cases hholds

/-- A chart that agrees with one that is settled about all of its buffers is settled. -/
theorem settled_of_agrees (hsettled : table.Settled count s)
    (h : ∀ id, (t.buffer? id).isSome = true → Agrees id s t) : table.Settled count t := by
  intro fact hkind
  obtain ⟨id, hid⟩ : ∃ id, fact.buffer? = some id := by
    cases fact with
    | production | available | next | endOfSentence => cases hkind
    | potential key | complete key => exact ⟨key.buffer, rfl⟩
  cases hbuffer : t.buffer? id with
  | some buffer =>
    have hagrees := h id (by rw [hbuffer]; rfl)
    rw [hagrees.support_eq hid, hagrees.count fact hid]
    exact hsettled fact hkind
  | none =>
    have hcount : t.count fact = 0 := by
      cases fact with
      | production | available | next | endOfSentence => rfl
      | potential key | complete key =>
        injection hid with hid
        subst hid
        rw [count, hbuffer]
        rfl
    rw [support_eq_empty hid hbuffer, hcount, Set.encard_empty]
    rfl

/-! ### What matches rest on -/

/-- What a match that can be derived rests on: its production is in use, and edges lead to its first
token and to its last. -/
def RestsOn (chart : Chart) (key : MatchKey) : Prop :=
  chart.holds (.production key.production) = true ∧
    (∃ source, chart.holds (.next key.buffer source key.beginningSite) = true) ∧
    ∃ source, chart.holds (.next key.buffer source key.endSite) = true

theorem restsOn_of_derivable (hobserved : ∀ fact, kind fact ≠ .deduction →
      table.Derivable chart fact → chart.holds fact = true) {fact : Fact}
    (h : table.Derivable chart fact) (key : MatchKey)
    (hkey : fact = .potential key ∨ fact = .complete key) : chart.RestsOn key := by
  induction h generalizing key with
  | observed hkind =>
    rcases hkey with rfl | rfl <;> exact absurd rfl hkind
  | @derived d happlies hall ih =>
    have hholds (a : Fact) (ha : a ∈ chart.antecedents d) (hkind : kind a ≠ .deduction) :=
      hobserved a hkind (hall a ha)
    have houter (outer : MatchKey) (hmem : .potential outer ∈ chart.antecedents d) :=
      ih _ hmem outer (.inl rfl)
    have hinner (inner : MatchKey) (hmem : .complete inner ∈ chart.antecedents d) :=
      ih _ hmem inner (.inr rfl)
    have happlies : chart.Applies d := happlies
    obtain rfl := Derivation.derived_eq hkey
    cases d with
    | boundaryToken id p slot before handle =>
      have hnext := hholds (.next id before (.token handle)) (by simp [antecedents]) (by simp [kind])
      exact ⟨hholds (.production p) (by simp [antecedents]) (by simp [kind]), ⟨before, hnext⟩, before, hnext⟩
    | boundaryMatch p slot before inner =>
      obtain ⟨-, hbegin, hend⟩ := hinner inner (by simp [antecedents])
      exact ⟨hholds (.production p) (by simp [antecedents]) (by simp [kind]), hbegin, hend⟩
    | underToken outer p slot handle =>
      have hnext := hholds (.next outer.buffer outer.endSite (.token handle)) (by simp [antecedents])
        (by simp [kind])
      exact ⟨hholds (.production p) (by simp [antecedents]) (by simp [kind]), ⟨_, hnext⟩, _, hnext⟩
    | underMatch outer p slot inner =>
      obtain ⟨-, hbegin, hend⟩ := hinner inner (by simp [antecedents])
      exact ⟨hholds (.production p) (by simp [antecedents]) (by simp [kind]), hbegin, hend⟩
    | extendToken outer handle =>
      obtain ⟨hactive, hbegin, -⟩ := houter outer (by simp [antecedents])
      have hnext := hholds (.next outer.buffer outer.endSite (.token handle)) (by simp [antecedents])
        (by simp [kind])
      exact ⟨hactive, hbegin, _, hnext⟩
    | extendMatch outer inner =>
      obtain ⟨hbuffer, -⟩ := happlies
      obtain ⟨hactive, hbegin, -⟩ := houter outer (by simp [antecedents])
      obtain ⟨-, -, hend⟩ := hinner inner (by simp [antecedents])
      rw [hbuffer] at hend
      exact ⟨hactive, hbegin, hend⟩
    | skip outer =>
      exact houter outer (by simp [antecedents])
    | completeWording outer | completeAtEnd outer | completeBefore outer next =>
      exact houter outer (by simp [antecedents])

/-- In a chart that is settled, every match rests on what it should. -/
theorem Ordered.restsOn {position : BufferId → Site → ℕ} (h : chart.Ordered position)
    (hsettled : table.Settled count chart) (hnames : chart.grammar.UnitOrdered)
    (hkey : chart.holds (.potential key) = true ∨ chart.holds (.complete key) = true) :
    chart.RestsOn key := by
  have hiff := h.holds_iff_derivable hsettled hnames
  have hobserved (fact : Fact) (_ : kind fact ≠ .deduction) (hd : table.Derivable chart fact) :=
    (hiff fact).2 hd
  rcases hkey with hkey | hkey
  · exact restsOn_of_derivable hobserved ((hiff _).1 hkey) key (.inl rfl)
  · exact restsOn_of_derivable hobserved ((hiff _).1 hkey) key (.inr rfl)

end Chart

end LiveProse
