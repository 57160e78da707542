import LiveProse.Proofs.Chart.Enumeration

/-! Each kind of fact triggers the derivations that lead through it, once each. -/

namespace LiveProse

namespace Chart

variable {chart : Chart} {buffer : BufferId} {id : ProductionId} {site before : Site} {fact : Fact}
variable {key inner : MatchKey} {handle : Handle} {d : Derivation}

theorem mem_through : d ∈ table.through chart fact ↔
    chart.Applies d ∧ fact ∈ chart.antecedents d ∧
      ∀ a ∈ chart.antecedents d, a = fact ∨ chart.holds a = true := Iff.rfl

/-! ### Going on past a site that is known -/

/-- The derivations that go on from a match with a token, as far as their guards let them. -/
def onToken (chart : Chart) (key : MatchKey) (handle : Handle) : Set Derivation :=
  {d | chart.Applies d ∧
    ((d = .extendToken key handle ∧ ∀ a ∈ chart.passingGuard key, chart.holds a = true) ∨
      ∃ id slot, d = .underToken key id slot handle ∧ chart.holds (.production id) = true ∧
        ∀ a ∈ chart.openingGuard key id, chart.holds a = true)}

/-- The derivations that go on from a match with another, as far as their guards let them. -/
def onMatch (chart : Chart) (key inner : MatchKey) : Set Derivation :=
  {d | chart.Applies d ∧
    ((d = .extendMatch key inner ∧ ∀ a ∈ chart.passingGuard key, chart.holds a = true) ∨
      ∃ id slot, d = .underMatch key id slot inner ∧ chart.holds (.production id) = true ∧
        ∀ a ∈ chart.openingGuard key id, chart.holds a = true)}

theorem Opens.isSome {slot : Nat} {accepts : Slot → Bool} {first last : SiteInfo}
    (h : chart.Opens id slot accepts first last) : (chart.grammar.get? id).isSome = true := by
  obtain ⟨production, hget, -⟩ := h
  rw [hget, Option.isSome_some]

theorem Fills.lt_arity {accepts : Slot → Bool} {last : SiteInfo}
    (h : chart.Fills key accepts last) : ∃ production,
      chart.grammar.get? key.production = some production ∧ key.slotsFilled < production.arity := by
  obtain ⟨production, hget, haccepts, -⟩ := h
  refine ⟨production, hget, ?_⟩
  obtain ⟨slot, hslot, -⟩ := (Option.any_eq_true _ _).1 haccepts
  exact (List.getElem?_eq_some_iff.1 hslot).1

theorem Continues.lt_arity (h : chart.Continues key id) : ∃ production,
    chart.grammar.get? key.production = some production ∧ key.slotsFilled < production.arity := by
  obtain ⟨wanted, hwanted, -⟩ := h
  unfold needs at hwanted
  cases hget : chart.grammar.get? key.production with
  | none => simp [hget] at hwanted
  | some production =>
    refine ⟨production, rfl, ?_⟩
    rw [hget, Option.bind_some] at hwanted
    cases hslot : production.slot? key.slotsFilled with
    | none => simp [hslot] at hwanted
    | some slot => exact (List.getElem?_eq_some_iff.1 hslot).1

/-- Only unfinished matches go on. -/
theorem lt_arity_of_mem_onToken (h : d ∈ chart.onToken key handle) : ∃ production,
    chart.grammar.get? key.production = some production ∧ key.slotsFilled < production.arity := by
  obtain ⟨happlies, ⟨rfl, -⟩ | ⟨id, slot, rfl, -⟩⟩ := h
  · exact Fills.lt_arity happlies
  · exact Continues.lt_arity happlies.1

theorem lt_arity_of_mem_onMatch (h : d ∈ chart.onMatch key inner) : ∃ production,
    chart.grammar.get? key.production = some production ∧ key.slotsFilled < production.arity := by
  obtain ⟨happlies, ⟨rfl, -⟩ | ⟨id, slot, rfl, -⟩⟩ := h
  · exact Fills.lt_arity happlies.2
  · exact Continues.lt_arity happlies.2.1

theorem mayExtendPast_iff_guard {production : Production}
    (hget : chart.grammar.get? key.production = some production) :
    chart.mayExtendPast production key.buffer key.endSite = true ↔
      ∀ a ∈ chart.passingGuard key, chart.holds a = true := by
  rw [mayExtendPast_iff hget, forall_passingGuard]

theorem admits_under_iff_guard {production : Production}
    (hget : chart.grammar.get? key.production = some production) :
    (chart.grammar.get? id).any
        (Openings.under production (chart.opensSentenceAfter key.buffer key.endSite)).admits = true ↔
      (chart.grammar.get? id).isSome = true ∧
        ∀ a ∈ chart.openingGuard key id, chart.holds a = true := by
  rw [admits_under_iff hget, forall_openingGuard, opensSentenceAfter_iff]

theorem byToken_eq_onToken {production : Production}
    (hget : chart.grammar.get? key.production = some production) :
    chart.byToken key (chart.mayExtendPast production key.buffer key.endSite)
      (.under production (chart.opensSentenceAfter key.buffer key.endSite)) handle =
        chart.onToken key handle := by
  ext d
  simp only [byToken, onToken, mayExtendPast_iff_guard hget, admits_under_iff_guard hget,
    Set.mem_ofPred_eq]
  constructor
  · rintro (⟨rfl, happlies, hguard⟩ | ⟨id, slot, rfl, happlies, hactive, -, hguard⟩)
    · exact ⟨happlies, .inl ⟨rfl, hguard⟩⟩
    · exact ⟨happlies, .inr ⟨id, slot, rfl, hactive, hguard⟩⟩
  · rintro ⟨happlies, ⟨rfl, hguard⟩ | ⟨id, slot, rfl, hactive, hguard⟩⟩
    · exact .inl ⟨rfl, happlies, hguard⟩
    · exact .inr ⟨id, slot, rfl, happlies, hactive, happlies.2.isSome, hguard⟩

theorem byMatch_eq_onMatch {production : Production}
    (hget : chart.grammar.get? key.production = some production) :
    chart.byMatch key (chart.mayExtendPast production key.buffer key.endSite)
      (.under production (chart.opensSentenceAfter key.buffer key.endSite)) inner =
        chart.onMatch key inner := by
  ext d
  simp only [byMatch, onMatch, mayExtendPast_iff_guard hget, admits_under_iff_guard hget,
    Set.mem_ofPred_eq]
  constructor
  · rintro (⟨rfl, happlies, hguard⟩ | ⟨id, slot, rfl, happlies, hactive, -, hguard⟩)
    · exact ⟨happlies, .inl ⟨rfl, hguard⟩⟩
    · exact ⟨happlies, .inr ⟨id, slot, rfl, hactive, hguard⟩⟩
  · rintro ⟨happlies, ⟨rfl, hguard⟩ | ⟨id, slot, rfl, hactive, hguard⟩⟩
    · exact .inl ⟨rfl, happlies, hguard⟩
    · exact .inr ⟨id, slot, rfl, happlies, hactive, happlies.2.2.isSome, hguard⟩

theorem outer?_of_mem_onToken (h : d ∈ chart.onToken key handle) : d.outer? = some key := by
  obtain ⟨-, ⟨rfl, -⟩ | ⟨id, slot, rfl, -⟩⟩ := h <;> rfl

theorem outer?_of_mem_onMatch (h : d ∈ chart.onMatch key inner) : d.outer? = some key := by
  obtain ⟨-, ⟨rfl, -⟩ | ⟨id, slot, rfl, -⟩⟩ := h <;> rfl

/-- The derivations from the matches that end at a site, for derivations that only unfinished
matches take part in. -/
theorem Sound.lists_waitingAt (h : chart.Sound) {f : MatchKey → Production → List Fact}
    {S : MatchKey → Set Derivation} (buffer : BufferId) (site : Site)
    (hf : ∀ key production, (key, production) ∈ chart.waitingAt buffer site →
      Lists Derivation.conclusion (f key production) (S key))
    (hlt : ∀ key d, d ∈ S key → ∃ production,
      chart.grammar.get? key.production = some production ∧ key.slotsFilled < production.arity)
    (houter : ∀ key d, d ∈ S key → d.outer? = some key) :
    Lists Derivation.conclusion
      ((chart.waitingAt buffer site).flatMap fun (key, production) => f key production)
      {d | ∃ key, chart.holds (.potential key) = true ∧ key.buffer = buffer ∧ key.endSite = site ∧
        d ∈ S key} := by
  refine (h.lists_waiting (chart.nodup_waitingAt buffer site) (List.Subset.refl _)
    (S := fun key _ => S key) hf fun key _ => houter key).congr ?_
  ext d
  simp only [h.mem_waitingAt, Set.mem_ofPred_eq]
  constructor
  · rintro ⟨key, production, ⟨⟨hholds, hbuffer, hend⟩, -⟩, hd⟩
    exact ⟨key, hholds, hbuffer, hend, hd⟩
  · rintro ⟨key, hholds, hbuffer, hend, hd⟩
    obtain ⟨production, hwaiting⟩ := hlt key d hd
    exact ⟨key, production, ⟨⟨hholds, hbuffer, hend⟩, hwaiting⟩, hd⟩

/-! ### An available token -/

/-- The derivations that take in a token after a site. -/
def arrivingToken (chart : Chart) (buffer : BufferId) (before : Site) (handle : Handle) :
    Set Derivation :=
  {d | (chart.opensSentenceAfter buffer before = true ∧ ∃ id slot,
      d = .boundaryToken buffer id slot before handle ∧ chart.Applies d ∧
        chart.holds (.production id) = true) ∨
    ∃ key, chart.holds (.potential key) = true ∧ key.buffer = buffer ∧ key.endSite = before ∧
      d ∈ chart.onToken key handle}

theorem Sound.lists_arrivingToken (h : chart.Sound) (before : Site) (handle : Handle) :
    Lists Derivation.conclusion
      ((if chart.opensSentenceAfter buffer before then chart.openSentencesOnToken buffer handle
          else []) ++
        (chart.waitingAt buffer before).flatMap fun (key, production) =>
          (if chart.mayExtendPast production buffer before then
            chart.extendByToken key production handle (chart.info buffer (.token handle)) else []) ++
          chart.continueOnToken key production handle (chart.info buffer (.token handle))
            (.under production (chart.opensSentenceAfter buffer before)))
      (chart.arrivingToken buffer before handle) := by
  have hgrown := h.lists_waitingAt (S := fun key => chart.onToken key handle) buffer before
    (f := fun key production =>
      (if chart.mayExtendPast production buffer before then
        chart.extendByToken key production handle (chart.info buffer (.token handle)) else []) ++
      chart.continueOnToken key production handle (chart.info buffer (.token handle))
        (.under production (chart.opensSentenceAfter buffer before)))
    (fun key production hmem => by
      obtain ⟨⟨-, rfl, rfl⟩, hget, -⟩ := h.mem_waitingAt.1 hmem
      exact (h.lists_byToken hget).congr (byToken_eq_onToken hget))
    (fun _ _ => lt_arity_of_mem_onToken) (fun _ _ => outer?_of_mem_onToken)
  refine ((Lists.ite fun _ => h.lists_openSentencesOnToken before).append hgrown ?_).congr rfl
  refine disjoint_of_ne Derivation.outer? ?_
  rintro d ⟨-, id, slot, rfl, -⟩ e ⟨key, -, -, -, he⟩
  rw [outer?_of_mem_onToken he]
  exact (Option.some_ne_none _).symm

theorem before_of_mem_arrivingToken (hd : d ∈ chart.arrivingToken buffer before handle) :
    d.before = before := by
  obtain ⟨-, id, slot, rfl, -⟩ | ⟨key, -, -, hend, -, ⟨rfl, -⟩ | ⟨id, slot, rfl, -⟩⟩ := hd
  · rfl
  · exact hend
  · exact hend

theorem not_mem_boundary (h : ∀ b s p, fact ≠ .endOfSentence b s p) :
    fact ∉ chart.boundary buffer site := by
  rw [mem_boundary]
  rintro ⟨-, heq⟩
  exact h _ _ _ heq

theorem not_mem_openingGuard (h : ∀ b s p, fact ≠ .endOfSentence b s p) :
    fact ∉ chart.openingGuard key id := by
  rw [mem_openingGuard]
  rintro ⟨-, -, heq⟩
  exact h _ _ _ heq

theorem not_mem_passingGuard (h : ∀ b s p, fact ≠ .endOfSentence b s p) :
    fact ∉ chart.passingGuard key := by
  rw [mem_passingGuard]
  rintro ⟨-, heq⟩
  exact h _ _ _ heq

theorem Sound.lists_available (h : chart.Sound) (handle : Handle) :
    Lists Derivation.conclusion (chart.availableConsequences buffer handle)
      (table.through chart (.available buffer handle)) := by
  refine (Lists.flatMap h.nodup_predecessors
    (fun before _ => h.lists_arrivingToken before handle) ?_).congr ?_
  · intro x _ y _ d hx hy
    exact (before_of_mem_arrivingToken hx).symm.trans (before_of_mem_arrivingToken hy)
  · ext d
    rw [mem_through]
    cases d <;>
      simp [arrivingToken, onToken, antecedents, or_imp, forall_and, h.mem_predecessors,
        not_mem_boundary, not_mem_openingGuard, not_mem_passingGuard, forall_boundary,
        forall_openingGuard, forall_passingGuard, opensSentenceAfter_iff] <;>
      grind

/-! ### A complete match -/

/-- The derivations that take in a match after a site. -/
def arrivingMatch (chart : Chart) (before : Site) (inner : MatchKey) : Set Derivation :=
  {d | (chart.opensSentenceAfter inner.buffer before = true ∧ ∃ id slot,
      d = .boundaryMatch id slot before inner ∧ chart.Applies d ∧
        chart.holds (.production id) = true) ∨
    ∃ key, chart.holds (.potential key) = true ∧ key.buffer = inner.buffer ∧
      key.endSite = before ∧ d ∈ chart.onMatch key inner}

theorem Sound.lists_arrivingMatch (h : chart.Sound) (before : Site) (inner : MatchKey) :
    Lists Derivation.conclusion
      ((if chart.opensSentenceAfter inner.buffer before then chart.openSentencesOnMatch inner
          else []) ++
        (chart.waitingAt inner.buffer before).flatMap fun (key, production) =>
          (if chart.mayExtendPast production inner.buffer before then
            chart.extendByMatch key production inner else []) ++
          chart.continueOnMatch key production inner
            (.under production (chart.opensSentenceAfter inner.buffer before)))
      (chart.arrivingMatch before inner) := by
  have hgrown := h.lists_waitingAt inner.buffer before (S := fun key => chart.onMatch key inner)
    (f := fun key production =>
      (if chart.mayExtendPast production inner.buffer before then
        chart.extendByMatch key production inner else []) ++
      chart.continueOnMatch key production inner
        (.under production (chart.opensSentenceAfter inner.buffer before)))
    (fun key production hmem => by
      obtain ⟨⟨-, hbuffer, rfl⟩, hget, -⟩ := h.mem_waitingAt.1 hmem
      rw [← hbuffer]
      exact (h.lists_byMatch hget hbuffer.symm).congr (byMatch_eq_onMatch hget))
    (fun _ _ => lt_arity_of_mem_onMatch) (fun _ _ => outer?_of_mem_onMatch)
  refine ((Lists.ite fun _ => h.lists_openSentencesOnMatch before).append hgrown ?_).congr rfl
  refine disjoint_of_ne Derivation.outer? ?_
  rintro d ⟨-, id, slot, rfl, -⟩ e ⟨key, -, -, -, he⟩
  rw [outer?_of_mem_onMatch he]
  exact (Option.some_ne_none _).symm

theorem before_of_mem_arrivingMatch (hd : d ∈ chart.arrivingMatch before inner) :
    d.before = before := by
  obtain ⟨-, id, slot, rfl, -⟩ | ⟨key, -, -, hend, -, ⟨rfl, -⟩ | ⟨id, slot, rfl, -⟩⟩ := hd
  · rfl
  · exact hend
  · exact hend

theorem Sound.lists_complete (h : chart.Sound) (inner : MatchKey) :
    Lists Derivation.conclusion (chart.completeConsequences inner)
      (table.through chart (.complete inner)) := by
  refine (Lists.flatMap h.nodup_predecessors
    (fun before _ => h.lists_arrivingMatch before inner) ?_).congr ?_
  · intro x _ y _ d hx hy
    exact (before_of_mem_arrivingMatch hx).symm.trans (before_of_mem_arrivingMatch hy)
  · ext d
    rw [mem_through]
    cases d <;>
      simp [arrivingMatch, onMatch, antecedents, or_imp, forall_and, h.mem_predecessors,
        not_mem_boundary, not_mem_openingGuard, not_mem_passingGuard, forall_boundary,
        forall_openingGuard, forall_passingGuard, opensSentenceAfter_iff, Applies] <;>
      grind

/-! ### A potential match -/

/-- The derivations that go on from a match with what begins at a site. -/
def onSite (chart : Chart) (key : MatchKey) (target : Site) : Set Derivation :=
  {d | (∃ handle, target = .token handle ∧ chart.holds (.available key.buffer handle) = true ∧
      d ∈ chart.onToken key handle) ∨
    ∃ inner, chart.holds (.complete inner) = true ∧ inner.buffer = key.buffer ∧
      inner.beginningSite = target ∧ d ∈ chart.onMatch key inner}

theorem into_eq_onSite {production : Production} {target : Site}
    (hget : chart.grammar.get? key.production = some production) :
    chart.into key (chart.mayExtendPast production key.buffer key.endSite)
      (.under production (chart.opensSentenceAfter key.buffer key.endSite)) target =
        chart.onSite key target := by
  simp only [into, byToken_eq_onToken hget, byMatch_eq_onMatch hget]
  rfl

theorem outer?_of_mem_onSite {target : Site} (h : d ∈ chart.onSite key target) :
    d.outer? = some key := by
  obtain ⟨handle, -, -, h⟩ | ⟨inner, -, -, -, h⟩ := h
  · exact outer?_of_mem_onToken h
  · exact outer?_of_mem_onMatch h

theorem lt_arity_of_mem_onSite {target : Site} (h : d ∈ chart.onSite key target) : ∃ production,
    chart.grammar.get? key.production = some production ∧ key.slotsFilled < production.arity := by
  obtain ⟨handle, -, -, h⟩ | ⟨inner, -, -, -, h⟩ := h
  · exact lt_arity_of_mem_onToken h
  · exact lt_arity_of_mem_onMatch h

/-- No derivation goes on into two sites. -/
theorem target_eq_of_mem_onSite {x y : Site} (hx : d ∈ chart.onSite key x)
    (hy : d ∈ chart.onSite key y) : x = y := by
  obtain ⟨handle, rfl, -, -, ⟨rfl, -⟩ | ⟨id, slot, rfl, -⟩⟩ |
    ⟨inner, -, -, rfl, -, ⟨rfl, -⟩ | ⟨id, slot, rfl, -⟩⟩ := hx <;>
  simp_all [onSite, onToken, onMatch]

/-- The derivations that a match takes part in as the one that goes on. -/
theorem mem_through_potential : d ∈ table.through chart (.potential key) ↔
    chart.Applies d ∧ (d = .skip key ∨ d = .completeWording key ∨
      (d = .completeAtEnd key ∧ chart.holds (.endOfSentence key.buffer key.endSite true) = true) ∨
      (∃ next, d = .completeBefore key next ∧
        chart.holds (.next key.buffer key.endSite next) = true) ∨
      ∃ target, chart.holds (.next key.buffer key.endSite target) = true ∧
        d ∈ chart.onSite key target) := by
  rw [mem_through]
  cases d <;>
    simp [onSite, onToken, onMatch, antecedents, or_imp, forall_and, not_mem_boundary,
      not_mem_openingGuard, not_mem_passingGuard, forall_boundary, forall_openingGuard,
      forall_passingGuard, Applies] <;>
    grind

theorem filled_iff {production : Production} {endsSentences : Bool}
    (hget : chart.grammar.get? key.production = some production) :
    chart.Filled key endsSentences ↔
      production.arity ≤ key.slotsFilled ∧ production.endsSentences = endsSentences := by
  simp [Filled, hget]

/-- Matches of unknown productions do not go on. -/
theorem through_potential_of_none (hget : chart.grammar.get? key.production = none) :
    table.through chart (.potential key) = ∅ := by
  refine Set.eq_empty_of_forall_notMem fun d hd => ?_
  obtain ⟨happlies, rfl | rfl | ⟨rfl, -⟩ | ⟨next, rfl, -⟩ | ⟨target, -, hd⟩⟩ :=
    mem_through_potential.1 hd
  · obtain ⟨production, hsome, -⟩ := happlies
    simp [hget] at hsome
  · obtain ⟨production, hsome, -⟩ := happlies
    simp [hget] at hsome
  · obtain ⟨production, hsome, -⟩ := happlies
    simp [hget] at hsome
  · obtain ⟨⟨production, hsome, -⟩, -⟩ := happlies
    simp [hget] at hsome
  · obtain ⟨production, hsome, -⟩ := lt_arity_of_mem_onSite hd
    simp [hget] at hsome

/-- What an unfinished match derives. -/
theorem Sound.lists_unfinished (h : chart.Sound) {production : Production}
    (hget : chart.grammar.get? key.production = some production)
    (hlt : key.slotsFilled < production.arity) :
    Lists Derivation.conclusion
      (chart.skipOptional key production ++
        (chart.successors key.buffer key.endSite).flatMap fun target =>
          chart.advanceInto key production target
            (chart.mayExtendPast production key.buffer key.endSite)
            (.under production (chart.opensSentenceAfter key.buffer key.endSite)))
      (table.through chart (.potential key)) := by
  refine ((lists_skipOptional hget).append (Lists.flatMap h.nodup_successors (fun target _ =>
    (h.lists_advanceInto hget target).congr (into_eq_onSite hget)) ?_) ?_).congr ?_
  · intro x _ y _ d hx hy
    exact target_eq_of_mem_onSite hx hy
  · rw [Set.disjoint_left]
    rintro d ⟨-, rfl⟩ ⟨target, -, hd⟩
    simp [onSite, onToken, onMatch] at hd
  · ext d
    rw [mem_through_potential]
    constructor
    · rintro (⟨hfills, rfl⟩ | ⟨target, htarget, hd⟩)
      · exact ⟨hfills, .inl rfl⟩
      · refine ⟨?_, .inr <| .inr <| .inr <| .inr ⟨target, h.mem_successors.1 htarget, hd⟩⟩
        obtain ⟨handle, -, -, happlies, -⟩ | ⟨inner, -, -, -, happlies, -⟩ := hd <;> exact happlies
    · rintro ⟨happlies, rfl | rfl | ⟨rfl, -⟩ | ⟨next, rfl, -⟩ | ⟨target, htarget, hd⟩⟩
      · exact .inl ⟨happlies, rfl⟩
      · have := ((filled_iff hget).1 happlies).1
        omega
      · have := ((filled_iff hget).1 happlies).1
        omega
      · have := ((filled_iff hget).1 happlies.1).1
        omega
      · exact .inr ⟨target, h.mem_successors.2 htarget, hd⟩

/-- A filled match only completes. -/
theorem mem_through_potential_of_filled {production : Production}
    (hget : chart.grammar.get? key.production = some production)
    (hle : production.arity ≤ key.slotsFilled) :
    d ∈ table.through chart (.potential key) ↔
      (d = .completeWording key ∧ production.endsSentences = false) ∨
      (production.endsSentences = true ∧
        ((d = .completeAtEnd key ∧
            chart.holds (.endOfSentence key.buffer key.endSite true) = true) ∨
          ∃ next, d = .completeBefore key next ∧ chart.closesSentence key.buffer next = true ∧
            chart.holds (.next key.buffer key.endSite next) = true)) := by
  rw [mem_through_potential]
  constructor
  · rintro ⟨happlies, rfl | rfl | ⟨rfl, hend⟩ | ⟨next, rfl, hnext⟩ | ⟨target, htarget, hd⟩⟩
    · obtain ⟨production', hget', hlt⟩ := Fills.lt_arity happlies
      cases hget.symm.trans hget'
      omega
    · exact .inl ⟨rfl, ((filled_iff hget).1 happlies).2⟩
    · exact .inr ⟨((filled_iff hget).1 happlies).2, .inl ⟨rfl, hend⟩⟩
    · exact .inr ⟨((filled_iff hget).1 happlies.1).2, .inr ⟨next, rfl, happlies.2, hnext⟩⟩
    · obtain ⟨production', hget', hlt⟩ := lt_arity_of_mem_onSite hd
      cases hget.symm.trans hget'
      omega
  · rintro (⟨rfl, hends⟩ | ⟨hends, ⟨rfl, hend⟩ | ⟨next, rfl, hcloses, hnext⟩⟩)
    · exact ⟨(filled_iff hget).2 ⟨hle, hends⟩, .inr <| .inl rfl⟩
    · exact ⟨(filled_iff hget).2 ⟨hle, hends⟩, .inr <| .inr <| .inl ⟨rfl, hend⟩⟩
    · exact ⟨⟨(filled_iff hget).2 ⟨hle, hends⟩, hcloses⟩,
        .inr <| .inr <| .inr <| .inl ⟨next, rfl, hnext⟩⟩

/-- What a filled sentence completes for, one derivation for each site that closes it. -/
theorem Sound.lists_completeBefore (h : chart.Sound) (key : MatchKey) :
    Lists Derivation.conclusion
      (((chart.successors key.buffer key.endSite).filter (chart.closesSentence key.buffer)).map
        fun _ => .complete key)
      {d | ∃ next, d = .completeBefore key next ∧ chart.closesSentence key.buffer next = true ∧
        chart.holds (.next key.buffer key.endSite next) = true} := by
  refine (Lists.map (Derivation.completeBefore key) (h.nodup_successors.filter _)
    (fun a b hab => by injection hab) fun _ => rfl).congr ?_
  ext d
  simp only [List.mem_filter, h.mem_successors, Set.mem_ofPred_eq]
  exact exists_congr fun next => ⟨fun ⟨⟨hnext, hcloses⟩, heq⟩ => ⟨heq, hcloses, hnext⟩,
    fun ⟨heq, hcloses, hnext⟩ => ⟨⟨hnext, hcloses⟩, heq⟩⟩

theorem Sound.lists_potential (h : chart.Sound) (key : MatchKey) :
    Lists Derivation.conclusion (chart.potentialConsequences key)
      (table.through chart (.potential key)) := by
  unfold potentialConsequences
  cases hget : chart.grammar.get? key.production with
  | none => exact Lists.nil.congr (through_potential_of_none hget).symm
  | some production =>
    by_cases hlt : key.slotsFilled < production.arity
    · simp only [hlt, if_true]
      exact h.lists_unfinished hget hlt
    have hfilled (d : Derivation) :=
      mem_through_potential_of_filled (d := d) hget (Nat.le_of_not_lt hlt)
    by_cases hends : production.endsSentences = true
    · simp only [hlt, hends, if_true, if_false]
      refine ((Lists.ite fun _ => Lists.single (Derivation.completeAtEnd key) rfl).append
        (h.lists_completeBefore key) ?_).congr ?_
      · rw [Set.disjoint_left]
        rintro d ⟨-, rfl⟩ ⟨next, heq, -⟩
        cases heq
      · ext d
        rw [hfilled]
        simp only [hends, Bool.true_eq_false, and_false, false_or, true_and, Set.mem_union,
          Set.mem_ofPred_eq, Set.mem_singleton_iff]
        exact or_congr_left and_comm
    · simp only [hlt, hends, if_false]
      refine (Lists.single (Derivation.completeWording key) rfl).congr ?_
      ext d
      rw [hfilled]
      simp [hends]

/-! ### An edge -/

theorem Sound.lists_completeSentencesAt (h : chart.Sound) (buffer : BufferId) (site : Site)
    (mk : MatchKey → Derivation) (hmk : mk.Injective) (hconclusion : ∀ key, (mk key).conclusion = .complete key) :
    Lists Derivation.conclusion (chart.completeSentencesAt buffer site)
      {d | ∃ key, chart.holds (.potential key) = true ∧ key.buffer = buffer ∧ key.endSite = site ∧
        chart.Filled key true ∧ d = mk key} := by
  refine (Lists.map mk ((chart.nodup_potentialsEndingAt buffer site).filter _) hmk
    hconclusion).congr ?_
  ext d
  simp only [List.mem_filter, h.mem_potentialsEndingAt, Set.mem_ofPred_eq, Bool.and_eq_true]
  constructor
  · rintro ⟨key, ⟨⟨hholds, hbuffer, hend⟩, hends, hfilled⟩, rfl⟩
    obtain ⟨production, hget, hends⟩ := (Option.any_eq_true _ _).1 hends
    rw [isFilled, hget, Option.any_some, decide_eq_true_eq] at hfilled
    exact ⟨key, hholds, hbuffer, hend, ⟨production, hget, hfilled, hends⟩, rfl⟩
  · rintro ⟨key, hholds, hbuffer, hend, ⟨production, hget, hfilled, hends⟩, rfl⟩
    refine ⟨key, ⟨⟨hholds, hbuffer, hend⟩, ?_, ?_⟩, rfl⟩
    · rw [hget, Option.any_some, hends]
    · rw [isFilled, hget, Option.any_some, decide_eq_true_eq]
      exact hfilled

/-- The derivations that go on across an edge. -/
def across (chart : Chart) (buffer : BufferId) (source target : Site) : Set Derivation :=
  {d | (chart.opensSentenceAfter buffer source = true ∧ d ∈ chart.opening buffer source target) ∨
    ∃ key, chart.holds (.potential key) = true ∧ key.buffer = buffer ∧ key.endSite = source ∧
      d ∈ chart.onSite key target}

theorem Sound.lists_across (h : chart.Sound) (source : Site) (handle : Handle) :
    Lists Derivation.conclusion
      ((if chart.opensSentenceAfter buffer source then
        (if chart.isAvailable buffer handle then chart.openSentencesOnToken buffer handle else []) ++
        (chart.completesBeginningAt buffer (.token handle)).flatMap chart.openSentencesOnMatch
      else []) ++
      (chart.waitingAt buffer source).flatMap fun (key, production) =>
        chart.advanceInto key production (.token handle)
          (chart.mayExtendPast production buffer source)
          (.under production (chart.opensSentenceAfter buffer source)))
      (chart.across buffer source (.token handle)) := by
  have hgrown := h.lists_waitingAt buffer source
    (S := fun key => chart.onSite key (.token handle))
    (f := fun key production =>
      chart.advanceInto key production (.token handle)
        (chart.mayExtendPast production buffer source)
        (.under production (chart.opensSentenceAfter buffer source)))
    (fun key production hmem => by
      obtain ⟨⟨-, rfl, rfl⟩, hget, -⟩ := h.mem_waitingAt.1 hmem
      exact (h.lists_advanceInto hget (.token handle)).congr (into_eq_onSite hget))
    (fun _ _ => lt_arity_of_mem_onSite) (fun _ _ => outer?_of_mem_onSite)
  refine ((Lists.ite fun _ => h.lists_opening source handle).append hgrown ?_).congr rfl
  refine disjoint_of_ne Derivation.outer? ?_
  rintro d ⟨-, hd⟩ e ⟨key, -, -, -, he⟩
  rw [outer?_of_mem_onSite he, (before_of_mem_opening hd).2]
  exact (Option.some_ne_none _).symm

/-- Nothing goes on into the ends of a buffer. -/
theorem across_eq_empty {target : Site} (h : ∀ handle, target ≠ .token handle) (source : Site) :
    chart.across buffer source target = ∅ := by
  refine Set.eq_empty_of_forall_notMem fun d hd => ?_
  obtain ⟨-, ⟨id, slot, handle, heq, -⟩ | ⟨id, slot, inner, -, -, -, -, -, heq⟩⟩ |
    ⟨key, -, -, -, ⟨handle, heq, -⟩ | ⟨inner, -, -, heq, -⟩⟩ := hd
  · exact h _ heq
  · exact h _ heq.symm
  · exact h _ heq
  · exact h _ heq.symm

theorem mem_through_next {source target : Site} :
    d ∈ table.through chart (.next buffer source target) ↔
      (chart.closesSentence buffer target = true ∧
        ∃ key, chart.holds (.potential key) = true ∧ key.buffer = buffer ∧ key.endSite = source ∧
          chart.Filled key true ∧ d = .completeBefore key target) ∨
      d ∈ chart.across buffer source target := by
  rw [mem_through]
  cases d <;>
    simp [across, opening, onSite, onToken, onMatch, antecedents, or_imp, forall_and,
      not_mem_boundary, not_mem_openingGuard, not_mem_passingGuard, forall_boundary,
      forall_openingGuard, forall_passingGuard, opensSentenceAfter_iff, Applies] <;>
    grind

theorem Sound.lists_next (h : chart.Sound) (source target : Site) :
    Lists Derivation.conclusion (chart.adjacencyConsequences buffer source target)
      (table.through chart (.next buffer source target)) := by
  have hcompleted := Lists.ite fun _ : chart.closesSentence buffer target = true =>
    h.lists_completeSentencesAt buffer source (Derivation.completeBefore · target)
      (fun a b hab => by injection hab) fun _ => rfl
  have hmem : table.through chart (.next buffer source target) = _ ∪ _ :=
    Set.ext fun d => mem_through_next
  rw [hmem]
  cases target with
  | token handle =>
    refine hcompleted.append (h.lists_across source handle) ?_
    rw [Set.disjoint_left]
    rintro d ⟨-, key, -, -, -, -, rfl⟩ hd
    simp [across, opening, onSite, onToken, onMatch] at hd
  | start =>
    rw [across_eq_empty (fun _ heq => by cases heq)]
    exact hcompleted.append Lists.nil (Set.disjoint_empty _)
  | finish =>
    rw [across_eq_empty (fun _ heq => by cases heq)]
    exact hcompleted.append Lists.nil (Set.disjoint_empty _)

/-! ### The end of a sentence -/

theorem end_mem_boundary {b : BufferId} {s : Site} {positive : Bool} :
    .endOfSentence b s positive ∈ chart.boundary buffer site ↔
      (chart.info buffer site).traits.comma = false ∧ b = buffer ∧ s = site ∧ positive = true := by
  rw [mem_boundary, Fact.endOfSentence.injEq]

theorem end_mem_openingGuard {b : BufferId} {s : Site} {positive : Bool} :
    .endOfSentence b s positive ∈ chart.openingGuard key id ↔
      (chart.endsSentences id = true ∧ chart.endsSentences key.production = false) ∧
        (chart.info key.buffer key.endSite).traits.comma = false ∧
        b = key.buffer ∧ s = key.endSite ∧ positive = true := by
  rw [mem_openingGuard, Fact.endOfSentence.injEq]

theorem end_mem_passingGuard {b : BufferId} {s : Site} {positive : Bool} :
    .endOfSentence b s positive ∈ chart.passingGuard key ↔
      chart.isPassage key.production = false ∧
        b = key.buffer ∧ s = key.endSite ∧ positive = false := by
  rw [mem_passingGuard, Fact.endOfSentence.injEq]

theorem mem_through_sentenceEnd : d ∈ table.through chart (.endOfSentence buffer site true) ↔
      ((chart.info buffer site).traits.comma = false ∧
        ((∃ target, chart.holds (.next buffer site target) = true ∧
          d ∈ chart.opening buffer site target) ∨
        ∃ key, chart.holds (.potential key) = true ∧ key.buffer = buffer ∧ key.endSite = site ∧
          chart.endsSentences key.production = false ∧
          ∃ target, chart.holds (.next buffer site target) = true ∧
            d ∈ chart.into key false .bounded target)) ∨
      ∃ key, chart.holds (.potential key) = true ∧ key.buffer = buffer ∧ key.endSite = site ∧
        chart.Filled key true ∧ d = .completeAtEnd key := by
  rw [mem_through]
  cases d <;>
    simp [opening, into, byToken, byMatch, antecedents, or_imp, forall_and, admits_bounded_iff,
      end_mem_boundary, end_mem_openingGuard, end_mem_passingGuard, forall_boundary,
      forall_openingGuard, forall_passingGuard, Applies] <;>
    grind

theorem target_eq_of_mem_opening {x y : Site} (hx : d ∈ chart.opening buffer before x)
    (hy : d ∈ chart.opening buffer before y) : x = y := by
  obtain ⟨id, slot, handle, rfl, rfl, -⟩ | ⟨id, slot, inner, rfl, -, -, -, -, rfl⟩ := hx <;>
    simp_all [opening]

theorem target_eq_of_mem_into {mayExtend : Bool} {openings : Openings} {x y : Site}
    (hx : d ∈ chart.into key mayExtend openings x) (hy : d ∈ chart.into key mayExtend openings y) :
    x = y := by
  obtain ⟨handle, rfl, -, ⟨rfl, -⟩ | ⟨id, slot, rfl, -⟩⟩ |
    ⟨inner, -, -, rfl, ⟨rfl, -⟩ | ⟨id, slot, rfl, -⟩⟩ := hx <;>
  simp_all [into, byToken, byMatch]

/-- Everything that opens right after a site. -/
theorem Sound.lists_openings (h : chart.Sound) (buffer : BufferId) (site : Site) :
    Lists Derivation.conclusion
      ((chart.successors buffer site).flatMap fun target => match target with
        | .token next =>
          (if chart.isAvailable buffer next then chart.openSentencesOnToken buffer next else []) ++
          (chart.completesBeginningAt buffer target).flatMap chart.openSentencesOnMatch
        | .start | .finish => [])
      {d | ∃ target, chart.holds (.next buffer site target) = true ∧
        d ∈ chart.opening buffer site target} := by
  refine (Lists.flatMap (S := chart.opening buffer site) h.nodup_successors ?_
    fun x _ y _ d => target_eq_of_mem_opening).congr ?_
  · rintro (_ | handle | _) -
    · refine Lists.nil.congr (Set.eq_empty_of_forall_notMem fun d hd => ?_).symm
      simp [opening, MatchKey.beginningSite] at hd
    · exact h.lists_opening site handle
    · refine Lists.nil.congr (Set.eq_empty_of_forall_notMem fun d hd => ?_).symm
      simp [opening, MatchKey.beginningSite] at hd
  · simp only [h.mem_successors]

/-- Everything that a sentence end alone lets go on from a match. -/
theorem Sound.lists_bounded (h : chart.Sound) (buffer : BufferId) (site : Site) :
    Lists Derivation.conclusion
      (((chart.waitingAt buffer site).filter fun (_, production) =>
        !production.endsSentences).flatMap fun (key, production) =>
          (chart.successors buffer site).flatMap fun target =>
            chart.advanceInto key production target false .bounded)
      {d | ∃ key, chart.holds (.potential key) = true ∧ key.buffer = buffer ∧ key.endSite = site ∧
          chart.endsSentences key.production = false ∧
          ∃ target, chart.holds (.next buffer site target) = true ∧
            d ∈ chart.into key false .bounded target} := by
  refine (h.lists_waiting ((chart.nodup_waitingAt buffer site).filter _) (List.filter_subset_self _)
    (f := fun key production => (chart.successors buffer site).flatMap fun target =>
      chart.advanceInto key production target false .bounded)
    (S := fun key _ => {d | ∃ target ∈ chart.successors buffer site,
      d ∈ chart.into key false .bounded target}) ?_ ?_).congr ?_
  · intro key production hmem
    obtain ⟨-, hget, -⟩ := h.mem_waitingAt.1 (List.mem_filter.1 hmem).1
    exact Lists.flatMap h.nodup_successors (fun target _ => h.lists_advanceInto hget target)
      fun x _ y _ d => target_eq_of_mem_into
  · rintro key - d ⟨target, -, hd⟩
    exact outer?_of_mem_into hd
  · ext d
    simp only [List.mem_filter, h.mem_waitingAt, h.mem_successors, Set.mem_ofPred_eq]
    constructor
    · rintro ⟨key, production, ⟨⟨⟨hholds, hbuffer, hend⟩, hget, -⟩, hends⟩, hd⟩
      refine ⟨key, hholds, hbuffer, hend, ?_, hd⟩
      simpa [endsSentences, hget] using hends
    · rintro ⟨key, hholds, hbuffer, hend, hends, target, hnext, hd⟩
      have hlt : ∃ production, chart.grammar.get? key.production = some production ∧
          key.slotsFilled < production.arity := by
        obtain ⟨handle, -, -, ⟨-, -, hfalse⟩ | ⟨id, slot, rfl, happlies, -⟩⟩ |
          ⟨inner, -, -, -, ⟨-, -, hfalse⟩ | ⟨id, slot, rfl, happlies, -⟩⟩ := hd
        · cases hfalse
        · exact happlies.1.lt_arity
        · cases hfalse
        · exact happlies.2.1.lt_arity
      obtain ⟨production, hget, hlt⟩ := hlt
      refine ⟨key, production, ⟨⟨⟨hholds, hbuffer, hend⟩, hget, hlt⟩, ?_⟩, target, hnext, hd⟩
      simpa [endsSentences, hget] using hends

theorem Sound.lists_sentenceEnd (h : chart.Sound) (site : Site) :
    Lists Derivation.conclusion (chart.sentenceEndConsequences buffer site)
      (table.through chart (.endOfSentence buffer site true)) := by
  have hcompleted := h.lists_completeSentencesAt buffer site Derivation.completeAtEnd
    (fun a b hab => by injection hab) fun _ => rfl
  unfold sentenceEndConsequences
  by_cases hcomma : (chart.info buffer site).traits.comma = true
  · simp only [hcomma, if_true, List.nil_append]
    refine hcompleted.congr (Set.ext fun d => ?_)
    rw [mem_through_sentenceEnd, hcomma]
    simp
  · simp only [hcomma]
    refine (((h.lists_openings buffer site).append (h.lists_bounded buffer site) ?_).append
      hcompleted ?_).congr (Set.ext fun d => ?_)
    · refine disjoint_of_ne Derivation.outer? ?_
      rintro d ⟨target, -, hd⟩ e ⟨key, -, -, -, -, target', -, he⟩
      rw [(before_of_mem_opening hd).2, outer?_of_mem_into he]
      exact (Option.some_ne_none _).symm
    · rw [Set.disjoint_left]
      rintro d hd ⟨key, -, -, -, -, rfl⟩
      simp [opening, into, byToken, byMatch] at hd
    · rw [mem_through_sentenceEnd]
      simp [hcomma]

/-! ### The middle of a sentence -/

/-- The derivations that extend a match with what begins at a site. -/
def extension (chart : Chart) (key : MatchKey) (target : Site) : Set Derivation :=
  {d | chart.Applies d ∧
    ((∃ handle, target = .token handle ∧ chart.holds (.available key.buffer handle) = true ∧
      d = .extendToken key handle) ∨
    ∃ inner, chart.holds (.complete inner) = true ∧ inner.beginningSite = target ∧
      d = .extendMatch key inner)}

theorem mem_through_continuation : d ∈ table.through chart (.endOfSentence buffer site false) ↔
    ∃ key, chart.holds (.potential key) = true ∧ key.buffer = buffer ∧ key.endSite = site ∧
      chart.isPassage key.production = false ∧
      ∃ target, chart.holds (.next buffer site target) = true ∧ d ∈ chart.extension key target := by
  rw [mem_through]
  cases d <;>
    simp [extension, antecedents, or_imp, forall_and, end_mem_boundary, end_mem_openingGuard,
      end_mem_passingGuard, forall_boundary, forall_openingGuard, forall_passingGuard] <;>
    grind

theorem target_eq_of_mem_extension {x y : Site} (hx : d ∈ chart.extension key x)
    (hy : d ∈ chart.extension key y) : x = y := by
  obtain ⟨-, ⟨handle, rfl, -, rfl⟩ | ⟨inner, -, rfl, rfl⟩⟩ := hx <;> simp_all [extension]

theorem lt_arity_of_mem_extension {target : Site} (h : d ∈ chart.extension key target) :
    ∃ production, chart.grammar.get? key.production = some production ∧
      key.slotsFilled < production.arity := by
  obtain ⟨happlies, ⟨handle, -, -, rfl⟩ | ⟨inner, -, -, rfl⟩⟩ := h
  · exact Fills.lt_arity happlies
  · exact Fills.lt_arity happlies.2

theorem Sound.lists_extension (h : chart.Sound) {production : Production}
    (hget : chart.grammar.get? key.production = some production) (target : Site) :
    Lists Derivation.conclusion
      (match target with
        | .token next =>
          (if chart.isAvailable key.buffer next then
            chart.extendByToken key production next (chart.info key.buffer target) else []) ++
          (chart.completesBeginningAt key.buffer target).flatMap
            (chart.extendByMatch key production)
        | .start | .finish => [])
      (chart.extension key target) := by
  cases target with
  | token handle =>
    refine ((Lists.ite fun _ => lists_extendByToken hget).append (Lists.flatMap
      (nodup_completesBeginningAt ..) (fun inner _ => lists_extendByMatch hget) ?_) ?_).congr ?_
    · rintro x - y - d ⟨-, rfl⟩ ⟨-, heq⟩
      injection heq
    · rw [Set.disjoint_left]
      rintro d ⟨-, -, rfl⟩ ⟨inner, -, -, heq⟩
      cases heq
    · ext d
      simp only [extension, Set.mem_union, Set.mem_ofPred_eq, h.mem_completesBeginningAt]
      constructor
      · rintro (⟨havailable, hfills, rfl⟩ | ⟨inner, ⟨hholds, hbuffer, hsite⟩, hfills, rfl⟩)
        · exact ⟨hfills, .inl ⟨handle, rfl, havailable, rfl⟩⟩
        · exact ⟨⟨hbuffer, hfills⟩, .inr ⟨inner, hholds, hsite, rfl⟩⟩
      · rintro ⟨happlies, ⟨_, heq, havailable, rfl⟩ | ⟨inner, hholds, hsite, rfl⟩⟩
        · injection heq with heq
          subst heq
          exact .inl ⟨havailable, happlies, rfl⟩
        · exact .inr ⟨inner, ⟨hholds, happlies.1, hsite⟩, happlies.2, rfl⟩
  | start =>
    refine Lists.nil.congr (Set.eq_empty_of_forall_notMem fun d hd => ?_).symm
    simp [extension, MatchKey.beginningSite] at hd
  | finish =>
    refine Lists.nil.congr (Set.eq_empty_of_forall_notMem fun d hd => ?_).symm
    simp [extension, MatchKey.beginningSite] at hd

theorem Sound.lists_continuation (h : chart.Sound) (site : Site) :
    Lists Derivation.conclusion (chart.continuationConsequences buffer site)
      (table.through chart (.endOfSentence buffer site false)) := by
  refine (h.lists_waiting ((chart.nodup_waitingAt buffer site).filter _)
    (List.filter_subset_self _)
    (f := fun key production => (chart.successors buffer site).flatMap fun target =>
      match target with
      | .token next =>
        (if chart.isAvailable buffer next then
          chart.extendByToken key production next (chart.info buffer target) else []) ++
        (chart.completesBeginningAt buffer target).flatMap (chart.extendByMatch key production)
      | .start | .finish => [])
    (S := fun key _ => {d | ∃ target ∈ chart.successors buffer site,
      d ∈ chart.extension key target}) ?_ ?_).congr (Set.ext fun d => ?_)
  · intro key production hmem
    obtain ⟨⟨-, rfl, -⟩, hget, -⟩ := h.mem_waitingAt.1 (List.mem_filter.1 hmem).1
    exact Lists.flatMap h.nodup_successors (fun target _ => h.lists_extension hget target)
      fun x _ y _ d => target_eq_of_mem_extension
  · rintro key - d ⟨target, -, -, ⟨handle, -, -, rfl⟩ | ⟨inner, -, -, rfl⟩⟩ <;> rfl
  · rw [mem_through_continuation]
    simp only [List.mem_filter, h.mem_waitingAt, h.mem_successors, Set.mem_ofPred_eq]
    constructor
    · rintro ⟨key, production, ⟨⟨⟨hholds, hbuffer, hend⟩, hget, -⟩, hpassage⟩, hd⟩
      refine ⟨key, hholds, hbuffer, hend, ?_, hd⟩
      simpa [isPassage, hget] using hpassage
    · rintro ⟨key, hholds, hbuffer, hend, hpassage, target, hnext, hd⟩
      obtain ⟨production, hget, hlt⟩ := lt_arity_of_mem_extension hd
      refine ⟨key, production, ⟨⟨⟨hholds, hbuffer, hend⟩, hget, hlt⟩, ?_⟩, target, hnext, hd⟩
      simpa [isPassage, hget] using hpassage

end Chart

end LiveProse
