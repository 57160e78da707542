import LiveProse.Proofs.Chart.Triggers

/-! A production that comes into use triggers its derivations in every buffer: those at the sentence
boundaries, found through the index over what begins at a site, and those under the matches that
wait for it, found through the index over what matches ask for. -/

namespace LiveProse

namespace Chart

variable {chart : Chart} {id : ProductionId} {site before : Site}
variable {buffer : Buffer} {production : Production}
variable {key inner : MatchKey} {handle : Handle} {d : Derivation}

/-! ### What the indices find -/

theorem info_of_standing {id : BufferId} {info : SiteInfo} {markers negations : List Fact}
    (hbuffer : chart.buffer? id = some buffer)
    (hstanding : buffer.standing site = some (info, markers, negations)) :
    chart.info id site = info := by
  obtain ⟨record, hrecord, heq⟩ := Option.map_eq_some_iff.1 hstanding
  rw [Chart.info, record?, hbuffer, Option.bind_some, hrecord]
  exact congrArg Prod.fst heq

theorem tokenUnder_iff (hbuffer : chart.buffer? buffer.id = some buffer) {key : ParsemeKey} :
    buffer.TokenUnder key (.token handle) ↔
      chart.holds (.available buffer.id handle) = true ∧
        key ∈ ParsemeKey.ofToken (chart.info buffer.id (.token handle)) := by
  rw [holds_of_buffer? rfl hbuffer, Buffer.holds_available]
  constructor
  · rintro ⟨handle', info, markers, negations, heq, hstanding, hmarkers, hkey⟩
    injection heq with heq
    subst heq
    rw [hstanding, info_of_standing hbuffer hstanding]
    exact ⟨by simpa using hmarkers, hkey⟩
  · rintro ⟨havailable, hkey⟩
    obtain ⟨⟨info, markers, negations⟩, hstanding, hmarkers⟩ := (Option.any_eq_true _ _).1 havailable
    rw [info_of_standing hbuffer hstanding] at hkey
    exact ⟨handle, info, markers, negations, rfl, hstanding, by simpa using hmarkers, hkey⟩

theorem Sound.matchUnder_iff (h : chart.Sound) (hbuffer : chart.buffer? buffer.id = some buffer)
    {name : Word} : buffer.MatchUnder chart.grammar name site ↔
      ∃ inner, chart.holds (.complete inner) = true ∧ inner.buffer = buffer.id ∧
        inner.beginningSite = site ∧ (chart.result? inner).any (·.name = name) = true := by
  constructor
  · rintro ⟨inner, production, hholds, hsite, hget, hname⟩
    have hown := (h.buffer hbuffer).noted.own_of_holds (.complete inner) hholds
      inner.beginningSite_mem_ends
    refine ⟨inner, ?_, Option.some.inj hown, hsite, by simp [result?, hget, hname]⟩
    rw [holds_of_buffer? hown hbuffer]
    exact hholds
  · rintro ⟨inner, hholds, hown, hsite, hresult⟩
    have hown : (Fact.complete inner).buffer? = some buffer.id := congrArg some hown
    rw [holds_of_buffer? hown hbuffer] at hholds
    rw [result?, Option.any_map] at hresult
    obtain ⟨production, hget, hname⟩ := (Option.any_eq_true _ _).1 hresult
    exact ⟨inner, production, hholds, hsite, hget, by simpa using hname⟩

/-- The tokens that a production may open on are found under the terminals it begins with. -/
def terminalSites (buffer : Buffer) (production : Production) : List Handle :=
  let keys := (production.beginnings.filterMap (·.key?)).eraseDups
  let terminals := keys.filter fun key => match key with
    | .nonterminal _ => false
    | _ => true
  ((terminals.flatMap buffer.parsemeBeginnings.get).filterMap (·.handle?)).eraseDups

theorem nodup_terminalSites (buffer : Buffer) (production : Production) :
    (terminalSites buffer production).Nodup :=
  nodup_eraseDups _

theorem Sound.mem_terminalSites (h : chart.Sound) (hbuffer : chart.buffer? buffer.id = some buffer) :
    handle ∈ terminalSites buffer production ↔
      chart.holds (.available buffer.id handle) = true ∧
        ∃ key ∈ Grammar.beginningKeys production,
          key ∈ ParsemeKey.ofToken (chart.info buffer.id (.token handle)) := by
  unfold terminalSites
  simp only [List.mem_eraseDups, List.mem_filterMap, List.mem_flatMap, List.mem_filter,
    PairIndex.mem_get, (h.buffer hbuffer).filed.mem_beginnings]
  constructor
  · rintro ⟨site, ⟨key, ⟨⟨parseme, hparseme, hkey⟩, hterminal⟩, hfiled⟩, hhandle⟩
    have hsite : site = .token handle := by
      cases site <;> simp_all [Site.handle?]
    subst hsite
    obtain hunder | ⟨name, rfl, -⟩ := hfiled
    · obtain ⟨havailable, hmem⟩ := (tokenUnder_iff hbuffer).1 hunder
      exact ⟨havailable, key, List.mem_filterMap.2 ⟨parseme, hparseme, hkey⟩, hmem⟩
    · cases hterminal
  · rintro ⟨havailable, key, hkey, hmem⟩
    refine ⟨.token handle, ⟨key, ⟨List.mem_filterMap.1 hkey, ?_⟩,
      .inl ((tokenUnder_iff hbuffer).2 ⟨havailable, hmem⟩)⟩, rfl⟩
    cases key with
    | nonterminal name => exact absurd hmem ParsemeKey.nonterminal_not_mem_ofToken
    | _ => rfl

/-! ### At the boundaries -/

/-- The derivations that open a production at the boundaries of a buffer. -/
def atBoundaries (chart : Chart) (id : ProductionId) (buffer : BufferId) : Set Derivation :=
  {d | chart.Applies d ∧
    ((∃ slot before handle, d = .boundaryToken buffer id slot before handle ∧
        chart.holds (.next buffer before (.token handle)) = true ∧
        chart.opensSentenceAfter buffer before = true ∧
        chart.holds (.available buffer handle) = true) ∨
      ∃ slot before inner, d = .boundaryMatch id slot before inner ∧ inner.buffer = buffer ∧
        chart.holds (.next buffer before inner.beginningSite) = true ∧
        chart.opensSentenceAfter buffer before = true ∧ chart.holds (.complete inner) = true)}

theorem Sound.nodup_boundaries (h : chart.Sound) (id : BufferId) (site : Site) :
    ((chart.predecessors id site).filter (chart.opensSentenceAfter id)).Nodup :=
  h.nodup_predecessors.filter _

theorem Sound.lists_boundaryTokens (h : chart.Sound)
    (hbuffer : chart.buffer? buffer.id = some buffer)
    (hget : chart.grammar.get? id = some production) :
    Lists Derivation.conclusion
      ((terminalSites buffer production).flatMap fun handle =>
        ((chart.predecessors buffer.id (.token handle)).filter
          (chart.opensSentenceAfter buffer.id)).flatMap fun _ =>
            chart.openOnToken buffer.id id handle (chart.info buffer.id (.token handle)))
      {d | ∃ slot before handle, d = .boundaryToken buffer.id id slot before handle ∧
        chart.Opens id slot (·.acceptsToken (chart.info buffer.id (.token handle)))
          (chart.info buffer.id (.token handle)) (chart.info buffer.id (.token handle)) ∧
        chart.holds (.next buffer.id before (.token handle)) = true ∧
        chart.opensSentenceAfter buffer.id before = true ∧
        chart.holds (.available buffer.id handle) = true} := by
  refine (Lists.flatMap (nodup_terminalSites buffer production) (fun handle _ => Lists.flatMap
    (h.nodup_boundaries buffer.id (.token handle)) (fun before _ =>
      lists_openOnToken (fun slot => Derivation.boundaryToken buffer.id id slot before handle)
        (fun a b hab => by injection hab) fun _ => rfl) ?_) ?_).congr ?_
  · rintro x - y - d ⟨slot, -, rfl⟩ ⟨slot', -, heq⟩
    injection heq
  · rintro x - y - d ⟨before, -, slot, -, rfl⟩ ⟨before', -, slot', -, heq⟩
    injection heq
  · ext d
    simp only [Set.mem_ofPred_eq, h.mem_terminalSites hbuffer, List.mem_filter, h.mem_predecessors]
    constructor
    · rintro ⟨handle, ⟨havailable, -⟩, before, ⟨hnext, hopens⟩, slot, happlies, rfl⟩
      exact ⟨slot, before, handle, rfl, happlies, hnext, hopens, havailable⟩
    · rintro ⟨slot, before, handle, rfl, happlies, hnext, hopens, havailable⟩
      refine ⟨handle, ⟨havailable, ?_⟩, before, ⟨hnext, hopens⟩, slot, happlies, rfl⟩
      have ⟨production', hget', hslot, _⟩ := happlies
      cases hget.symm.trans hget'
      obtain ⟨slot, haccepts, hbeginnings⟩ := production.exists_beginning hslot
      obtain ⟨parseme, hparseme, key, hkey, hmem⟩ := mem_ofToken haccepts
      exact ⟨key, List.mem_filterMap.2 ⟨parseme, hbeginnings parseme hparseme, hkey⟩, hmem⟩

/-- The names of the nonterminals that a production begins with. -/
def beginningNames (production : Production) : List Word :=
  ((production.beginnings.filterMap (·.key?)).eraseDups).filterMap fun key => match key with
    | .nonterminal name => some name
    | _ => none

theorem mem_beginningNames {name : Word} :
    name ∈ beginningNames production ↔ .nonterminal name ∈ Grammar.beginningKeys production := by
  unfold beginningNames
  simp only [List.mem_filterMap, List.mem_eraseDups]
  constructor
  · rintro ⟨key, hkey, heq⟩
    cases key <;> simp_all [Grammar.beginningKeys]
  · intro hmem
    exact ⟨.nonterminal name, List.mem_filterMap.1 hmem, rfl⟩

theorem nodup_beginningNames (production : Production) : (beginningNames production).Nodup := by
  refine nodup_filterMap (nodup_eraseDups _) ?_
  intro a _ b _ y hy hy'
  cases a <;> cases b <;> simp_all

theorem Sound.lists_boundaryMatches (h : chart.Sound)
    (hbuffer : chart.buffer? buffer.id = some buffer)
    (hget : chart.grammar.get? id = some production) :
    Lists Derivation.conclusion
      ((beginningNames production).flatMap fun name =>
        (buffer.parsemeBeginnings.get (.nonterminal name)).flatMap fun site =>
          ((chart.completesBeginningAt buffer.id site).filter fun inner =>
            (chart.result? inner).any (·.name = name)).flatMap fun inner =>
              ((chart.predecessors buffer.id site).filter
                (chart.opensSentenceAfter buffer.id)).flatMap fun _ => chart.openOnMatch id inner)
      {d | ∃ slot before inner, d = .boundaryMatch id slot before inner ∧
        chart.Opens id slot (chart.acceptsResult inner)
          (chart.info inner.buffer inner.beginningSite) (chart.info inner.buffer inner.endSite) ∧
        inner.buffer = buffer.id ∧
        chart.holds (.next buffer.id before inner.beginningSite) = true ∧
        chart.opensSentenceAfter buffer.id before = true ∧
        chart.holds (.complete inner) = true} := by
  refine (Lists.flatMap (nodup_beginningNames production) (fun name _ => Lists.flatMap
    (PairIndex.nodup_get (h.buffer hbuffer).filed.nodup_beginnings (.nonterminal name))
    (fun site _ => Lists.flatMap ((nodup_completesBeginningAt ..).filter _) (fun inner _ =>
      Lists.flatMap (h.nodup_boundaries buffer.id site) (fun before _ => lists_openOnMatch
        (fun slot => Derivation.boundaryMatch id slot before inner)
        (fun a b hab => by injection hab) fun _ => rfl) ?_) ?_) ?_) ?_).congr ?_
  · -- none is listed twice: what the lists are indexed by is part of each derivation in them
    rintro x - y - d ⟨slot, -, rfl⟩ ⟨slot', -, heq⟩
    injection heq
  · rintro x - y - d ⟨before, -, slot, -, rfl⟩ ⟨before', -, slot', -, heq⟩
    injection heq
  · rintro x - y - d ⟨inner, hinner, before, -, slot, -, rfl⟩
      ⟨inner', hinner', before', -, slot', -, heq⟩
    have hx := h.mem_completesBeginningAt.1 (List.mem_filter.1 hinner).1
    have hy := h.mem_completesBeginningAt.1 (List.mem_filter.1 hinner').1
    injection heq with _ _ _ heq
    rw [← hx.2.2, ← hy.2.2, heq]
  · rintro x - y - d ⟨site, -, inner, hinner, before, -, slot, -, rfl⟩
      ⟨site', -, inner', hinner', before', -, slot', -, heq⟩
    injection heq with _ _ _ heq
    subst heq
    -- the name is not part of the derivation, but the result of the inner match has only one
    obtain ⟨result, hresult, hx⟩ := (Option.any_eq_true _ _).1 (List.mem_filter.1 hinner).2
    have hy := (List.mem_filter.1 hinner').2
    rw [hresult, Option.any_some] at hy
    exact (of_decide_eq_true hx).symm.trans (of_decide_eq_true hy)
  · ext d
    simp only [Set.mem_ofPred_eq, mem_beginningNames, PairIndex.mem_get, List.mem_filter,
      h.mem_predecessors, h.mem_completesBeginningAt]
    constructor
    · rintro ⟨name, -, site, -, inner, ⟨⟨hholds, hown, rfl⟩, -⟩, before, ⟨hnext, hopens⟩, slot,
        happlies, rfl⟩
      exact ⟨slot, before, inner, rfl, happlies, hown, hnext, hopens, hholds⟩
    · rintro ⟨slot, before, inner, rfl, happlies, hown, hnext, hopens, hholds⟩
      have ⟨production', hget', hslot, _⟩ := happlies
      cases hget.symm.trans hget'
      obtain ⟨slot', haccepts, hbeginnings⟩ := production.exists_beginning hslot
      obtain ⟨result, hresult, haccepts⟩ := (Option.any_eq_true _ _).1 haccepts
      obtain ⟨parseme, hparseme, hkey⟩ := mem_resultKey haccepts
      have hname : (chart.result? inner).any (·.name = result.name) = true := by simp [hresult]
      refine ⟨result.name, List.mem_filterMap.2 ⟨parseme, hbeginnings parseme hparseme, hkey⟩,
        inner.beginningSite, ((h.buffer hbuffer).filed.mem_beginnings _ _).2 (.inr ⟨_, rfl, ?_⟩),
        inner, ⟨⟨hholds, hown, rfl⟩, hname⟩, before, ⟨hnext, hopens⟩, slot, happlies, rfl⟩
      exact (h.matchUnder_iff hbuffer).2 ⟨inner, hholds, hown, rfl, hname⟩

/-! ### Under matches -/

/-- The derivations that open a production under a match, into a site. -/
def opensInto (chart : Chart) (id : ProductionId) (key : MatchKey) (target : Site) :
    Set Derivation :=
  {d | (∃ slot handle, target = .token handle ∧ d = .underToken key id slot handle ∧
      chart.Opens id slot (·.acceptsToken (chart.info key.buffer (.token handle)))
        (chart.info key.buffer (.token handle)) (chart.info key.buffer (.token handle)) ∧
      chart.holds (.available key.buffer handle) = true) ∨
    ∃ slot inner, d = .underMatch key id slot inner ∧
      chart.Opens id slot (chart.acceptsResult inner)
        (chart.info inner.buffer inner.beginningSite) (chart.info inner.buffer inner.endSite) ∧
      chart.holds (.complete inner) = true ∧ inner.buffer = key.buffer ∧
      inner.beginningSite = target}

theorem Sound.lists_opensInto (h : chart.Sound) (id : ProductionId) (key : MatchKey)
    (target : Site) :
    Lists Derivation.conclusion
      (match target with
        | .token site =>
          (if chart.isAvailable key.buffer site then
            chart.openOnToken key.buffer id site (chart.info key.buffer target) else []) ++
          (chart.completesBeginningAt key.buffer target).flatMap (chart.openOnMatch id)
        | .start | .finish => [])
      (chart.opensInto id key target) := by
  cases target with
  | token handle =>
    refine ((Lists.ite fun _ => lists_openOnToken
      (fun slot => Derivation.underToken key id slot handle)
      (fun a b hab => by injection hab) fun _ => rfl).append
        (Lists.flatMap (nodup_completesBeginningAt ..) (fun inner _ => lists_openOnMatch
          (fun slot => Derivation.underMatch key id slot inner)
          (fun a b hab => by injection hab) fun _ => rfl) ?_) ?_).congr ?_
    · rintro x - y - d ⟨slot, -, rfl⟩ ⟨slot', -, heq⟩
      injection heq
    · refine disjoint_of_ne Derivation.inner? ?_
      rintro d ⟨-, slot, -, rfl⟩ e ⟨inner, -, slot', -, rfl⟩
      exact (Option.some_ne_none _).symm
    · ext d
      simp only [opensInto, Set.mem_union, Set.mem_ofPred_eq, h.mem_completesBeginningAt]
      constructor
      · rintro (⟨havailable, slot, happlies, rfl⟩ |
          ⟨inner, ⟨hholds, hown, hsite⟩, slot, happlies, rfl⟩)
        · exact .inl ⟨slot, handle, rfl, rfl, happlies, havailable⟩
        · exact .inr ⟨slot, inner, rfl, happlies, hholds, hown, hsite⟩
      · rintro (⟨slot, _, heq, rfl, happlies, havailable⟩ |
          ⟨slot, inner, rfl, happlies, hholds, hown, hsite⟩)
        · injection heq with heq
          subst heq
          exact .inl ⟨havailable, slot, happlies, rfl⟩
        · exact .inr ⟨inner, ⟨hholds, hown, hsite⟩, slot, happlies, rfl⟩
  | start =>
    refine Lists.nil.congr (Set.eq_empty_of_forall_notMem fun d hd => ?_).symm
    simp [opensInto, MatchKey.beginningSite] at hd
  | finish =>
    refine Lists.nil.congr (Set.eq_empty_of_forall_notMem fun d hd => ?_).symm
    simp [opensInto, MatchKey.beginningSite] at hd

theorem target_eq_of_mem_opensInto {x y : Site} (hx : d ∈ chart.opensInto id key x)
    (hy : d ∈ chart.opensInto id key y) : x = y := by
  obtain ⟨slot, handle, rfl, rfl, -⟩ | ⟨slot, inner, rfl, -, -, -, rfl⟩ := hx <;>
    simp_all [opensInto]

theorem outer?_of_mem_opensInto {target : Site} (h : d ∈ chart.opensInto id key target) :
    d.outer? = some key := by
  obtain ⟨slot, handle, -, rfl, -⟩ | ⟨slot, inner, rfl, -⟩ := h <;> rfl

theorem wants_of_mem_needs {grammar : Grammar} {wanted : Nonterminal}
    (h : wanted ∈ grammar.needs key) : grammar.Wants wanted := by
  unfold Grammar.needs at h
  cases hget : grammar.get? key.production with
  | none => simp [hget] at h
  | some production =>
    rw [hget, Option.bind_some] at h
    cases hslot : production.slot? key.slotsFilled with
    | none => simp [hslot] at h
    | some slot =>
      rw [hslot] at h
      exact ⟨_, production, slot, hget, List.mem_of_getElem? hslot, h⟩

/-- The matches of a buffer that wait for a production. -/
def predictors (chart : Chart) (id : ProductionId) (buffer : Buffer) : List MatchKey :=
  ((chart.grammar.ancestors.get id).flatMap buffer.partialMatches.get).eraseDups

theorem Sound.mem_predictors (h : chart.Sound) (hbuffer : chart.buffer? buffer.id = some buffer) :
    key ∈ chart.predictors id buffer ↔
      chart.holds (.potential key) = true ∧ key.buffer = buffer.id ∧ chart.Continues key id := by
  unfold predictors
  simp only [List.mem_eraseDups, List.mem_flatMap, PairIndex.mem_get, h.grammar.mem_ancestors,
    (h.buffer hbuffer).filed.mem_partials]
  constructor
  · rintro ⟨wanted, ⟨-, hbegins⟩, hcontains, hneeds⟩
    have hown := (h.buffer hbuffer).noted.own_of_holds (.potential key) hcontains
      key.endSite_mem_ends
    refine ⟨?_, Option.some.inj hown, wanted, hneeds, hbegins⟩
    rw [holds_of_buffer? hown hbuffer]
    exact hcontains
  · rintro ⟨hholds, hown, wanted, hneeds, hbegins⟩
    have hown : (Fact.potential key).buffer? = some buffer.id := congrArg some hown
    rw [holds_of_buffer? hown hbuffer] at hholds
    exact ⟨wanted, ⟨wants_of_mem_needs hneeds, hbegins⟩, hholds, hneeds⟩

/-- The derivations that open a production under the matches of a buffer. -/
def underMatches (chart : Chart) (id : ProductionId) (buffer : BufferId) : Set Derivation :=
  {d | ∃ key, chart.holds (.potential key) = true ∧ key.buffer = buffer ∧
    chart.Continues key id ∧ (∀ a ∈ chart.openingGuard key id, chart.holds a = true) ∧
    ∃ target, chart.holds (.next buffer key.endSite target) = true ∧
      d ∈ chart.opensInto id key target}

theorem nodup_predictors (chart : Chart) (id : ProductionId) (buffer : Buffer) :
    (chart.predictors id buffer).Nodup :=
  nodup_eraseDups _

/-- What a production opens under one match that waits for it. -/
theorem Sound.lists_underMatch (h : chart.Sound) {buffer : BufferId} (hown : key.buffer = buffer)
    (hget : chart.grammar.get? id = some production) (hcontinues : chart.Continues key id) :
    Lists Derivation.conclusion
      (match chart.grammar.get? key.production with
        | none => []
        | some parent =>
          let boundary := chart.opensSentenceAfter buffer key.endSite
          if (Openings.under parent boundary).admits production then
            (chart.successors buffer key.endSite).flatMap fun target =>
              match target with
              | .token site =>
                (if chart.isAvailable buffer site then
                  chart.openOnToken buffer id site (chart.info buffer target) else []) ++
                (chart.completesBeginningAt buffer target).flatMap (chart.openOnMatch id)
              | .start | .finish => []
          else [])
      {d | (∀ a ∈ chart.openingGuard key id, chart.holds a = true) ∧
        ∃ target ∈ chart.successors buffer key.endSite, d ∈ chart.opensInto id key target} := by
  subst hown
  obtain ⟨parent, hparent, -⟩ := hcontinues.lt_arity
  have hadmits := @admits_under_iff_guard chart id key parent hparent
  rw [hget, Option.any_some, Option.isSome_some, and_iff_right rfl] at hadmits
  simp only [hparent]
  refine (Lists.ite fun _ => Lists.flatMap h.nodup_successors
    (fun target _ => h.lists_opensInto id key target)
    fun x _ y _ d => target_eq_of_mem_opensInto).congr (Set.ext fun d => ?_)
  simp only [Set.mem_ofPred_eq, hadmits]

theorem Sound.lists_underMatches (h : chart.Sound)
    (hbuffer : chart.buffer? buffer.id = some buffer)
    (hget : chart.grammar.get? id = some production) :
    Lists Derivation.conclusion (chart.productionUnderMatches id production buffer)
      (chart.underMatches id buffer.id) := by
  refine (Lists.flatMap (S := fun key => {d | (∀ a ∈ chart.openingGuard key id,
      chart.holds a = true) ∧ ∃ target ∈ chart.successors buffer.id key.endSite,
        d ∈ chart.opensInto id key target})
    (chart.nodup_predictors id buffer) (fun key hkey => ?_) ?_).congr ?_
  · obtain ⟨-, hown, hcontinues⟩ := (h.mem_predictors hbuffer).1 hkey
    exact h.lists_underMatch hown hget hcontinues
  · rintro x - y - d ⟨-, target, -, hx⟩ ⟨-, target', -, hy⟩
    exact Option.some.inj ((outer?_of_mem_opensInto hx).symm.trans (outer?_of_mem_opensInto hy))
  · ext d
    simp only [underMatches, h.mem_predictors hbuffer, h.mem_successors, Set.mem_ofPred_eq,
      and_assoc]

/-! ### In every buffer -/

/-- The derivations that a production in use comes to in a buffer. -/
def introduced (chart : Chart) (id : ProductionId) (buffer : BufferId) : Set Derivation :=
  {d | (chart.grammar.BeginsSentence id ∧ d ∈ chart.atBoundaries id buffer) ∨
    d ∈ chart.underMatches id buffer}

theorem mem_through_production : d ∈ table.through chart (.production id) ↔
    ∃ buffer, d ∈ chart.introduced id buffer := by
  rw [mem_through]
  cases d <;>
    simp [introduced, atBoundaries, underMatches, opensInto, antecedents, or_imp, forall_and,
      not_mem_boundary, not_mem_openingGuard, not_mem_passingGuard, forall_boundary,
      forall_openingGuard, forall_passingGuard, opensSentenceAfter_iff, Applies] <;>
    grind

theorem buffer_eq_of_mem_introduced {x y : BufferId} (hx : d ∈ chart.introduced id x)
    (hy : d ∈ chart.introduced id y) : x = y := by
  obtain ⟨-, -, ⟨slot, before, handle, rfl, -⟩ | ⟨slot, before, inner, rfl, rfl, -⟩⟩ |
    ⟨key, -, rfl, -, -, target, -, ⟨slot, handle, -, rfl, -⟩ | ⟨slot, inner, rfl, -⟩⟩ := hx <;>
  simp_all [introduced, atBoundaries, underMatches, opensInto]

/-- Derivations are in buffers that there are. -/
theorem isSome_of_mem_introduced {buffer : BufferId} (h : d ∈ chart.introduced id buffer) :
    (chart.buffer? buffer).isSome = true := by
  have hnext : ∃ source target, chart.holds (.next buffer source target) = true := by
    obtain ⟨-, -, ⟨slot, before, handle, -, hnext, -⟩ | ⟨slot, before, inner, -, -, hnext, -⟩⟩ |
      ⟨key, -, -, -, -, target, hnext, -⟩ := h <;> exact ⟨_, _, hnext⟩
  obtain ⟨source, target, hnext⟩ := hnext
  exact Option.isSome_iff_exists.2 (exists_buffer?_of_holds rfl hnext)

theorem lists_introduced (h : chart.Sound) (hbuffer : chart.buffer? buffer.id = some buffer)
    (hget : chart.grammar.get? id = some production) :
    Lists Derivation.conclusion
      ((if chart.grammar.canBeginSentence id then
        chart.productionAtBoundaries id production buffer else []) ++
      chart.productionUnderMatches id production buffer)
      (chart.introduced id buffer.id) := by
  have htokens := h.lists_boundaryTokens hbuffer hget
  have hmatches := h.lists_boundaryMatches hbuffer hget
  refine ((Lists.ite fun _ => htokens.append hmatches ?_).append
    (h.lists_underMatches hbuffer hget) ?_).congr (Set.ext fun d => ?_)
  · refine disjoint_of_ne Derivation.inner? ?_
    rintro d ⟨slot, before, handle, rfl, -⟩ e ⟨slot', before', inner, rfl, -⟩
    exact (Option.some_ne_none _).symm
  · refine disjoint_of_ne Derivation.outer? ?_
    rintro d ⟨-, hd⟩ e ⟨key, -, -, -, -, target, -, he⟩
    rw [outer?_of_mem_opensInto he]
    obtain ⟨slot, before, handle, rfl, -⟩ | ⟨slot, before, inner, rfl, -⟩ := hd <;>
      exact (Option.some_ne_none _).symm
  · simp only [introduced, atBoundaries, Set.mem_union, Set.mem_ofPred_eq, h.grammar.sentences]
    refine or_congr_left (and_congr_right fun hbegins => ?_)
    constructor
    · rintro (⟨slot, before, handle, rfl, hopens, hrest⟩ |
        ⟨slot, before, inner, rfl, hopens, hrest⟩)
      · exact ⟨⟨hbegins, hopens⟩, .inl ⟨slot, before, handle, rfl, hrest⟩⟩
      · exact ⟨⟨hbegins, hopens⟩, .inr ⟨slot, before, inner, rfl, hrest⟩⟩
    · rintro ⟨happlies, ⟨slot, before, handle, rfl, hrest⟩ | ⟨slot, before, inner, rfl, hrest⟩⟩
      · exact .inl ⟨slot, before, handle, rfl, happlies.2, hrest⟩
      · exact .inr ⟨slot, before, inner, rfl, happlies.2, hrest⟩

theorem Sound.lists_production (h : chart.Sound) (id : ProductionId) :
    Lists Derivation.conclusion (chart.productionConsequences id)
      (table.through chart (.production id)) := by
  unfold productionConsequences
  cases hget : chart.grammar.get? id with
  | none =>
    refine Lists.nil.congr (Set.eq_empty_of_forall_notMem fun d hd => ?_).symm
    have hopens : (chart.grammar.get? id).isSome = true := by
      obtain ⟨buffer, ⟨-, happlies, ⟨slot, before, handle, rfl, -⟩ | ⟨slot, before, inner, rfl, -⟩⟩ |
        ⟨key, -, -, -, -, target, -, ⟨slot, handle, -, -, hopens, -⟩ | ⟨slot, inner, -, hopens, -⟩⟩⟩ :=
        mem_through_production.1 hd
      · exact happlies.2.isSome
      · exact happlies.2.isSome
      · exact hopens.isSome
      · exact hopens.isSome
    simp [hget] at hopens
  | some production =>
    refine (Lists.flatMap (List.Nodup.of_map _ h.ids) (fun buffer hmem => lists_introduced h
      ((buffer?_eq_some_iff h.ids).2 ⟨hmem, rfl⟩) hget) ?_).congr (Set.ext fun d => ?_)
    · intro x hx y hy d hdx hdy
      exact List.inj_on_of_nodup_map h.ids hx hy (buffer_eq_of_mem_introduced hdx hdy)
    · rw [mem_through_production]
      constructor
      · rintro ⟨buffer, -, hd⟩
        exact ⟨buffer.id, hd⟩
      · rintro ⟨id', hd⟩
        obtain ⟨buffer, hbuffer⟩ := Option.isSome_iff_exists.1 (isSome_of_mem_introduced hd)
        obtain ⟨hmem, rfl⟩ := buffer?_eq_some hbuffer
        exact ⟨buffer, hmem, hd⟩

/-- The consequences of a fact are the conclusions of the derivations that lead through it, once for
each derivation. -/
theorem Sound.lists_consequences (h : chart.Sound) (fact : Fact) :
    Lists Derivation.conclusion (chart.consequences fact) (table.through chart fact) := by
  cases fact with
  | production id => exact h.lists_production id
  | available buffer handle => exact h.lists_available handle
  | next buffer source target => exact h.lists_next source target
  | endOfSentence buffer site positive =>
    cases positive with
    | true => exact h.lists_sentenceEnd site
    | false => exact h.lists_continuation site
  | potential key => exact h.lists_potential key
  | complete key => exact h.lists_complete key

end Chart

end LiveProse
