import LiveProse.Proofs.Chart.Rows

/-! The consequences of a fact are the conclusions of the derivations that lead through it, once for
each derivation: what each kind of fact triggers agrees with the one derivation table. -/

namespace LiveProse

namespace Derivation

/-- The site that a derivation goes on from. -/
def before : Derivation → Site
  | boundaryToken _ _ _ before _ | boundaryMatch _ _ before _ => before
  | underToken outer _ _ _ | underMatch outer _ _ _ => outer.endSite
  | extendToken key _ | extendMatch key _ | skip key | completeWording key | completeAtEnd key
  | completeBefore key _ => key.endSite

/-- The potential match that a derivation goes on from. -/
def outer? : Derivation → Option MatchKey
  | boundaryToken _ _ _ _ _ | boundaryMatch _ _ _ _ => none
  | underToken outer _ _ _ | underMatch outer _ _ _ => some outer
  | extendToken key _ | extendMatch key _ | skip key | completeWording key | completeAtEnd key
  | completeBefore key _ => some key

/-- The match that a derivation takes in. -/
def inner? : Derivation → Option MatchKey
  | boundaryMatch _ _ _ inner | underMatch _ _ _ inner | extendMatch _ inner => some inner
  | _ => none

end Derivation

namespace Chart

variable {chart : Chart} {buffer : BufferId} {id : ProductionId} {site : Site} {fact : Fact}
variable {outer : MatchKey} {p : Fact → Prop}

/-! ### Guards -/

theorem forall_boundary : (∀ a ∈ chart.boundary buffer site, p a) ↔
    ((chart.info buffer site).traits.comma = true ∨ p (.endOfSentence buffer site true)) := by
  unfold boundary
  split_ifs with h <;> simp [h]

theorem mem_boundary : fact ∈ chart.boundary buffer site ↔
    (chart.info buffer site).traits.comma = false ∧ fact = .endOfSentence buffer site true := by
  unfold boundary
  split_ifs with h <;> simp [h]

theorem forall_openingGuard : (∀ a ∈ chart.openingGuard outer id, p a) ↔
    (chart.endsSentences id = true → chart.endsSentences outer.production = false →
      (chart.info outer.buffer outer.endSite).traits.comma = true ∨
        p (.endOfSentence outer.buffer outer.endSite true)) := by
  unfold openingGuard
  rw [← forall_boundary]
  cases chart.endsSentences id <;> cases chart.endsSentences outer.production <;> simp

theorem mem_openingGuard : fact ∈ chart.openingGuard outer id ↔
    (chart.endsSentences id = true ∧ chart.endsSentences outer.production = false) ∧
      (chart.info outer.buffer outer.endSite).traits.comma = false ∧
        fact = .endOfSentence outer.buffer outer.endSite true := by
  unfold openingGuard
  rw [← mem_boundary]
  cases chart.endsSentences id <;> cases chart.endsSentences outer.production <;> simp

theorem forall_passingGuard : (∀ a ∈ chart.passingGuard outer, p a) ↔
    (chart.isPassage outer.production = true ∨
      p (.endOfSentence outer.buffer outer.endSite false)) := by
  unfold passingGuard
  split_ifs with h <;> simp [h]

theorem mem_passingGuard : fact ∈ chart.passingGuard outer ↔
    chart.isPassage outer.production = false ∧
      fact = .endOfSentence outer.buffer outer.endSite false := by
  unfold passingGuard
  split_ifs with h <;> simp [h]

theorem opensSentenceAfter_iff : chart.opensSentenceAfter buffer site = true ↔
    ((chart.info buffer site).traits.comma = true ∨
      chart.holds (.endOfSentence buffer site true) = true) := by
  rw [opensSentenceAfter, Bool.or_eq_true]
  rfl

theorem mayExtendPast_iff {production : Production}
    (hget : chart.grammar.get? outer.production = some production) :
    chart.mayExtendPast production buffer site = true ↔
      (chart.isPassage outer.production = true ∨
        chart.holds (.endOfSentence buffer site false) = true) := by
  rw [mayExtendPast, Bool.or_eq_true, isPassage, hget, Option.any_some]
  rfl

/-- The openings under a match let in what the guard does. -/
theorem admits_under_iff {production : Production}
    (hget : chart.grammar.get? outer.production = some production) {boundary : Bool} :
    (chart.grammar.get? id).any (Openings.under production boundary).admits = true ↔
      (chart.grammar.get? id).isSome = true ∧
        (chart.endsSentences id = true → chart.endsSentences outer.production = false →
          boundary = true) := by
  unfold endsSentences
  rw [hget, Option.any_some]
  cases chart.grammar.get? id with
  | none => simp
  | some inner =>
    cases boundary <;> cases hends : production.endsSentences <;>
      simp [Openings.under, Openings.admits, hends]

theorem admits_bounded_iff :
    (chart.grammar.get? id).any Openings.bounded.admits = true ↔ chart.endsSentences id = true :=
  Iff.rfl

/-! ### Going on from a match -/

/-- The derivations that go on from a match with a token. -/
def byToken (chart : Chart) (key : MatchKey) (mayExtend : Bool) (openings : Openings) (site : Handle) :
    Set Derivation :=
  {d | (d = .extendToken key site ∧ chart.Applies d ∧ mayExtend = true) ∨
    ∃ id slot, d = .underToken key id slot site ∧ chart.Applies d ∧
      chart.holds (.production id) = true ∧ (chart.grammar.get? id).any openings.admits = true}

/-- The derivations that go on from a match with another match. -/
def byMatch (chart : Chart) (key : MatchKey) (mayExtend : Bool) (openings : Openings)
    (inner : MatchKey) : Set Derivation :=
  {d | (d = .extendMatch key inner ∧ chart.Applies d ∧ mayExtend = true) ∨
    ∃ id slot, d = .underMatch key id slot inner ∧ chart.Applies d ∧
      chart.holds (.production id) = true ∧ (chart.grammar.get? id).any openings.admits = true}

/-- The derivations that go on from a match with what begins at a site. -/
def into (chart : Chart) (key : MatchKey) (mayExtend : Bool) (openings : Openings) (target : Site) :
    Set Derivation :=
  {d | (∃ site, target = .token site ∧ chart.holds (.available key.buffer site) = true ∧
      d ∈ chart.byToken key mayExtend openings site) ∨
    ∃ inner, chart.holds (.complete inner) = true ∧ inner.buffer = key.buffer ∧
      inner.beginningSite = target ∧ d ∈ chart.byMatch key mayExtend openings inner}

variable {key inner : MatchKey} {production : Production} {mayExtend : Bool} {openings : Openings}
variable {handle : Handle} {d : Derivation}

theorem outer?_of_mem_byToken (h : d ∈ chart.byToken key mayExtend openings handle) :
    d.outer? = some key := by
  obtain ⟨rfl, -⟩ | ⟨id, slot, rfl, -⟩ := h <;> rfl

theorem outer?_of_mem_byMatch (h : d ∈ chart.byMatch key mayExtend openings inner) :
    d.outer? = some key := by
  obtain ⟨rfl, -⟩ | ⟨id, slot, rfl, -⟩ := h <;> rfl

theorem outer?_of_mem_into {target : Site} (h : d ∈ chart.into key mayExtend openings target) :
    d.outer? = some key := by
  obtain ⟨site, -, -, h⟩ | ⟨inner, -, -, -, h⟩ := h
  · exact outer?_of_mem_byToken h
  · exact outer?_of_mem_byMatch h

theorem Sound.lists_byToken (h : chart.Sound)
    (hget : chart.grammar.get? key.production = some production) :
    Lists Derivation.conclusion
      ((if mayExtend then chart.extendByToken key production handle
          (chart.info key.buffer (.token handle)) else []) ++
        chart.continueOnToken key production handle (chart.info key.buffer (.token handle)) openings)
      (chart.byToken key mayExtend openings handle) := by
  refine ((Lists.ite fun _ => lists_extendByToken hget).append (h.lists_continueOnToken hget)
    ?_).congr ?_
  · rw [Set.disjoint_left]
    rintro d ⟨-, -, rfl⟩ ⟨id, slot, heq, -⟩
    cases heq
  · ext d
    constructor
    · rintro (⟨hextend, hfills, rfl⟩ | ⟨id, slot, rfl, hrest⟩)
      · exact .inl ⟨rfl, hfills, hextend⟩
      · exact .inr ⟨id, slot, rfl, hrest⟩
    · rintro (⟨rfl, hfills, hextend⟩ | ⟨id, slot, rfl, hrest⟩)
      · exact .inl ⟨hextend, hfills, rfl⟩
      · exact .inr ⟨id, slot, rfl, hrest⟩

theorem Sound.lists_byMatch (h : chart.Sound)
    (hget : chart.grammar.get? key.production = some production)
    (hbuffer : inner.buffer = key.buffer) :
    Lists Derivation.conclusion
      ((if mayExtend then chart.extendByMatch key production inner else []) ++
        chart.continueOnMatch key production inner openings)
      (chart.byMatch key mayExtend openings inner) := by
  refine ((Lists.ite fun _ => lists_extendByMatch hget).append
    (h.lists_continueOnMatch hget hbuffer) ?_).congr ?_
  · rw [Set.disjoint_left]
    rintro d ⟨-, -, rfl⟩ ⟨id, slot, heq, -⟩
    cases heq
  · ext d
    constructor
    · rintro (⟨hextend, hfills, rfl⟩ | ⟨id, slot, rfl, hrest⟩)
      · exact .inl ⟨rfl, ⟨hbuffer, hfills⟩, hextend⟩
      · exact .inr ⟨id, slot, rfl, hrest⟩
    · rintro (⟨rfl, ⟨-, hfills⟩, hextend⟩ | ⟨id, slot, rfl, hrest⟩)
      · exact .inl ⟨hextend, hfills, rfl⟩
      · exact .inr ⟨id, slot, rfl, hrest⟩

theorem inner?_of_mem_byMatch (h : d ∈ chart.byMatch key mayExtend openings inner) :
    d.inner? = some inner := by
  obtain ⟨rfl, -⟩ | ⟨id, slot, rfl, -⟩ := h <;> rfl

theorem inner?_of_mem_byToken (h : d ∈ chart.byToken key mayExtend openings handle) :
    d.inner? = none := by
  obtain ⟨rfl, -⟩ | ⟨id, slot, rfl, -⟩ := h <;> rfl

theorem disjoint_of_ne {β : Type} {S T : Set Derivation} (f : Derivation → β)
    (hne : ∀ d ∈ S, ∀ e ∈ T, f d ≠ f e) : Disjoint S T := by
  rw [Set.disjoint_left]
  intro d hd hd'
  exact hne d hd d hd' rfl

theorem Sound.lists_advanceInto (h : chart.Sound)
    (hget : chart.grammar.get? key.production = some production) (target : Site) :
    Lists Derivation.conclusion (chart.advanceInto key production target mayExtend openings)
      (chart.into key mayExtend openings target) := by
  cases target with
  | token site =>
    refine ((Lists.ite fun _ => h.lists_byToken hget).append (Lists.flatMap
      (nodup_completesBeginningAt ..) (fun inner hinner =>
        h.lists_byMatch hget (h.mem_completesBeginningAt.1 hinner).2.1) ?_) ?_).congr ?_
    · intro x _ y _ d hx hy
      exact Option.some.inj ((inner?_of_mem_byMatch hx).symm.trans (inner?_of_mem_byMatch hy))
    · refine disjoint_of_ne Derivation.inner? ?_
      rintro d ⟨-, hd⟩ e ⟨inner, -, he⟩
      rw [inner?_of_mem_byToken hd, inner?_of_mem_byMatch he]
      exact Option.some_ne_none _ |>.symm
    · ext d
      constructor
      · rintro (⟨havailable, hd⟩ | ⟨inner, hinner, hd⟩)
        · exact .inl ⟨site, rfl, havailable, hd⟩
        · obtain ⟨hholds, hbuffer, hsite⟩ := h.mem_completesBeginningAt.1 hinner
          exact .inr ⟨inner, hholds, hbuffer, hsite, hd⟩
      · rintro (⟨_, heq, havailable, hd⟩ | ⟨inner, hholds, hbuffer, hsite, hd⟩)
        · injection heq with heq
          subst heq
          exact .inl ⟨havailable, hd⟩
        · exact .inr ⟨inner, h.mem_completesBeginningAt.2 ⟨hholds, hbuffer, hsite⟩, hd⟩
  | start =>
    refine Lists.nil.congr ?_
    ext d
    simp [into, MatchKey.beginningSite]
  | finish =>
    refine Lists.nil.congr ?_
    ext d
    simp [into, MatchKey.beginningSite]

theorem Sound.waitingAt_unique {x y : MatchKey × Production} (h : chart.Sound)
    (hx : x ∈ chart.waitingAt buffer site) (hy : y ∈ chart.waitingAt buffer site)
    (hkey : x.1 = y.1) : x = y := by
  have hx := (h.mem_waitingAt.1 hx).2.1
  have hy := (h.mem_waitingAt.1 hy).2.1
  rw [hkey, hy, Option.some.injEq] at hx
  exact Prod.ext hkey hx.symm

/-- Lists for each of some matches that wait at a site. -/
theorem Sound.lists_waiting (h : chart.Sound) {waiting : List (MatchKey × Production)}
    {f : MatchKey → Production → List Fact} {S : MatchKey → Production → Set Derivation}
    (hnodup : waiting.Nodup) (hwaiting : waiting ⊆ chart.waitingAt buffer site)
    (hf : ∀ key production, (key, production) ∈ waiting →
      Lists Derivation.conclusion (f key production) (S key production))
    (houter : ∀ key production d, d ∈ S key production → d.outer? = some key) :
    Lists Derivation.conclusion (waiting.flatMap fun (key, production) => f key production)
      {d | ∃ key production, (key, production) ∈ waiting ∧ d ∈ S key production} := by
  refine (Lists.flatMap (S := fun entry => S entry.1 entry.2) hnodup ?_ ?_).congr ?_
  · rintro ⟨key, production⟩ hentry
    exact hf key production hentry
  · rintro x hx y hy d hdx hdy
    refine h.waitingAt_unique (hwaiting hx) (hwaiting hy) ?_
    exact Option.some.inj ((houter _ _ d hdx).symm.trans (houter _ _ d hdy))
  · ext d
    simp

/-! ### Opening at a boundary -/

/-- The derivations that open at a site, right after a boundary. -/
def opening (chart : Chart) (buffer : BufferId) (before target : Site) : Set Derivation :=
  {d | (∃ id slot site, target = .token site ∧ d = .boundaryToken buffer id slot before site ∧
      chart.Applies d ∧ chart.holds (.production id) = true ∧
      chart.holds (.available buffer site) = true) ∨
    ∃ id slot inner, d = .boundaryMatch id slot before inner ∧ chart.Applies d ∧
      chart.holds (.production id) = true ∧ chart.holds (.complete inner) = true ∧
      inner.buffer = buffer ∧ inner.beginningSite = target}

theorem Sound.lists_opening (h : chart.Sound) (before : Site) (site : Handle) :
    Lists Derivation.conclusion
      ((if chart.isAvailable buffer site then chart.openSentencesOnToken buffer site else []) ++
        (chart.completesBeginningAt buffer (.token site)).flatMap chart.openSentencesOnMatch)
      (chart.opening buffer before (.token site)) := by
  refine ((Lists.ite fun _ => h.lists_openSentencesOnToken before).append (Lists.flatMap
    (nodup_completesBeginningAt ..) (fun inner _ => h.lists_openSentencesOnMatch before) ?_)
      ?_).congr ?_
  · rintro x - y - d ⟨id, slot, rfl, -⟩ ⟨id', slot', heq, -⟩
    injection heq
  · refine disjoint_of_ne Derivation.inner? ?_
    rintro d ⟨-, id, slot, rfl, -⟩ e ⟨inner, -, id', slot', rfl, -⟩
    exact (Option.some_ne_none _).symm
  · ext d
    constructor
    · rintro (⟨havailable, id, slot, rfl, happlies, hactive⟩ |
        ⟨inner, hinner, id, slot, rfl, happlies, hactive⟩)
      · exact .inl ⟨id, slot, site, rfl, rfl, happlies, hactive, havailable⟩
      · obtain ⟨hholds, hbuffer, hsite⟩ := h.mem_completesBeginningAt.1 hinner
        exact .inr ⟨id, slot, inner, rfl, happlies, hactive, hholds, hbuffer, hsite⟩
    · rintro (⟨id, slot, _, heq, rfl, happlies, hactive, havailable⟩ |
        ⟨id, slot, inner, rfl, happlies, hactive, hholds, hbuffer, hsite⟩)
      · injection heq with heq
        subst heq
        exact .inl ⟨havailable, id, slot, rfl, happlies, hactive⟩
      · exact .inr ⟨inner, h.mem_completesBeginningAt.2 ⟨hholds, hbuffer, hsite⟩, id, slot, rfl,
          happlies, hactive⟩

theorem before_of_mem_opening {before target : Site}
    (hd : d ∈ chart.opening buffer before target) : d.before = before ∧ d.outer? = none := by
  obtain ⟨id, slot, site, -, rfl, -⟩ | ⟨id, slot, inner, rfl, -⟩ := hd <;> exact ⟨rfl, rfl⟩

end Chart

end LiveProse
