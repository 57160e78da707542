import LiveProse.Proofs.Session.Histories

/-! Where matches stand. All but subsentences run from prose to prose. Sentences and passages end at
sentence boundaries, and begin at such or where another one waits for them. Inside of anything but a
passage, sentences end only inside of passages. -/

namespace LiveProse

/-- What is said of matches, said of a fact if it is a match. -/
def Fact.IfMatch (P : MatchKey → Prop) : Fact → Prop
  | .potential key | .complete key => P key
  | .production _ | .available _ _ | .next _ _ _ | .endOfSentence _ _ _ => True

namespace Chart

open Buffer

variable {chart : Chart} {key inner : MatchKey} {fact : Fact} {d : Derivation}
variable {id : BufferId} {site source target : Site} {P : MatchKey → Prop}

/-- What every derivation that holds hands on from its matches is true of all matches that are held. -/
theorem Current.match_induction (h : chart.Current)
    (hstep : ∀ d, table.Holding chart d → (∀ a ∈ chart.antecedents d, a.IfMatch P) →
      d.conclusion.IfMatch P)
    (hkey : chart.holds (.potential key) = true ∨ chart.holds (.complete key) = true) : P key := by
  have hiff := h.ordered.holds_iff_derivable h.settled h.unitOrdered
  have hall (fact : Fact) (hderivable : table.Derivable chart fact) : fact.IfMatch P := by
    induction hderivable with
    | @observed fact hkind =>
      cases fact with
      | potential | complete => exact absurd rfl hkind
      | _ => trivial
    | @derived d happlies hall ih =>
      exact hstep d ⟨happlies, fun a ha => (hiff a).2 (hall a ha)⟩ ih
  rcases hkey with hkey | hkey
  · exact hall (.potential key) ((hiff _).1 hkey)
  · exact hall (.complete key) ((hiff _).1 hkey)

/-- A match is held by a derivation. -/
theorem Current.exists_holding (h : chart.Current) (hholds : chart.holds fact = true)
    (hkind : kind fact = .deduction) : ∃ d, table.Holding chart d ∧ d.conclusion = fact := by
  have hiff := h.ordered.holds_iff_derivable h.settled h.unitOrdered
  cases (hiff fact).1 hholds with
  | observed hkind' => exact absurd hkind hkind'
  | @derived d happlies hall => exact ⟨d, ⟨happlies, fun a ha => (hiff a).2 (hall a ha)⟩, rfl⟩

/-! ### Prose at both ends -/

/-- A match that is derived runs as far as its production may reach. -/
theorem canReach_of_holding (hd : table.Holding chart d) (hkey : d.conclusion = .potential key) :
    ∃ production, chart.grammar.get? key.production = some production ∧
      production.canReach key.slotsFilled (chart.info key.buffer key.beginningSite)
        (chart.info key.buffer key.endSite) = true := by
  obtain ⟨happlies, -⟩ := hd
  cases d with
  | completeWording | completeAtEnd | completeBefore => cases hkey
  | boundaryToken buffer id slot before handle | boundaryMatch id slot before inner =>
    obtain rfl := Fact.potential.inj hkey
    obtain ⟨-, production, hget, -, hreach⟩ := happlies
    exact ⟨production, hget, hreach⟩
  | underToken outer id slot handle =>
    obtain rfl := Fact.potential.inj hkey
    obtain ⟨-, production, hget, -, hreach⟩ := happlies
    exact ⟨production, hget, hreach⟩
  | underMatch outer id slot inner =>
    obtain rfl := Fact.potential.inj hkey
    obtain ⟨-, -, production, hget, -, hreach⟩ := happlies
    exact ⟨production, hget, hreach⟩
  | extendToken outer handle | skip outer =>
    obtain rfl := Fact.potential.inj hkey
    obtain ⟨production, hget, -, hreach⟩ := happlies
    exact ⟨production, hget, hreach⟩
  | extendMatch outer inner =>
    obtain rfl := Fact.potential.inj hkey
    obtain ⟨hbuffer, production, hget, -, hreach⟩ := happlies
    rw [hbuffer] at hreach
    exact ⟨production, hget, hreach⟩

/-- A complete match is a potential match all of whose slots are filled, and a sentence or a passage has
the end of a sentence with it or right behind it. -/
theorem Current.filled_of_complete (h : chart.Current) (hkey : chart.holds (.complete key) = true) :
    chart.holds (.potential key) = true ∧
      ∃ production, chart.grammar.get? key.production = some production ∧
        production.arity ≤ key.slotsFilled ∧ (production.endsSentences = true →
          chart.holds (.endOfSentence key.buffer key.endSite true) = true ∨
            ∃ next, chart.holds (.next key.buffer key.endSite next) = true ∧
              chart.closesSentence key.buffer next = true) := by
  obtain ⟨d, hd, hconclusion⟩ := h.exists_holding hkey rfl
  have hheld (a : Fact) (ha : a ∈ chart.antecedents d) : chart.holds a = true := hd.2 a ha
  obtain ⟨happlies, -⟩ := hd
  cases d with
  | completeWording outer =>
    obtain rfl := Fact.complete.inj hconclusion
    obtain ⟨production, hget, hfilled, hends⟩ := happlies
    exact ⟨hheld _ (by simp [antecedents]), production, hget, hfilled, by simp [hends]⟩
  | completeAtEnd outer =>
    obtain rfl := Fact.complete.inj hconclusion
    obtain ⟨production, hget, hfilled, -⟩ := happlies
    exact ⟨hheld _ (by simp [antecedents]), production, hget, hfilled, fun _ =>
      .inl (hheld _ (by simp [antecedents]))⟩
  | completeBefore outer next =>
    obtain rfl := Fact.complete.inj hconclusion
    obtain ⟨⟨production, hget, hfilled, -⟩, hcloses⟩ := happlies
    exact ⟨hheld _ (by simp [antecedents]), production, hget, hfilled, fun _ =>
      .inr ⟨next, hheld _ (by simp [antecedents]), hcloses⟩⟩
  | _ => cases hconclusion

/-! ### Where matches begin -/

/-- A sentence may begin at a site: right after a boundary, or after an unfinished sentence or passage
that waits for something that the production can begin. -/
def SetsOff (chart : Chart) (id : BufferId) (production : ProductionId) (site : Site) : Prop :=
  ∃ before, chart.holds (.next id before site) = true ∧
    (chart.opensSentenceAfter id before = true ∨ ∃ outer, chart.holds (.potential outer) = true ∧
      outer.buffer = id ∧ outer.endSite = before ∧ chart.endsSentences outer.production = true ∧
        chart.Continues outer production)

/-- A derivation that opens a sentence or passage has a place for it. -/
theorem setsOff_of_guard (outer : MatchKey) {production : ProductionId}
    (hends : chart.endsSentences production = true) (houter : chart.holds (.potential outer) = true)
    (hcontinues : chart.Continues outer production)
    (hnext : chart.holds (.next outer.buffer outer.endSite site) = true)
    (hguard : ∀ a ∈ chart.openingGuard outer production, chart.holds a = true) :
    chart.SetsOff outer.buffer production site := by
  refine ⟨outer.endSite, hnext, ?_⟩
  cases hown : chart.endsSentences outer.production with
  | true => exact .inr ⟨outer, houter, rfl, rfl, hown, hcontinues⟩
  | false => exact .inl (opensSentenceAfter_iff.2 (forall_openingGuard.1 hguard hends hown))

/-- A sentence or passage begins where it may. -/
theorem Current.setsOff (h : chart.Current)
    (hkey : chart.holds (.potential key) = true ∨ chart.holds (.complete key) = true)
    (hends : chart.endsSentences key.production = true) :
    chart.SetsOff key.buffer key.production key.beginningSite := by
  refine h.match_induction (P := fun key => chart.endsSentences key.production = true →
    chart.SetsOff key.buffer key.production key.beginningSite) (fun d hd ih => ?_) hkey hends
  have hheld (a : Fact) (ha : a ∈ chart.antecedents d) : chart.holds a = true := hd.2 a ha
  obtain ⟨happlies, -⟩ := hd
  cases d with
  | boundaryToken buffer id slot before handle =>
    intro hends
    have hnext := hheld (.next buffer before (.token handle)) (by simp [antecedents])
    have hboundary := forall_boundary.1 fun a ha => hheld a (List.mem_append_right _ ha)
    exact ⟨before, hnext, .inl (opensSentenceAfter_iff.2 hboundary)⟩
  | boundaryMatch id slot before inner =>
    intro hends
    have hnext := hheld (.next inner.buffer before inner.beginningSite) (by simp [antecedents])
    have hboundary := forall_boundary.1 fun a ha => hheld a (List.mem_append_right _ ha)
    exact ⟨before, hnext, .inl (opensSentenceAfter_iff.2 hboundary)⟩
  | underToken outer id slot handle =>
    intro hends
    obtain ⟨hcontinues, -⟩ := happlies
    have houter := hheld (.potential outer) (by simp [antecedents])
    have hnext := hheld (.next outer.buffer outer.endSite (.token handle)) (by simp [antecedents])
    have hguard (a : Fact) (ha : a ∈ chart.openingGuard outer id) :=
      hheld a (List.mem_append_right _ ha)
    exact setsOff_of_guard outer hends houter hcontinues hnext hguard
  | underMatch outer id slot inner =>
    intro hends
    obtain ⟨hbuffer, hcontinues, -⟩ := happlies
    have houter := hheld (.potential outer) (by simp [antecedents])
    have hnext := hheld (.next outer.buffer outer.endSite inner.beginningSite) (by simp [antecedents])
    have hguard (a : Fact) (ha : a ∈ chart.openingGuard outer id) :=
      hheld a (List.mem_append_right _ ha)
    show chart.SetsOff inner.buffer id inner.beginningSite
    rw [hbuffer]
    exact setsOff_of_guard outer hends houter hcontinues hnext hguard
  | extendToken outer handle | extendMatch outer inner | skip outer | completeWording outer
    | completeAtEnd outer | completeBefore outer next =>
    -- the match begins where it did before
    exact ih (.potential outer) (by simp [antecedents])

/-! ### Sentence ends inside of matches -/

theorem Current.sentenceEnd_eq (h : chart.Current) {handle : Handle} {positive : Bool}
    (hend : chart.holds (.endOfSentence id (.token handle) positive) = true) :
    (chart.info id (.token handle)).traits.sentenceEnd = positive := by
  obtain ⟨buffer, hbuffer⟩ := exists_buffer?_of_holds rfl hend
  obtain ⟨-, rfl⟩ := buffer?_eq_some hbuffer
  obtain ⟨info, hinfo, hsense⟩ := ((h.chained _ buffer hbuffer).endings _ _).1 hend
  rw [info_of_buffer? hbuffer, hinfo]
  exact hsense

/-- An edge passes over no site that ends a sentence. -/
theorem Current.not_between (h : chart.Current)
    (hnext : chart.holds (.next id source target) = true)
    (hend : (chart.info id site).traits.sentenceEnd = true) :
    site = source ∨ chart.position id site < chart.position id source ∨
      chart.position id target ≤ chart.position id site := by
  obtain ⟨buffer, hbuffer⟩ := exists_buffer?_of_holds rfl hnext
  obtain ⟨hmem, rfl⟩ := buffer?_eq_some hbuffer
  have hplaced := h.placed buffer hmem
  -- nothing is known about a site without a record
  have hrecord : buffer.hasRecord site = true := by
    rw [info_of_buffer? hbuffer] at hend
    rw [← isSome_info?]
    cases hinfo : buffer.info? site with
    | none =>
      rw [hinfo] at hend
      cases hend
    | some info => rfl
  have hpair := ((h.chained _ buffer hbuffer).edges source target).1 hnext
  have hnodup := (hplaced.tokens Token.codepointSummary).named.nodup_handles
  rw [position_of_buffer? hbuffer]
  exact not_between_of_mem_pairs (pairwise_path hnodup) hpair (mem_path_of_hasRecord hplaced hrecord)

/-- A complete match of a passage goes past a site, between two positions. -/
def Covered (chart : Chart) (id : BufferId) (lo hi : ℕ) (site : Site) : Prop :=
  ∃ inner production, chart.holds (.complete inner) = true ∧ inner.buffer = id ∧
    chart.grammar.get? inner.production = some production ∧ production.isPassage = true ∧
      lo ≤ chart.position id inner.beginningSite ∧
      chart.position id inner.beginningSite ≤ chart.position id site ∧
      chart.position id site < chart.position id inner.endSite ∧
      chart.position id inner.endSite ≤ hi

theorem Covered.mono {lo hi lo' hi' : ℕ} (h : chart.Covered id lo hi site) (hlo : lo' ≤ lo)
    (hhi : hi ≤ hi') : chart.Covered id lo' hi' site := by
  obtain ⟨inner, production, hinner, hid, hget, hpassage, hfirst, hbegin, hend, hlast⟩ := h
  exact ⟨inner, production, hinner, hid, hget, hpassage, hlo.trans hfirst, hbegin, hend,
    hlast.trans hhi⟩

/-- Whatever ends a sentence inside of a match, and not with it, is inside of a passage. -/
def Encloses (chart : Chart) (key : MatchKey) : Prop :=
  ∀ site, (chart.info key.buffer site).traits.sentenceEnd = true →
    chart.position key.buffer key.beginningSite ≤ chart.position key.buffer site →
    chart.position key.buffer site < chart.position key.buffer key.endSite →
    chart.Covered key.buffer (chart.position key.buffer key.beginningSite)
      (chart.position key.buffer key.endSite) site

/-- A complete match covers the ends of sentences inside of it if it is a passage, and has them covered
otherwise. -/
theorem Current.covered_of_complete (h : chart.Current) (hinner : chart.holds (.complete inner) = true)
    (hencloses : chart.isPassage inner.production = false → chart.Encloses inner)
    (hend : (chart.info inner.buffer site).traits.sentenceEnd = true)
    (hle : chart.position inner.buffer inner.beginningSite ≤ chart.position inner.buffer site)
    (hlt : chart.position inner.buffer site < chart.position inner.buffer inner.endSite) :
    chart.Covered inner.buffer (chart.position inner.buffer inner.beginningSite)
      (chart.position inner.buffer inner.endSite) site := by
  cases hpassage : chart.isPassage inner.production with
  | false => exact hencloses hpassage site hend hle hlt
  | true =>
    obtain ⟨-, production, hget, -⟩ := h.filled_of_complete hinner
    rw [isPassage, hget, Option.any_some] at hpassage
    exact ⟨inner, production, hinner, rfl, hget, hpassage, Nat.le_refl _, hle, hlt, Nat.le_refl _⟩

/-- What a match goes on after ends no sentence unless it is a passage. -/
theorem Current.not_sentenceEnd (h : chart.Current)
    (hguard : ∀ a ∈ chart.passingGuard key, chart.holds a = true)
    (hpassage : chart.isPassage key.production = false) :
    (chart.info key.buffer key.endSite).traits.sentenceEnd = false := by
  rcases forall_passingGuard.1 hguard with htrue | hend
  · rw [hpassage] at htrue
    cases htrue
  · exact h.sentenceEnd_eq hend

/-- A match that goes on after an edge encloses what it did before, and what is behind the edge. -/
theorem Current.encloses_extended (h : chart.Current) {last : Handle} {slots : ℕ}
    (hkey : chart.Encloses key)
    (hguard : (chart.info key.buffer key.endSite).traits.sentenceEnd = false)
    (hnext : chart.holds (.next key.buffer key.endSite target) = true)
    (hkeySpan : chart.position key.buffer key.beginningSite ≤ chart.position key.buffer key.endSite)
    (hspan : chart.position key.buffer target ≤ chart.position key.buffer (.token last))
    (hrest : ∀ site, (chart.info key.buffer site).traits.sentenceEnd = true →
      chart.position key.buffer target ≤ chart.position key.buffer site →
      chart.position key.buffer site < chart.position key.buffer (.token last) →
      chart.Covered key.buffer (chart.position key.buffer target)
        (chart.position key.buffer (.token last)) site) :
    chart.Encloses { key with slotsFilled := slots, inclusiveEnd := last } := by
  have hedge := h.ordered.aligned key.buffer key.endSite target hnext
  intro site hend hle hlt
  rcases h.not_between hnext hend with rfl | hbefore | hbehind
  · rw [hguard] at hend
    cases hend
  · apply (hkey site hend hle hbefore).mono (Nat.le_refl _)
    calc chart.position key.buffer key.endSite
      _ ≤ chart.position key.buffer target := hedge.le
      _ ≤ chart.position key.buffer (.token last) := hspan
  · refine (hrest site hend hbehind hlt).mono ?_ (Nat.le_refl _)
    calc chart.position key.buffer key.beginningSite
      _ ≤ chart.position key.buffer key.endSite := hkeySpan
      _ ≤ chart.position key.buffer target := hedge.le

/-- Every match that is held, in one form or the other, encloses the ends of sentences in passages,
unless it is a passage itself. -/
theorem Current.encloses (h : chart.Current)
    (hkey : chart.holds (.potential key) = true ∨ chart.holds (.complete key) = true)
    (hpassage : chart.isPassage key.production = false) : chart.Encloses key := by
  refine h.match_induction (P := fun key => chart.isPassage key.production = false →
    chart.Encloses key) (fun d hd ih => ?_) hkey hpassage
  have hheld (a : Fact) (ha : a ∈ chart.antecedents d) : chart.holds a = true := hd.2 a ha
  have hinner (inner : MatchKey) (ha : .complete inner ∈ chart.antecedents d) (site : Site)
      (hend : (chart.info inner.buffer site).traits.sentenceEnd = true) :=
    h.covered_of_complete (hheld (.complete inner) ha) (ih (.complete inner) ha) hend
  obtain ⟨happlies, -⟩ := hd
  cases d with
  | boundaryToken buffer id slot before handle | underToken outer id slot handle =>
    intro _ site _ hle hlt
    exact absurd hlt (Nat.not_lt_of_le hle)
  | boundaryMatch id slot before inner | underMatch outer id slot inner =>
    intro _
    exact hinner inner (by simp [antecedents])
  | extendToken outer handle =>
    intro hpassage
    have houter : chart.Encloses outer := ih (.potential outer) (by simp [antecedents]) hpassage
    have hguard := h.not_sentenceEnd (fun a ha => hheld a (List.mem_append_right _ ha)) hpassage
    have hnext := hheld (.next outer.buffer outer.endSite (.token handle)) (by simp [antecedents])
    have hspan := h.ordered.spanned outer (.inl (hheld (.potential outer) (by simp [antecedents])))
    apply h.encloses_extended houter hguard hnext hspan (Nat.le_refl _)
    intro site _ hle hlt
    exact absurd hlt (Nat.not_lt_of_le hle)
  | extendMatch outer inner =>
    intro hpassage
    obtain ⟨hbuffer, -⟩ := happlies
    have houter : chart.Encloses outer := ih (.potential outer) (by simp [antecedents]) hpassage
    have hguard := h.not_sentenceEnd (fun a ha => hheld a (List.mem_append_right _ ha)) hpassage
    have hnext := hheld (.next outer.buffer outer.endSite inner.beginningSite) (by simp [antecedents])
    have hspan := h.ordered.spanned outer (.inl (hheld (.potential outer) (by simp [antecedents])))
    have hspan' := h.ordered.spanned inner (.inr (hheld (.complete inner) (by simp [antecedents])))
    have hrest := hinner inner (by simp [antecedents])
    rw [hbuffer] at hspan' hrest
    exact h.encloses_extended houter hguard hnext hspan hspan' hrest
  | skip outer | completeWording outer | completeAtEnd outer | completeBefore outer next =>
    exact ih (.potential outer) (by simp [antecedents])

/-! ### Complete matches -/

/-- A complete match stands as the variant of its production asks: all but subsentences run from prose to
prose, and sentences and passages lie between sentence boundaries, or begin where an unfinished one waits
for them. -/
structure Stands (chart : Chart) (buffer : Buffer) (key : MatchKey) (production : Production) :
    Prop where
  prose : production.variant ≠ .subsentence →
    (chart.info buffer.id key.beginningSite).traits.prose = true ∧
      (chart.info buffer.id key.endSite).traits.prose = true
  ends : production.endsSentences = true →
    (chart.info buffer.id key.endSite).traits.sentenceEnd = true ∨
      ∃ next, (key.endSite, next) ∈ pairs buffer.path ∧
        (next = .finish ∨ (chart.info buffer.id next).traits.comma = true)
  begins : production.endsSentences = true →
    ∃ before, (before, key.beginningSite) ∈ pairs buffer.path ∧
      (before = .start ∨ (chart.info buffer.id before).traits.sentenceEnd = true ∨
        (chart.info buffer.id before).traits.comma = true ∨
        ∃ outer parent, chart.holds (.potential outer) = true ∧ outer.buffer = buffer.id ∧
          outer.endSite = before ∧ chart.grammar.get? outer.production = some parent ∧
          parent.endsSentences = true ∧ outer.slotsFilled < parent.arity ∧
          chart.grammar.continues parent outer.slotsFilled key.production = true)

/-- The last site is followed by none. -/
theorem finish_not_mem_pairs {buffer : Buffer} : (.finish, site) ∉ pairs buffer.path := by
  intro h
  have hmem : Site.finish ∈ Site.start :: (buffer.tokens.handles.map Site.token).filter buffer.hasRecord :=
    fst_mem_of_mem_pairs h
  simp at hmem

theorem Current.stands (h : chart.Current) (hkey : chart.holds (.complete key) = true) :
    ∃ buffer production, chart.buffer? key.buffer = some buffer ∧
      chart.grammar.get? key.production = some production ∧ chart.Stands buffer key production := by
  obtain ⟨hpotential, production, hget, hfilled, hends⟩ := h.filled_of_complete hkey
  obtain ⟨buffer, hbuffer⟩ := exists_buffer?_of_holds rfl hkey
  obtain ⟨-, hid⟩ := buffer?_eq_some hbuffer
  have hchained := h.chained _ buffer hbuffer
  refine ⟨buffer, production, hbuffer, hget, ?prose, ?ends, ?begins⟩
  case prose =>
    intro hvariant
    obtain ⟨d, hd, hconclusion⟩ := h.exists_holding hpotential rfl
    obtain ⟨production', hget', hreach⟩ := canReach_of_holding hd hconclusion
    obtain rfl := Option.some.inj (hget.symm.trans hget')
    rw [hid]
    simpa [Production.canReach, hvariant, Nat.not_lt_of_le hfilled] using hreach
  case ends =>
    intro hsentence
    rcases hends hsentence with hend | ⟨next, hnext, hcloses⟩
    · exact .inl (hid ▸ h.sentenceEnd_eq hend)
    · refine .inr ⟨next, (hchained.edges _ _).1 (hid ▸ hnext), ?_⟩
      simpa [closesSentence, hid] using hcloses
  case begins =>
    intro hsentence
    have hkind : chart.endsSentences key.production = true := by
      rw [endsSentences, hget]
      exact hsentence
    obtain ⟨before, hnext, hplace⟩ := h.setsOff (.inl hpotential) hkind
    have hpair := (hchained.edges before key.beginningSite).1 (hid ▸ hnext)
    refine ⟨before, hpair, ?_⟩
    rcases hplace with hopens | ⟨outer, houter, hown, rfl, hsentence', hcontinues⟩
    · rcases opensSentenceAfter_iff.1 hopens with hcomma | hend
      · exact .inr (.inr (.inl (hid ▸ hcomma)))
      · cases before with
        | start => exact .inl rfl
        | token handle => exact .inr (.inl (hid ▸ h.sentenceEnd_eq hend))
        | finish => exact absurd hpair finish_not_mem_pairs
    · obtain ⟨parent, hparent, hunfinished⟩ := hcontinues.lt_arity
      rw [endsSentences, hparent, Option.any_some] at hsentence'
      refine .inr (.inr (.inr ⟨outer, parent, houter, hown.trans hid.symm, rfl, hparent, hsentence',
        hunfinished, ?_⟩))
      exact (h.ordered.sound.continues_iff hparent).2 hcontinues

end Chart

namespace Session

open Chart

/-- After any history every complete match stands as the variant of its production asks, and every match
of anything but a passage encloses the ends of sentences inside of it in complete passages. -/
theorem performAll_stands (config : SessionConfig) (history : List Command) :
    let chart := ((new config).performAll history).chart
    (∀ key, chart.holds (.complete key) = true → ∃ buffer production,
      chart.buffer? key.buffer = some buffer ∧ chart.grammar.get? key.production = some production ∧
        chart.Stands buffer key production) ∧
      ∀ key, chart.holds (.potential key) = true ∨ chart.holds (.complete key) = true →
        chart.isPassage key.production = false → chart.Encloses key := by
  intro chart
  have h : chart.Current := (reaches_history (current_new config) history).1
  exact ⟨fun key hkey => h.stands hkey, fun key hkey hpassage => h.encloses hkey hpassage⟩

/-- A passage of two sentences is typed, and a production makes a sentence of it. -/
def passageAsSentence : List Command :=
  [.intern ['a'], .intern ['d'],
    .addProduction ⟨.passage, ⟨⟨1⟩, 0⟩,
      [.ofList [.word], .ofList [.sentenceEnd], .ofList [.word], .ofList [.sentenceEnd]]⟩,
    .addProduction ⟨.sentence, ⟨⟨2⟩, 0⟩, [.ofList [.nonterminal ⟨⟨1⟩, 0⟩]]⟩,
    .introduceBuffer ⟨0⟩ .story, .edit ⟨0⟩ 0 0 ['b', '.', 'c', '.']]

/-- The sentence runs over the first full stop because the passage does. -/
theorem performAll_stands_passageAsSentence :
    let chart := ((new {}).performAll passageAsSentence).chart
    let key : MatchKey := ⟨⟨0⟩, ⟨1⟩, 1, ⟨0, 0⟩, ⟨5, 0⟩⟩
    (∃ buffer production, chart.buffer? ⟨0⟩ = some buffer ∧
        chart.grammar.get? ⟨1⟩ = some production ∧ production.endsSentences = true ∧
          chart.Stands buffer key production) ∧
      (chart.info ⟨0⟩ (.token ⟨1, 0⟩)).traits.sentenceEnd = true ∧
      chart.Covered ⟨0⟩ (chart.position ⟨0⟩ key.beginningSite) (chart.position ⟨0⟩ key.endSite)
        (.token ⟨1, 0⟩) := by
  intro chart key
  have hkey : chart.holds (.complete key) = true := by decide +kernel
  have hvariant : chart.isPassage key.production = false := by decide +kernel
  have hend : (chart.info ⟨0⟩ (.token ⟨1, 0⟩)).traits.sentenceEnd = true := by decide +kernel
  obtain ⟨hstands, hencloses⟩ := performAll_stands {} passageAsSentence
  obtain ⟨buffer, production, hbuffer, hget, hstand⟩ := hstands key hkey
  have hsentence : (chart.grammar.get? ⟨1⟩).any (·.endsSentences) = true := by decide +kernel
  rw [show chart.grammar.get? ⟨1⟩ = some production from hget, Option.any_some] at hsentence
  refine ⟨⟨buffer, production, hbuffer, hget, hsentence, hstand⟩, hend, ?_⟩
  refine hencloses key (.inr hkey) hvariant _ hend ?_ ?_
  · decide +kernel
  · decide +kernel

end Session

end LiveProse
