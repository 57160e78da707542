import LiveProse.Proofs.Chart.Soundness

/-! What each change of a fact does to a buffer in order: the buffer stays in order, the one fact
changes as it should, and nothing else does. -/

namespace LiveProse

theorem ParsemeKey.nonterminal_not_mem_ofToken {name : Word} {info : SiteInfo} :
    ParsemeKey.nonterminal name ∉ ParsemeKey.ofToken info := by
  simp [ofToken]

namespace Buffer

/-- A change of one fact of a buffer, with the flag that tells whether its truth changed to the given
sense. -/
structure Changes (grammar : Grammar) (sense : Bool) (fact : Fact) (buffer : Buffer)
    (after : Buffer × Bool) : Prop where
  sound : after.1.Sound grammar
  skeleton : after.1.skeleton = buffer.skeleton
  holds : ∀ a, a ≠ fact → after.1.holds a = buffer.holds a
  potentials : ∀ key, .potential key ≠ fact →
    after.1.potentials.count key = buffer.potentials.count key
  completes : ∀ key, .complete key ≠ fact →
    after.1.completes.count key = buffer.completes.count key
  turned : after.2 = true → buffer.holds fact = !sense ∧ after.1.holds fact = sense
  stayed : after.2 = false → after.1.holds fact = buffer.holds fact

variable {buffer : Buffer} {grammar : Grammar} {sense : Bool} {fact : Fact} {sites : List Site}

theorem changes_nothing (h : buffer.Sound grammar) : Changes grammar sense fact buffer (buffer, false) :=
  ⟨h, rfl, fun _ _ => rfl, fun _ _ => rfl, fun _ _ => rfl, fun hflag => Bool.noConfusion hflag,
    fun _ => rfl⟩

/-! ### Noting -/

theorem annotate_eq : buffer.annotate fact sites =
    { buffer with records := (buffer.annotate fact sites).records } := by
  induction sites generalizing buffer with
  | nil => rfl
  | cons site sites ih =>
    change (buffer.modifyFacts site _).annotate fact sites = _
    rw [ih]
    rfl

theorem unannotate_eq : buffer.unannotate fact sites =
    { buffer with records := (buffer.unannotate fact sites).records } := by
  induction sites generalizing buffer with
  | nil => rfl
  | cons site sites ih =>
    change (buffer.modifyFacts site _).unannotate fact sites = _
    rw [ih]
    rfl

theorem skeleton_annotate : (buffer.annotate fact sites).skeleton = buffer.skeleton := by
  induction sites generalizing buffer with
  | nil => rfl
  | cons site sites ih => exact ih.trans skeleton_modifyFacts

theorem skeleton_unannotate : (buffer.unannotate fact sites).skeleton = buffer.skeleton := by
  induction sites generalizing buffer with
  | nil => rfl
  | cons site sites ih => exact ih.trans skeleton_modifyFacts

theorem standing_annotate (hsites : sites.Nodup) (site : Site) :
    (buffer.annotate fact sites).standing site = buffer.standing site := by
  unfold standing
  rw [record?_annotate hsites, Option.map_map]
  refine congrArg (fun f => (buffer.record? site).map f) (funext fun record => ?_)
  dsimp only [Function.comp]
  split_ifs <;> rfl

theorem standing_unannotate (hsites : sites.Nodup) (site : Site) :
    (buffer.unannotate fact sites).standing site = buffer.standing site := by
  unfold standing
  rw [record?_unannotate hsites, Option.map_map]
  refine congrArg (fun f => (buffer.record? site).map f) (funext fun record => ?_)
  dsimp only [Function.comp]
  split_ifs <;> rfl

theorem sites_of_skeleton {after : Buffer} (h : after.skeleton = buffer.skeleton)
    (hsites : (buffer.records.map Prod.fst).Nodup) : (after.records.map Prod.fst).Nodup := by
  have hmap := congrArg (fun s => s.2.2.2.map Prod.fst) h
  simp only [skeleton, List.map_map, Function.comp_def] at hmap
  rwa [hmap]

theorem holds_annotate (hfact : IsNote fact) (hplaces : fact.places.Nodup)
    (hrecords : ∀ site ∈ fact.places, buffer.hasRecord site = true) (a : Fact) :
    (buffer.annotate fact fact.places).holds a = true ↔ a = fact ∨ buffer.holds a = true := by
  by_cases ha : a = fact
  · subst ha
    have hmem (site : Site) (hsite : site ∈ a.places) :
        a ∈ (buffer.annotate a a.places).notes site := by
      rw [notes_annotate hplaces, if_pos ⟨hsite, hrecords site hsite⟩]
      exact List.mem_cons_self
    obtain ⟨id, source, target, rfl⟩ | ⟨id, site, positive, rfl⟩ := hfact
    · exact iff_of_true (hasFact_iff.2 (hmem source (by simp [Fact.places]))) (.inl rfl)
    · exact iff_of_true (hasFact_iff.2 (hmem site (by simp [Fact.places]))) (.inl rfl)
  · have hsame : (buffer.annotate fact fact.places).holds a = buffer.holds a := by
      refine holds_congr (fun _ site => ?_) (standing_annotate hplaces) (fun _ _ => ?_) fun _ _ => ?_
      · rw [notes_annotate hplaces]
        split_ifs
        · simp [ha]
        · rfl
      · rw [annotate_eq]
      · rw [annotate_eq]
    rw [hsame]
    simp [ha]

theorem holds_unannotate (h : buffer.Noted) (hfact : IsNote fact) (hplaces : fact.places.Nodup)
    (a : Fact) :
    (buffer.unannotate fact fact.places).holds a = true ↔ a ≠ fact ∧ buffer.holds a = true := by
  by_cases ha : a = fact
  · subst ha
    have hmem (site : Site) (hsite : site ∈ a.places) :
        a ∉ (buffer.unannotate a a.places).notes site := by
      rw [notes_unannotate hplaces, if_pos hsite]
      exact (h.nodup site).not_mem_erase
    obtain ⟨id, source, target, rfl⟩ | ⟨id, site, positive, rfl⟩ := hfact
    · exact iff_of_false (fun hholds => hmem source (by simp [Fact.places]) (hasFact_iff.1 hholds))
        (fun hne => hne.1 rfl)
    · exact iff_of_false (fun hholds => hmem site (by simp [Fact.places]) (hasFact_iff.1 hholds))
        (fun hne => hne.1 rfl)
  · have hsame : (buffer.unannotate fact fact.places).holds a = buffer.holds a := by
      refine holds_congr (fun _ site => ?_) (standing_unannotate hplaces) (fun _ _ => ?_)
        fun _ _ => ?_
      · rw [notes_unannotate hplaces]
        split_ifs
        · exact List.mem_erase_of_ne ha
        · rfl
      · rw [unannotate_eq]
      · rw [unannotate_eq]
    rw [hsame]
    simp [ha]

/-- Noting an observation that does not hold. -/
theorem changes_annotate (h : buffer.Sound grammar) (hfact : IsNote fact)
    (hown : fact.buffer? = some buffer.id) (hnot : buffer.holds fact = false)
    (hplaces : fact.places.Nodup) (hrecords : ∀ site ∈ fact.places, buffer.hasRecord site = true) :
    Changes grammar true fact buffer (buffer.annotate fact fact.places, true) := by
  have hholds := holds_annotate hfact hplaces hrecords
  have hstanding : ∀ site, (buffer.annotate fact fact.places).standing site = buffer.standing site :=
    standing_annotate hplaces
  refine ⟨⟨sites_of_skeleton skeleton_annotate h.sites, ?_, ?_, ?_, ?_⟩, skeleton_annotate,
    fun a ha => ?_, fun _ _ => ?_, fun _ _ => ?_, fun _ => ⟨hnot, ?_⟩, fun hflag => ?_⟩
  · exact h.noted.gain (by rw [annotate_eq]) hown hnot hplaces hrecords (fun _ => rfl) hholds
  · exact h.marked.congr (by rw [annotate_eq]) hstanding
  · rw [annotate_eq]
    exact h.keyed
  · exact h.filed.congr (by rw [annotate_eq]) hstanding (fun _ => by rw [annotate_eq])
      (fun _ => by rw [annotate_eq]) (by rw [annotate_eq]) (by rw [annotate_eq])
  · rw [Bool.eq_iff_iff, hholds]
    simp [ha]
  · rw [annotate_eq]
  · rw [annotate_eq]
  · exact (hholds fact).2 (.inl rfl)
  · cases hflag

/-- Taking a noted observation back. -/
theorem changes_unannotate (h : buffer.Sound grammar) (hfact : IsNote fact)
    (hheld : buffer.holds fact = true) (hplaces : fact.places.Nodup) :
    Changes grammar false fact buffer (buffer.unannotate fact fact.places, true) := by
  have hholds := holds_unannotate h.noted hfact hplaces
  have hstanding : ∀ site,
      (buffer.unannotate fact fact.places).standing site = buffer.standing site :=
    standing_unannotate hplaces
  refine ⟨⟨sites_of_skeleton skeleton_unannotate h.sites, ?_, ?_, ?_, ?_⟩, skeleton_unannotate,
    fun a ha => ?_, fun _ _ => ?_, fun _ _ => ?_, fun _ => ⟨hheld, ?_⟩, fun hflag => ?_⟩
  · exact h.noted.lose (by rw [unannotate_eq]) hplaces (fun _ => rfl) hholds
  · exact h.marked.congr (by rw [unannotate_eq]) hstanding
  · rw [unannotate_eq]
    exact h.keyed
  · exact h.filed.congr (by rw [unannotate_eq]) hstanding (fun _ => by rw [unannotate_eq])
      (fun _ => by rw [unannotate_eq]) (by rw [unannotate_eq]) (by rw [unannotate_eq])
  · rw [Bool.eq_iff_iff, hholds]
    simp [ha]
  · rw [unannotate_eq]
  · rw [unannotate_eq]
  · rw [← Bool.not_eq_true, hholds]
    simp
  · cases hflag

theorem holds_eq_decide (h : buffer.Noted) {site : Site} (hsite : site ∈ fact.places) :
    buffer.holds fact = decide (fact ∈ buffer.notes site) := by
  rw [Bool.eq_iff_iff, decide_eq_true_iff, h.mem site fact]
  simp [hsite]

/-- The list of sentence ends beside the facts is nothing that a fact depends on. -/
theorem Changes.withEndings {after : Buffer} {flag : Bool}
    (h : Changes grammar sense fact buffer (after, flag)) (endings : List Site) :
    Changes grammar sense fact buffer ({ after with sentenceEndings := endings }, flag) := by
  have hholds : ∀ a, ({ after with sentenceEndings := endings } : Buffer).holds a =
      after.holds a := by
    intro a
    cases a <;> rfl
  refine ⟨h.sound.congr rfl rfl rfl rfl rfl rfl, h.skeleton, fun a ha => ?_, h.potentials,
    h.completes, fun hflag => ?_, fun hflag => ?_⟩
  · rw [hholds]
    exact h.holds a ha
  · rw [hholds]
    exact h.turned hflag
  · rw [hholds]
    exact h.stayed hflag

theorem modifyFacts_eq_self (hsites : (buffer.records.map Prod.fst).Nodup) {site : Site}
    {change : Annotations Fact → Annotations Fact}
    (h : ∀ record, buffer.record? site = some record → change record.facts = record.facts) :
    buffer.modifyFacts site change = buffer := by
  have hrecords : (buffer.records.map fun entry => (entry.1,
      if entry.1 = site then { entry.2 with facts := change entry.2.facts } else entry.2)) =
      buffer.records := by
    conv_rhs => rw [← List.map_id buffer.records]
    refine List.map_congr_left ?_
    rintro ⟨other, record⟩ hmem
    have hrecord : buffer.record? other = some record := (lookup_eq_some_iff_mem hsites).2 hmem
    dsimp only
    split_ifs with hother
    · rw [h record (hother ▸ hrecord)]
      rfl
    · rfl
  rw [modifyFacts, hrecords]

theorem unannotate_of_not_holds (h : buffer.Sound grammar) (hnot : ∀ site, fact ∉ buffer.notes site) :
    buffer.unannotate fact sites = buffer := by
  induction sites with
  | nil => rfl
  | cons site sites ih =>
    change (buffer.modifyFacts site _).unannotate fact sites = _
    rw [modifyFacts_eq_self h.sites, ih]
    intro record hrecord
    have hnot := hnot site
    rw [notes, hrecord, Option.map_some, Option.getD_some] at hnot
    rw [remove_fst, List.erase_of_not_mem hnot]

theorem not_mem_notes (h : buffer.Noted) (hnot : buffer.holds fact = false) (site : Site) :
    fact ∉ buffer.notes site := by
  rw [h.mem site fact, hnot]
  simp

/-! ### Observations -/

open Chart

theorem changes_addEdge (h : buffer.Sound grammar) {source target : Site} (hne : source ≠ target)
    (htarget : buffer.hasRecord target = true) :
    Changes grammar true (.next buffer.id source target) buffer
      (addEdge (.next buffer.id source target) source target buffer) := by
  rw [addEdge]
  split_ifs with hskip
  · exact changes_nothing h
  · simp only [Bool.or_eq_true, Bool.not_eq_true', not_or, Bool.not_eq_false] at hskip
    refine changes_annotate h (.inl ⟨_, _, _, rfl⟩) rfl ?_ (by simpa [Fact.places] using hne) ?_
    · simpa [holds] using hskip.2
    · intro site hsite
      simp only [Fact.places, List.mem_cons, List.not_mem_nil, or_false] at hsite
      rcases hsite with rfl | rfl
      · exact hskip.1
      · exact htarget

theorem changes_removeEdge (h : buffer.Sound grammar) {source target : Site} :
    Changes grammar false (.next buffer.id source target) buffer
      (removeEdge (.next buffer.id source target) source target buffer) := by
  rw [removeEdge]
  split_ifs with hheld
  · refine changes_unannotate h (.inl ⟨_, _, _, rfl⟩) hheld ?_
    exact h.noted.places source _ (hasFact_iff.1 hheld)
  · exact changes_nothing h

theorem changes_addSentenceEnd (h : buffer.Sound grammar) {site : Site} {positive : Bool} :
    Changes grammar true (.endOfSentence buffer.id site positive) buffer
      (addSentenceEnd (.endOfSentence buffer.id site positive) site positive buffer) := by
  rw [addSentenceEnd]
  split_ifs with hskip hpositive
  · exact changes_nothing h
  all_goals
    simp only [Bool.or_eq_true, Bool.not_eq_true', not_or, Bool.not_eq_false] at hskip
    have hchanges : Changes grammar true (.endOfSentence buffer.id site positive) buffer
        (buffer.annotate _ [site], true) := changes_annotate h (.inr ⟨_, _, _, rfl⟩) rfl
      (by simpa [holds] using hskip.2) (by simp [Fact.places]) (by simpa [Fact.places] using hskip.1)
  · exact hchanges.withEndings _
  · exact hchanges

/-- A sentence end that is noted is noted once. -/
theorem removed_eq_holds (h : buffer.Sound grammar) {site : Site} {positive : Bool}
    {record : SiteRecord} (hrecord : buffer.record? site = some record) :
    (record.facts.remove (.endOfSentence buffer.id site positive)).2 =
      buffer.holds (.endOfSentence buffer.id site positive) := by
  have hsite : site ∈ (Fact.endOfSentence buffer.id site positive).places := by
    simp [Fact.places]
  have hnodup := h.noted.nodup site
  have hnotes : buffer.notes site = record.facts.positive.items := by
    rw [notes, hrecord, Option.map_some, Option.getD_some]
  rw [holds_eq_decide h.noted hsite, Bool.eq_iff_iff, decide_eq_true_iff, hnotes]
  rw [hnotes] at hnodup
  refine (decide_eq_true_iff.trans Bank.release?_eq_zero).trans ?_
  rw [Bank.count, hnodup.count]
  simp

theorem changes_removeSentenceEnd (h : buffer.Sound grammar) {site : Site} {positive : Bool} :
    Changes grammar false (.endOfSentence buffer.id site positive) buffer
      (removeSentenceEnd (.endOfSentence buffer.id site positive) site positive buffer) := by
  rw [removeSentenceEnd]
  cases hrecord : buffer.record? site with
  | none => exact changes_nothing h
  | some record =>
    dsimp only
    rw [removed_eq_holds h hrecord]
    cases hheld : buffer.holds (.endOfSentence buffer.id site positive) with
    | false =>
      rw [unannotate_of_not_holds h (not_mem_notes h.noted hheld)]
      exact changes_nothing h
    | true =>
      have hchanges := changes_unannotate h (.inr ⟨_, _, _, rfl⟩) hheld (by simp [Fact.places])
      split_ifs
      · exact hchanges.withEndings _
      · exact hchanges

/-! ### Availability -/

/-- A change of what is withheld at a token. -/
theorem standing_modifyFacts {site : Site} {record : SiteRecord}
    {change : Annotations Fact → Annotations Fact} (hrecord : buffer.record? site = some record)
    (other : Site) : (buffer.modifyFacts site change).standing other =
      if other = site then some (record.info, (change record.facts).markers.items,
        (change record.facts).negations) else buffer.standing other := by
  unfold standing
  rw [record?_modifyFacts, Option.map_map]
  split_ifs with hother
  · simp [hother, hrecord]
  · simp [Function.comp_def]

theorem notes_modifyFacts {site : Site} {change : Annotations Fact → Annotations Fact}
    (hchange : ∀ facts, (change facts).positive = facts.positive) (other : Site) :
    (buffer.modifyFacts site change).notes other = buffer.notes other := by
  unfold notes
  rw [record?_modifyFacts, Option.map_map]
  refine congrArg (fun f => ((buffer.record? other).map f).getD []) (funext fun record => ?_)
  dsimp only [Function.comp]
  split_ifs
  · rw [hchange]
  · rfl

theorem standing_eq_some {site : Site} {record : SiteRecord}
    (hrecord : buffer.record? site = some record) : buffer.standing site =
      some (record.info, record.facts.markers.items, record.facts.negations) := by
  rw [standing, hrecord]
  rfl

/-- What lies under a token is read off its standing. -/
theorem tokenUnder_iff_of_standing {handle : Handle} {info : SiteInfo} {markers negations : List Fact}
    {key : ParsemeKey} (hstanding : buffer.standing (.token handle) = some (info, markers, negations)) :
    buffer.TokenUnder key (.token handle) ↔
      .available buffer.id handle ∉ markers ∧ key ∈ ParsemeKey.ofToken info := by
  constructor
  · rintro ⟨handle', info', markers', negations', hhandle, hstanding', hmarkers, hkey⟩
    obtain rfl := Site.token.inj hhandle
    rw [hstanding] at hstanding'
    cases hstanding'
    exact ⟨hmarkers, hkey⟩
  · rintro ⟨hmarkers, hkey⟩
    exact ⟨handle, info, markers, negations, rfl, hstanding, hmarkers, hkey⟩

section Remarking

variable {after : Buffer} {handle : Handle} {info : SiteInfo} {markers negations : List Fact}

theorem Marked.remark (h : buffer.Marked) (hid : after.id = buffer.id)
    (hstanding : ∀ site, after.standing site = if site = .token handle then
      some (info, markers, negations) else buffer.standing site)
    (hnodup : markers.Nodup ∧ negations.Nodup)
    (hmarkers : ∀ a ∈ markers, a = .available buffer.id handle)
    (hnegations : ∀ a, a ∈ negations ↔ a ∉ markers ∧ a = .available buffer.id handle) :
    after.Marked := by
  intro site info' markers' negations' hsome
  rw [hstanding] at hsome
  rw [hid]
  split_ifs at hsome with hsite
  · cases hsome
    refine ⟨hnodup, fun a ha => ⟨handle, hsite, hmarkers a ha⟩, fun a => ?_⟩
    rw [hnegations, hsite]
    simp
  · exact h site info' markers' negations' hsome

/-- A token that turns available, or stops being so, is filed under its keys or taken out. -/
theorem Filed.remark {beginnings : PairIndex ParsemeKey Site} (h : buffer.Filed grammar)
    (hid : after.id = buffer.id)
    (hstanding : ∀ site, site ≠ .token handle → after.standing site = buffer.standing site)
    (hpotentials : after.potentials = buffer.potentials)
    (hcompletes : after.completes = buffer.completes)
    (hpartials : after.partialMatches = buffer.partialMatches)
    (hpairs : after.parsemeBeginnings = beginnings)
    (hbefore : ∀ key, buffer.TokenUnder key (.token handle) ↔
      sense = false ∧ key ∈ ParsemeKey.ofToken info)
    (hafter : ∀ key, after.TokenUnder key (.token handle) ↔
      sense = true ∧ key ∈ ParsemeKey.ofToken info)
    (hnodup : beginnings.pairs.Nodup)
    (hbeginnings : ∀ key site, (key, site) ∈ beginnings.pairs ↔
      if site = .token handle ∧ key ∈ ParsemeKey.ofToken info then sense = true
      else (key, site) ∈ buffer.parsemeBeginnings.pairs) : after.Filed grammar := by
  refine ⟨hpairs ▸ hnodup, fun key site => ?_, hpartials ▸ h.nodup_partials, fun wanted key => ?_⟩
  · rw [hpairs, hbeginnings, h.mem_beginnings]
    simp only [MatchUnder, hcompletes]
    by_cases hsite : site = .token handle
    · subst hsite
      rw [hbefore, hafter]
      by_cases hkey : key ∈ ParsemeKey.ofToken info
      · have hname : ∀ name, key ≠ .nonterminal name := by
          rintro name rfl
          exact ParsemeKey.nonterminal_not_mem_ofToken hkey
        simp [hkey, hname]
      · simp [hkey]
    · have hother : after.TokenUnder key site ↔ buffer.TokenUnder key site := by
        simp only [TokenUnder, hid, hstanding site hsite]
      simp [hsite, hother]
  · rw [hpartials, hpotentials]
    exact h.mem_partials wanted key

end Remarking

/-- A change of what is withheld at a token, together with the index of beginnings. -/
theorem changes_remark (h : buffer.Sound grammar) {handle : Handle} {record : SiteRecord}
    {change : Annotations Fact → Annotations Fact} {beginnings : PairIndex ParsemeKey Site}
    (hrecord : buffer.record? (.token handle) = some record)
    (hpositive : ∀ facts, (change facts).positive = facts.positive)
    (hbefore : .available buffer.id handle ∈ record.facts.markers.items ↔ sense = true)
    (hmarkers : ∀ a, a ∈ (change record.facts).markers.items ↔
      if a = .available buffer.id handle then sense = false else a ∈ record.facts.markers.items)
    (hnegations : ∀ a, a ∈ (change record.facts).negations ↔
      if a = .available buffer.id handle then sense = true else a ∈ record.facts.negations)
    (hnodup : (change record.facts).markers.items.Nodup ∧ (change record.facts).negations.Nodup)
    (hnodup' : beginnings.pairs.Nodup)
    (hbeginnings : ∀ key site, (key, site) ∈ beginnings.pairs ↔
      if site = .token handle ∧ key ∈ ParsemeKey.ofToken record.info then sense = true
      else (key, site) ∈ buffer.parsemeBeginnings.pairs) :
    Changes grammar sense (.available buffer.id handle) buffer
      ({ buffer.modifyFacts (.token handle) change with parsemeBeginnings := beginnings }, true) := by
  generalize hafter : ({ buffer.modifyFacts (.token handle) change with
    parsemeBeginnings := beginnings } : Buffer) = after
  have hskeleton : after.skeleton = buffer.skeleton := by
    rw [← hafter]
    exact (skeleton_modifyFacts : (buffer.modifyFacts (.token handle) change).skeleton = _)
  have hid : after.id = buffer.id := congrArg (·.1) hskeleton
  have hpotentials : after.potentials = buffer.potentials := by rw [← hafter]; rfl
  have hcompletes : after.completes = buffer.completes := by rw [← hafter]; rfl
  have hpartials : after.partialMatches = buffer.partialMatches := by rw [← hafter]; rfl
  have hpairs : after.parsemeBeginnings = beginnings := by rw [← hafter]
  -- the notes stay everywhere, and what stands at a site changes at this one only
  have hnotes : ∀ site, after.notes site = buffer.notes site := by
    intro site
    rw [← hafter]
    exact notes_modifyFacts hpositive site
  have hstanding : ∀ site, after.standing site = if site = .token handle then
      some (record.info, (change record.facts).markers.items, (change record.facts).negations)
      else buffer.standing site := by
    intro site
    rw [← hafter]
    exact standing_modifyFacts hrecord site
  have hsome := standing_eq_some hrecord
  have hnow := (hstanding (.token handle)).trans (if_pos rfl)
  obtain ⟨-, hmine, hmem⟩ := h.marked _ _ _ _ hsome
  have hwithheld : .available buffer.id handle ∈ (change record.facts).markers.items ↔
      sense = false := by
    rw [hmarkers, if_pos rfl]
  have hholds : ∀ a, a ≠ .available buffer.id handle → after.holds a = buffer.holds a := by
    intro a ha
    refine holds_congr_of_available ?_ (fun _ site => by rw [hnotes])
      (fun _ _ => by rw [hpotentials]) fun _ _ => by rw [hcompletes]
    rintro id' handle' rfl
    rw [holds_available, holds_available, hstanding]
    split_ifs with hhandle
    · have hsame := (hmarkers (.available id' handle')).trans (by rw [if_neg ha])
      rw [hhandle, hsome]
      simp [hsame]
    · rfl
  refine ⟨⟨sites_of_skeleton hskeleton h.sites, ?_, ?_, ?_, ?_⟩, hskeleton, hholds,
    fun key _ => by rw [hpotentials], fun key _ => by rw [hcompletes], fun _ => ?_, fun hflag => ?_⟩
  · refine h.noted.congr hid hnotes fun a site hsite => hholds a ?_
    rintro rfl
    cases hsite
  · refine h.marked.remark hid hstanding hnodup (fun a ha => ?_) fun a => ?_
    · by_contra hne
      rw [hmarkers, if_neg hne] at ha
      obtain ⟨handle', hhandle, rfl⟩ := hmine a ha
      exact hne (by rw [Site.token.inj hhandle])
    · rw [hmarkers, hnegations]
      split_ifs with heq
      · cases sense <;> simp [heq]
      · rw [hmem]
        simp [heq]
  · intro key hkey
    rw [hpotentials, hcompletes] at hkey
    exact h.keyed key hkey
  · refine h.filed.remark hid (fun site hsite => (hstanding site).trans (if_neg hsite)) hpotentials
      hcompletes hpartials hpairs (fun key => ?_) (fun key => ?_) hnodup' hbeginnings
    · rw [tokenUnder_iff_of_standing hsome, hbefore, Bool.not_eq_true]
    · rw [tokenUnder_iff_of_standing hnow, hid, hwithheld, Bool.not_eq_false]
  · rw [holds_available, holds_available, hnow, hsome]
    cases sense <;> simp_all
  · cases hflag

theorem holds_available_of_record {handle : Handle} {record : SiteRecord}
    (hrecord : buffer.record? (.token handle) = some record) :
    buffer.holds (.available buffer.id handle) =
      !record.facts.markers.contains (.available buffer.id handle) := by
  rw [holds_available, standing_eq_some hrecord]
  rfl

theorem changes_makeAvailable (h : buffer.Sound grammar) (handle : Handle) :
    Changes grammar true (.available buffer.id handle) buffer
      (makeAvailable (.available buffer.id handle) handle buffer) := by
  rw [makeAvailable]
  cases hrecord : buffer.record? (.token handle) with
  | none => exact changes_nothing h
  | some record =>
    obtain ⟨⟨hmarkers, hnegations⟩, -, hmem⟩ := h.marked _ _ _ _ (standing_eq_some hrecord)
    have hfact := hmem (.available buffer.id handle)
    dsimp only
    by_cases hwithheld : .available buffer.id handle ∈ record.facts.markers.items
    · have hchanged : (record.facts.justifyNegation (.available buffer.id handle)).2 = true := by
        refine decide_eq_true (Bank.release?_eq_zero.2 ?_)
        rw [Bank.count, hmarkers.count, if_pos hwithheld]
      have hitems : (record.facts.justifyNegation (.available buffer.id handle)).1.markers.items =
          record.facts.markers.items.erase (.available buffer.id handle) := by
        simp only [Annotations.justifyNegation, Bank.release?, Bank.contains,
          List.contains_iff_mem.2 hwithheld, if_true]
        rfl
      rw [if_pos hchanged]
      refine changes_remark h hrecord (fun _ => rfl) (by simp [hwithheld]) (fun a => ?_)
        (fun a => ?_) ⟨?_, hnegations.insert⟩ (PairIndex.nodup_insertAll (fun key => key)
          (fun _ => .token handle) _ h.filed.nodup_beginnings) fun key site => ?_
      · rw [hitems, hmarkers.mem_erase_iff]
        split_ifs with heq <;> simp [heq]
      · rw [Annotations.justifyNegation, List.mem_insert_iff]
        split_ifs with heq <;> simp [heq]
      · rw [hitems]
        exact hmarkers.erase _
      · refine (PairIndex.mem_insertAll (fun key => key) (fun _ => Site.token handle) _).trans ?_
        split_ifs with hkey
        · exact iff_of_true (.inl ⟨key, hkey.2, by rw [hkey.1]⟩) rfl
        · refine or_iff_right ?_
          rintro ⟨k, hk, heq⟩
          rw [Prod.mk.injEq] at heq
          exact hkey ⟨heq.2, heq.1 ▸ hk⟩
    · have hremembered := hfact.2 ⟨hwithheld, handle, rfl, rfl⟩
      have hcontains : record.facts.markers.contains (.available buffer.id handle) = false := by
        simpa [Bank.contains] using hwithheld
      have hsame : (record.facts.justifyNegation (.available buffer.id handle)).1 = record.facts := by
        simp only [Annotations.justifyNegation, Bank.release?, hcontains,
          List.insert_of_mem hremembered]
        rfl
      have hchanged : (record.facts.justifyNegation (.available buffer.id handle)).2 = false := by
        simp [Annotations.justifyNegation, Bank.release?, hcontains]
      rw [hchanged, if_neg Bool.false_ne_true, modifyFacts_eq_self h.sites]
      · exact changes_nothing h
      · intro record' hrecord'
        rw [hrecord, Option.some.injEq] at hrecord'
        rw [← hrecord', hsame]

theorem changes_makeUnavailable (h : buffer.Sound grammar) (handle : Handle) :
    Changes grammar false (.available buffer.id handle) buffer
      (makeUnavailable (.available buffer.id handle) handle buffer) := by
  rw [makeUnavailable]
  cases hrecord : buffer.record? (.token handle) with
  | none => exact changes_nothing h
  | some record =>
    obtain ⟨⟨hmarkers, hnegations⟩, -, hmem⟩ := h.marked _ _ _ _ (standing_eq_some hrecord)
    have hfact := hmem (.available buffer.id handle)
    dsimp only
    by_cases hwithheld : .available buffer.id handle ∈ record.facts.markers.items
    · have hcontains : record.facts.markers.contains (.available buffer.id handle) = true := by
        simpa [Bank.contains] using hwithheld
      rw [if_neg (by simp [Annotations.unjustifyNegation, hcontains])]
      exact changes_nothing h
    · have hcontains : record.facts.markers.contains (.available buffer.id handle) = false := by
        simpa [Bank.contains] using hwithheld
      have hitems : (record.facts.unjustifyNegation (.available buffer.id handle)).1.markers.items =
          .available buffer.id handle :: record.facts.markers.items := by
        simp [Annotations.unjustifyNegation, hcontains, Bank.acquire]
      have herased : (record.facts.unjustifyNegation (.available buffer.id handle)).1.negations =
          record.facts.negations.erase (.available buffer.id handle) := by
        simp [Annotations.unjustifyNegation, hcontains]
      rw [if_pos (by simp [Annotations.unjustifyNegation, hcontains])]
      refine changes_remark h hrecord (fun facts => ?_) (by simp [hwithheld]) (fun a => ?_)
        (fun a => ?_) ⟨?_, ?_⟩ (PairIndex.nodup_removeAll (fun key => key)
          (fun _ => .token handle) _ h.filed.nodup_beginnings) fun key site => ?_
      · unfold Annotations.unjustifyNegation
        split_ifs <;> rfl
      · rw [hitems, List.mem_cons]
        split_ifs with heq <;> simp [heq]
      · rw [herased, hnegations.mem_erase_iff]
        split_ifs with heq <;> simp [heq]
      · rw [hitems]
        exact List.nodup_cons.2 ⟨hwithheld, hmarkers⟩
      · rw [herased]
        exact hnegations.erase _
      · refine (PairIndex.mem_removeAll (fun key => key) (fun _ => Site.token handle) _
          h.filed.nodup_beginnings).trans ?_
        split_ifs with hkey
        · refine iff_of_false (fun hall => ?_) (by simp)
          exact hall.1 key hkey.2 (by rw [hkey.1])
        · refine and_iff_right ?_
          intro k hk heq
          rw [Prod.mk.injEq] at heq
          exact hkey ⟨heq.2, heq.1 ▸ hk⟩

/-! ### Changes that make no difference -/

theorem holds_of_addEdge {source target : Site} (hsource : buffer.hasRecord source = true)
    (hflag : (addEdge (.next buffer.id source target) source target buffer).2 = false) :
    buffer.holds (.next buffer.id source target) = true := by
  by_contra hnot
  unfold addEdge at hflag
  rw [hsource, if_neg (by simpa [holds] using hnot)] at hflag
  cases hflag

theorem holds_of_removeEdge {source target : Site}
    (hflag : (removeEdge (.next buffer.id source target) source target buffer).2 = false) :
    buffer.holds (.next buffer.id source target) = false := by
  by_contra hholds
  unfold removeEdge at hflag
  rw [if_pos (by simpa [holds] using hholds)] at hflag
  cases hflag

theorem holds_of_addSentenceEnd {site : Site} {positive : Bool}
    (hsite : buffer.hasRecord site = true)
    (hflag : (addSentenceEnd (.endOfSentence buffer.id site positive) site positive buffer).2 =
      false) : buffer.holds (.endOfSentence buffer.id site positive) = true := by
  by_contra hnot
  unfold addSentenceEnd at hflag
  rw [hsite, if_neg (by simpa [holds] using hnot)] at hflag
  cases hflag

/-- A token that is recorded is available once it is made so. -/
theorem holds_of_makeAvailable (h : buffer.Sound grammar) {handle : Handle}
    (hrecord : buffer.hasRecord (.token handle) = true)
    (hflag : (makeAvailable (.available buffer.id handle) handle buffer).2 = false) :
    buffer.holds (.available buffer.id handle) = true := by
  obtain ⟨record, hrecord⟩ := Option.isSome_iff_exists.1 hrecord
  obtain ⟨⟨hmarkers, -⟩, -⟩ := h.marked _ _ _ _ (standing_eq_some hrecord)
  rw [holds_available_of_record hrecord, Bool.not_eq_true']
  by_contra hwithheld
  rw [Bool.not_eq_false] at hwithheld
  have hchanged : (record.facts.justifyNegation (.available buffer.id handle)).2 = true := by
    refine decide_eq_true (Bank.release?_eq_zero.2 ?_)
    rw [Bank.count, hmarkers.count, if_pos (List.contains_iff_mem.1 hwithheld)]
  rw [makeAvailable, hrecord] at hflag
  dsimp only at hflag
  rw [if_pos hchanged] at hflag
  cases hflag

theorem holds_of_makeUnavailable {handle : Handle}
    (hflag : (makeUnavailable (.available buffer.id handle) handle buffer).2 = false) :
    buffer.holds (.available buffer.id handle) = false := by
  cases hrecord : buffer.record? (.token handle) with
  | none =>
    rw [holds_available, standing, hrecord]
    rfl
  | some record =>
    rw [holds_available_of_record hrecord, Bool.not_eq_false']
    by_contra hnot
    have hchanged : (record.facts.unjustifyNegation (.available buffer.id handle)).2 = true := by
      rw [Annotations.unjustifyNegation, if_neg hnot]
    rw [makeUnavailable, hrecord] at hflag
    dsimp only at hflag
    rw [if_pos hchanged] at hflag
    cases hflag

theorem holds_of_removeSentenceEnd (h : buffer.Sound grammar) {site : Site} {positive : Bool}
    (hflag : (removeSentenceEnd (.endOfSentence buffer.id site positive) site positive buffer).2 =
      false) : buffer.holds (.endOfSentence buffer.id site positive) = false := by
  rw [removeSentenceEnd] at hflag
  cases hrecord : buffer.record? site with
  | none => simp [holds, hasFact, hrecord]
  | some record =>
    rw [hrecord] at hflag
    exact (removed_eq_holds h hrecord).symm.trans hflag

end Buffer

end LiveProse
