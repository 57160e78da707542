import LiveProse.Proofs.Chart.Chain

/-! Exchanging records. Where no fact holds that is about a site, its record can go; where there is none,
one can come whose token is withheld. Neither changes which facts hold, nor what the indices file. -/

namespace LiveProse

theorem Fact.places_subset_sites (fact : Fact) : fact.places ⊆ fact.sites := by
  cases fact <;> simp [places, sites]

namespace Buffer

variable {buffer after : Buffer} {grammar : Grammar} {sites : List Site} {site : Site} {fact : Fact}
variable {fresh : List (Handle × SiteInfo)} {handle : Handle}

/-- A token that is available, with what is known about it. -/
def Offers (buffer : Buffer) (handle : Handle) (info : SiteInfo) : Prop :=
  ∃ markers negations, buffer.standing (.token handle) = some (info, markers, negations) ∧
    .available buffer.id handle ∉ markers

theorem tokenUnder_iff_offers {key : ParsemeKey} : buffer.TokenUnder key site ↔
    ∃ handle info, site = .token handle ∧ buffer.Offers handle info ∧ key ∈ ParsemeKey.ofToken info := by
  constructor
  · rintro ⟨handle, info, markers, negations, rfl, hstanding, hmarkers, hkey⟩
    exact ⟨handle, info, rfl, ⟨markers, negations, hstanding, hmarkers⟩, hkey⟩
  · rintro ⟨handle, info, rfl, ⟨markers, negations, hstanding, hmarkers⟩, hkey⟩
    exact ⟨handle, info, markers, negations, rfl, hstanding, hmarkers, hkey⟩

theorem holds_available_iff :
    buffer.holds (.available buffer.id handle) = true ↔ ∃ info, buffer.Offers handle info := by
  rw [holds_available, Option.any_eq_true]
  constructor
  · rintro ⟨⟨info, markers, negations⟩, hstanding, hmarkers⟩
    exact ⟨info, markers, negations, hstanding, by simpa using hmarkers⟩
  · rintro ⟨info, markers, negations, hstanding, hmarkers⟩
    exact ⟨_, hstanding, by simpa using hmarkers⟩

/-- What holds about the buffer is about sites that have a record. -/
theorem Sound.hasRecord_of_holds (h : buffer.Sound grammar) (hholds : buffer.holds fact = true)
    (hsite : site ∈ fact.sites) : buffer.hasRecord site = true := by
  cases fact with
  | production id => cases hsite
  | available id handle =>
    obtain rfl := List.mem_singleton.1 hsite
    obtain ⟨record, hrecord, -⟩ := (Option.any_eq_true _ _).1 hholds
    rw [hasRecord, hrecord]
    rfl
  | next | endOfSentence | potential | complete =>
    exact hasRecord_of_mem_notes ((h.noted.mem site _).2 ⟨hholds, hsite⟩)

/-- What is justified at a site is what holds about it. -/
theorem Sound.mem_factsAt (h : buffer.Sound grammar) : fact ∈ buffer.factsAt site ↔
    fact.buffer? = some buffer.id ∧ buffer.holds fact = true ∧ site ∈ fact.sites := by
  have hmem : fact ∈ buffer.factsAt site ↔ fact ∈ buffer.notes site ∨
      ∃ info markers negations, buffer.standing site = some (info, markers, negations) ∧
        fact ∈ negations := by
    rw [factsAt, notes, standing]
    cases buffer.record? site <;> simp [Annotations.justified, Bank.contains]
  have hnote (hnot : ∀ id handle, fact ≠ .available id handle) : fact ∈ buffer.factsAt site ↔
      fact.buffer? = some buffer.id ∧ buffer.holds fact = true ∧ site ∈ fact.places := by
    rw [hmem]
    constructor
    · rintro (hfact | ⟨info, markers, negations, hstanding, hfact⟩)
      · exact ⟨h.noted.own site fact hfact, (h.noted.mem site fact).1 hfact⟩
      · obtain ⟨-, handle, -, heq⟩ := ((h.marked site info markers negations hstanding).2.2 fact).1 hfact
        exact absurd heq (hnot _ _)
    · rintro ⟨-, hfact⟩
      exact .inl ((h.noted.mem site fact).2 hfact)
  cases fact with
  | available id handle =>
    rw [hmem]
    constructor
    · rintro (hfact | ⟨info, markers, negations, hstanding, hfact⟩)
      · cases ((h.noted.mem site _).1 hfact).2
      · obtain ⟨hmarkers, other, rfl, heq⟩ :=
          ((h.marked site info markers negations hstanding).2.2 _).1 hfact
        injection heq with hid hhandle
        subst hid hhandle
        exact ⟨rfl, holds_available_iff.2 ⟨info, markers, negations, hstanding, hmarkers⟩,
          List.mem_cons_self⟩
    · rintro ⟨hid, hholds, hsite⟩
      obtain rfl := Option.some.inj hid
      obtain rfl := List.mem_singleton.1 hsite
      obtain ⟨info, markers, negations, hstanding, hmarkers⟩ := holds_available_iff.1 hholds
      exact .inr ⟨info, markers, negations, hstanding,
        ((h.marked _ info markers negations hstanding).2.2 _).2 ⟨hmarkers, handle, rfl, rfl⟩⟩
  | production | next | endOfSentence | potential | complete => exact hnote (by simp)

/-- The edges that lead away from a site are those that hold. -/
theorem Sound.mem_edgesFrom (h : buffer.Sound grammar) {source target : Site} :
    (source, target) ∈ buffer.edgesFrom site ↔
      source = site ∧ buffer.holds (.next buffer.id source target) = true := by
  rw [edgesFrom, List.mem_filterMap]
  constructor
  · rintro ⟨fact, hfact, hedge⟩
    obtain ⟨hnote, -⟩ := mem_factsOfClass.1 hfact
    cases fact with
    | next id source' target' =>
      dsimp only at hedge
      split_ifs at hedge with hsite
      obtain ⟨rfl, rfl⟩ := Prod.mk.inj (Option.some.inj hedge)
      obtain rfl := Option.some.inj (h.noted.own site _ hnote)
      exact ⟨hsite, ((h.noted.mem site _).1 hnote).1⟩
    | _ => cases hedge
  · rintro ⟨rfl, hholds⟩
    exact ⟨_, mem_factsOfClass.2 ⟨(h.noted.mem source _).2 ⟨hholds, List.mem_cons_self⟩, rfl⟩, if_pos rfl⟩

/-! ### What an edit takes back -/

/-- The facts of the sites that an edit retires. -/
def retiredFacts (buffer : Buffer) (changes : Restatement) : List Fact :=
  changes.retired.flatMap buffer.factsAt

/-- The edges that an edit does not keep. -/
def staleEdges (buffer : Buffer) (changes : Restatement) : List Fact :=
  ((changes.kept.flatMap buffer.edgesFrom).filter (!changes.edges.contains ·)).map
    fun (source, target) => .next buffer.id source target

theorem Sound.mem_retiredFacts {changes : Restatement} (h : buffer.Sound grammar) :
    fact ∈ buffer.retiredFacts changes ↔ fact.buffer? = some buffer.id ∧ buffer.holds fact = true ∧
      ∃ site ∈ fact.sites, site ∈ changes.retired := by
  rw [retiredFacts, List.mem_flatMap]
  simp only [h.mem_factsAt]
  constructor
  · rintro ⟨site, hretired, hid, hholds, hsite⟩
    exact ⟨hid, hholds, site, hsite, hretired⟩
  · rintro ⟨hid, hholds, site, hsite, hretired⟩
    exact ⟨site, hretired, hid, hholds, hsite⟩

theorem Sound.mem_staleEdges {changes : Restatement} (h : buffer.Sound grammar) :
    fact ∈ buffer.staleEdges changes ↔ ∃ source target, fact = .next buffer.id source target ∧
      buffer.holds fact = true ∧ source ∈ changes.kept ∧ (source, target) ∉ changes.edges := by
  rw [staleEdges, List.mem_map]
  constructor
  · rintro ⟨⟨source, target⟩, hmem, rfl⟩
    obtain ⟨hedge, hnot⟩ := List.mem_filter.1 hmem
    obtain ⟨site, hkept, hedge⟩ := List.mem_flatMap.1 hedge
    obtain ⟨rfl, hholds⟩ := h.mem_edgesFrom.1 hedge
    exact ⟨source, target, rfl, hholds, hkept, by simpa using hnot⟩
  · rintro ⟨source, target, rfl, hholds, hkept, hnot⟩
    refine ⟨(source, target), List.mem_filter.2 ⟨List.mem_flatMap.2 ⟨source, hkept, ?_⟩, ?_⟩, rfl⟩
    · exact h.mem_edgesFrom.2 ⟨rfl, hholds⟩
    · simpa using hnot

/-- With the same notes and the same tokens on offer, the records may be others. -/
theorem Sound.of_offers (h : buffer.Sound grammar) (hid : after.id = buffer.id)
    (hsites : (after.records.map Prod.fst).Nodup) (hmarked : after.Marked)
    (hnotes : ∀ site, after.notes site = buffer.notes site)
    (hoffers : ∀ handle info, after.Offers handle info ↔ buffer.Offers handle info)
    (hpotentials : after.potentials = buffer.potentials)
    (hcompletes : after.completes = buffer.completes)
    (hbeginnings : after.parsemeBeginnings = buffer.parsemeBeginnings)
    (hpartials : after.partialMatches = buffer.partialMatches) :
    after.Sound grammar ∧
      ∀ fact, fact.buffer? = some buffer.id → after.holds fact = buffer.holds fact := by
  have hholds (fact : Fact)
      (hfact : ∀ other handle, fact = .available other handle → other = buffer.id) :
      after.holds fact = buffer.holds fact := by
    rw [Bool.eq_iff_iff]
    cases fact with
    | production id => exact Iff.rfl
    | available id handle =>
      obtain rfl := hfact id handle rfl
      rw [holds_available_iff, ← hid, holds_available_iff]
      exact exists_congr fun info => hoffers handle info
    | next id source target => exact hasFact_iff.trans ((hnotes source).symm ▸ hasFact_iff.symm)
    | endOfSentence id site positive => exact hasFact_iff.trans ((hnotes site).symm ▸ hasFact_iff.symm)
    | potential key => exact Bool.eq_iff_iff.1 (congrArg (·.contains key) hpotentials)
    | complete key => exact Bool.eq_iff_iff.1 (congrArg (·.contains key) hcompletes)
  refine ⟨⟨hsites, h.noted.congr hid hnotes fun fact site hsite => hholds fact ?_, hmarked,
    fun key hkey => ?_, ⟨hbeginnings ▸ h.filed.nodup_beginnings, fun key site => ?_,
      hpartials ▸ h.filed.nodup_partials, fun wanted key => ?_⟩⟩, fun fact hfact => hholds fact ?_⟩
  · rintro other handle rfl
    cases hsite
  · rw [hpotentials, hcompletes] at hkey
    exact h.keyed key hkey
  · rw [hbeginnings, h.filed.mem_beginnings key site, tokenUnder_iff_offers, tokenUnder_iff_offers]
    simp only [hoffers, MatchUnder, hcompletes]
  · rw [hpartials, h.filed.mem_partials wanted key, hpotentials]
  · rintro other handle rfl
    exact Option.some.inj hfact

/-! ### Fewer records -/

theorem record?_retire : (buffer.retire sites).record? site =
    if site ∈ sites then none else buffer.record? site := by
  refine (lookup_filter (fun site => !sites.contains site) buffer.records site).trans ?_
  by_cases hsite : site ∈ sites <;> simp [hsite, record?]

/-- Records can go where nothing holds. -/
theorem Sound.retire (h : buffer.Sound grammar)
    (hclear : ∀ fact, fact.buffer? = some buffer.id → buffer.holds fact = true →
      ∀ site ∈ fact.sites, site ∉ sites) :
    (buffer.retire sites).Sound grammar ∧
      ∀ fact, fact.buffer? = some buffer.id → (buffer.retire sites).holds fact = buffer.holds fact := by
  refine h.of_offers rfl (h.sites.sublist (List.filter_sublist.map _)) ?_ (fun site => ?_)
    (fun handle info => ?_) rfl rfl rfl rfl
  · intro site info markers negations hstanding
    refine h.marked site info markers negations ?_
    rw [standing, record?_retire] at hstanding
    split_ifs at hstanding
    · cases hstanding
    · exact hstanding
  · rw [notes, record?_retire]
    split_ifs with hsite
    · refine (List.eq_nil_iff_forall_not_mem.2 fun fact hfact => ?_).symm
      obtain ⟨hholds, hplace⟩ := (h.noted.mem site fact).1 hfact
      exact hclear fact (h.noted.own site fact hfact) hholds site (fact.places_subset_sites hplace) hsite
    · rfl
  · unfold Offers
    rw [standing, record?_retire]
    split_ifs with hsite
    · refine iff_of_false (by simp) fun hoffers => ?_
      exact hclear _ rfl (holds_available_iff.2 ⟨info, hoffers⟩) _ List.mem_cons_self hsite
    · rfl

/-! ### More records -/

theorem record?_openSites : (buffer.openSites fresh).record? site =
    (buffer.record? site).or (site.handle?.bind fun handle => (fresh.lookup handle).map fun info =>
      ⟨info, ({} : Annotations Fact).withhold (.available buffer.id handle)⟩) := by
  rw [record?, openSites, List.lookup_append]
  refine congrArg ((buffer.record? site).or ·) ?_
  induction fresh with
  | nil => cases site <;> rfl
  | cons entry fresh ih =>
    obtain ⟨handle, info⟩ := entry
    rw [List.map_cons, List.lookup_cons]
    cases site with
    | start | finish => exact ih
    | token other =>
      by_cases hother : other = handle
      · subst hother
        simp [Site.handle?]
      · have hne : (other == handle) = false := by simpa using hother
        have hne' : (Site.token other == Site.token handle) = false := by simpa using hother
        rw [hne', ih]
        simp only [Site.handle?, Option.bind_some, List.lookup_cons, hne]

/-- Nothing is noted at a new site. -/
theorem notes_openSites (site : Site) : (buffer.openSites fresh).notes site = buffer.notes site := by
  rw [notes, notes, record?_openSites]
  cases buffer.record? site with
  | some record => rfl
  | none =>
    rw [Option.none_or]
    cases site with
    | start | finish => rfl
    | token handle =>
      change ((Option.map _ (Option.map _ _)).getD []) = _
      cases fresh.lookup handle <;> rfl

/-- What stands at a new site. -/
theorem standing_openSites (hsite : buffer.record? site = none) {info : SiteInfo}
    {markers negations : List Fact}
    (hstanding : (buffer.openSites fresh).standing site = some (info, markers, negations)) :
    ∃ handle, site = .token handle ∧ fresh.lookup handle = some info ∧
      markers = [.available buffer.id handle] ∧ negations = [] := by
  rw [standing, record?_openSites, hsite, Option.none_or] at hstanding
  cases site with
  | start | finish => cases hstanding
  | token handle =>
    simp only [Site.handle?, Option.bind_some, Option.map_map, Option.map_eq_some_iff] at hstanding
    obtain ⟨info', hlookup, heq⟩ := hstanding
    simp only [Function.comp_apply, Prod.mk.injEq] at heq
    obtain ⟨rfl, rfl, rfl⟩ := heq
    exact ⟨handle, rfl, hlookup, rfl, rfl⟩

/-- Records of withheld tokens can come where there are none. -/
theorem Sound.openSites (h : buffer.Sound grammar) (hnodup : (fresh.map Prod.fst).Nodup)
    (hfresh : ∀ handle ∈ fresh.map Prod.fst, buffer.hasRecord (.token handle) = false) :
    (buffer.openSites fresh).Sound grammar ∧
      ∀ fact, fact.buffer? = some buffer.id →
        (buffer.openSites fresh).holds fact = buffer.holds fact := by
  -- a fresh site had no record, so the records that were there are found as before
  have hold {site : Site} {record : SiteRecord} (hrecord : buffer.record? site = some record) :
      (buffer.openSites fresh).record? site = some record := by
    rw [record?_openSites, hrecord, Option.some_or]
  refine h.of_offers rfl ?_ ?_ (fun site => ?_) (fun handle info => ?_) rfl rfl rfl rfl
  · have hmap : ((buffer.openSites fresh).records.map Prod.fst) =
        buffer.records.map Prod.fst ++ (fresh.map Prod.fst).map Site.token := by
      simp [Buffer.openSites, Function.comp_def]
    rw [hmap, List.nodup_append']
    refine ⟨h.sites, hnodup.map fun a b heq => Site.token.inj heq, fun site hsite hnew => ?_⟩
    obtain ⟨handle, hhandle, rfl⟩ := List.mem_map.1 hnew
    have hnone := hfresh handle hhandle
    rw [hasRecord_iff.2 hsite] at hnone
    cases hnone
  · intro site info markers negations hstanding
    cases hrecord : buffer.record? site with
    | some record =>
      refine h.marked site info markers negations ?_
      rw [standing, hold hrecord] at hstanding
      rw [standing, hrecord]
      exact hstanding
    | none =>
      obtain ⟨handle, rfl, -, rfl, rfl⟩ := standing_openSites hrecord hstanding
      refine ⟨⟨List.nodup_singleton _, List.nodup_nil⟩, fun fact hfact => ?_, fun fact => ?_⟩
      · exact ⟨handle, rfl, List.mem_singleton.1 hfact⟩
      · refine iff_of_false (by simp) ?_
        rintro ⟨hnot, handle', heq, rfl⟩
        injection heq with heq
        subst heq
        exact hnot List.mem_cons_self
  · exact notes_openSites site
  · cases hrecord : buffer.record? (.token handle) with
    | some record =>
      unfold Offers
      rw [standing, standing, hold hrecord, hrecord]
      rfl
    | none =>
      refine iff_of_false ?_ ?_
      · rintro ⟨markers, negations, hstanding, hmarkers⟩
        obtain ⟨other, heq, -, rfl, -⟩ := standing_openSites hrecord hstanding
        injection heq with heq
        subst heq
        exact hmarkers List.mem_cons_self
      · rintro ⟨markers, negations, hstanding, -⟩
        rw [standing, hrecord] at hstanding
        cases hstanding

/-! ### Other records -/

/-- A buffer whose records have been exchanged. -/
def renewed (buffer : Buffer) (changes : Restatement) : Buffer :=
  (buffer.retire changes.retired).openSites changes.fresh

/-- What is known about the sites when records are exchanged. -/
theorem info?_openSites_retire : ((buffer.retire sites).openSites fresh).info? site =
    (if site ∈ sites then none else buffer.info? site).or (site.handle?.bind (List.lookup · fresh)) := by
  rw [info?, record?_openSites, record?_retire, Option.map_or, apply_ite (Option.map _)]
  congr 1
  cases site with
  | start | finish => rfl
  | token handle =>
    change Option.map _ (Option.map _ (fresh.lookup handle)) = fresh.lookup handle
    rw [Option.map_map]
    exact Option.map_id'

/-- The facts that hold do not matter to what an exchange of records does besides. -/
theorem skeleton_renewed {changes : Restatement} (h : after.skeleton = buffer.skeleton) :
    (after.renewed changes).skeleton = (buffer.renewed changes).skeleton := by
  have hrecords (buffer : Buffer) : (buffer.renewed changes).skeleton =
      (buffer.id, buffer.kind, buffer.tokens,
        (buffer.skeleton.2.2.2.filter fun entry => !changes.retired.contains entry.1) ++
          changes.fresh.map fun entry => (.token entry.1, entry.2)) := by
    simp only [skeleton, Buffer.renewed, openSites, retire, List.map_append, List.map_map,
      List.filter_map]
    rfl
  rw [hrecords, hrecords, h, show after.id = _ from congrArg (·.1) h,
    show after.kind = _ from congrArg (·.2.1) h, show after.tokens = _ from congrArg (·.2.2.1) h]
  rfl

/-- Records can be exchanged once nothing holds at the sites that go. -/
theorem Sound.renewed {changes : Restatement} (h : buffer.Sound grammar)
    (hclear : ∀ fact, fact.buffer? = some buffer.id → buffer.holds fact = true →
      ∀ site ∈ fact.sites, site ∉ changes.retired)
    (hnodup : (changes.fresh.map (·.1)).Nodup)
    (hfresh : ∀ handle info, (handle, info) ∈ changes.fresh →
      .token handle ∈ changes.retired ∨ buffer.hasRecord (.token handle) = false) :
    (buffer.renewed changes).Sound grammar ∧
      ∀ fact, fact.buffer? = some buffer.id →
        (buffer.renewed changes).holds fact = buffer.holds fact := by
  obtain ⟨hretire, hholds⟩ := h.retire hclear
  have hnone (handle : Handle) (hhandle : handle ∈ changes.fresh.map (·.1)) :
      (buffer.retire changes.retired).hasRecord (.token handle) = false := by
    obtain ⟨entry, hentry, rfl⟩ := List.mem_map.1 hhandle
    rw [hasRecord, record?_retire]
    split_ifs with hretired
    · rfl
    · exact (hfresh _ _ hentry).resolve_left hretired
  obtain ⟨hsound, hsame⟩ := hretire.openSites hnodup hnone
  exact ⟨hsound, fun fact hfact => (hsame fact hfact).trans (hholds fact hfact)⟩

end Buffer

end LiveProse
