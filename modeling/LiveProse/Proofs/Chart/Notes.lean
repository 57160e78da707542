import LiveProse.Chart.Chart
import LiveProse.Proofs.Store.Association
import LiveProse.Proofs.Store.Contents

/-! What is noted at the sites of a buffer, and how noting a fact and taking it back change that. -/

namespace LiveProse

/-- The sites at which a fact is noted while it holds. -/
def Fact.places : Fact → List Site
  | .next _ source target => [source, target]
  | .endOfSentence _ site _ => [site]
  | .potential key | .complete key => key.ends
  | .production _ | .available _ _ => []

/-- The buffer that a fact is about. -/
def Fact.buffer? : Fact → Option BufferId
  | .production _ => none
  | .available buffer _ | .next buffer _ _ | .endOfSentence buffer _ _ => some buffer
  | .potential key | .complete key => some key.buffer

theorem MatchKey.mem_ends {key : MatchKey} {site : Site} :
    site ∈ key.ends ↔ site = key.beginningSite ∨ site = key.endSite := by
  unfold ends
  split_ifs with h
  · simp [endSite, beginningSite, h]
  · simp

theorem MatchKey.beginningSite_mem_ends (key : MatchKey) : key.beginningSite ∈ key.ends :=
  mem_ends.2 (.inl rfl)

theorem MatchKey.endSite_mem_ends (key : MatchKey) : key.endSite ∈ key.ends :=
  mem_ends.2 (.inr rfl)

theorem MatchKey.nodup_ends (key : MatchKey) : key.ends.Nodup := by
  unfold ends
  split_ifs with h
  · simp
  · simpa [beginningSite, endSite, eq_comm] using h

/-- A record with other facts noted. -/
def SiteRecord.withNotes (record : SiteRecord) (notes : List Fact) : SiteRecord :=
  { record with facts := { record.facts with positive := ⟨notes⟩ } }

namespace Buffer

variable {buffer : Buffer} {site other : Site} {fact : Fact} {sites : List Site}

/-- The facts that are noted at a site. -/
def notes (buffer : Buffer) (site : Site) : List Fact :=
  ((buffer.record? site).map (·.facts.positive.items)).getD []

/-- Whether a fact about the buffer holds. -/
def holds (buffer : Buffer) : Fact → Bool
  | .production _ => false
  | .available id site =>
    (buffer.record? (.token site)).any (·.facts.holdsNegation (.available id site))
  | .next id source target => buffer.hasFact source (.next id source target)
  | .endOfSentence id site positive => buffer.hasFact site (.endOfSentence id site positive)
  | .potential key => buffer.potentials.contains key
  | .complete key => buffer.completes.contains key

/-- All of a buffer that no fact changes. -/
def skeleton (buffer : Buffer) :
    BufferId × BufferKind × TokenSequence × List (Site × SiteInfo) :=
  (buffer.id, buffer.kind, buffer.tokens, buffer.records.map fun (site, record) => (site, record.info))

theorem hasFact_iff : buffer.hasFact site fact = true ↔ fact ∈ buffer.notes site := by
  unfold hasFact notes
  cases buffer.record? site with
  | none => simp
  | some record => simp [Annotations.has, Bank.contains]

theorem notes_of_not_hasRecord (h : buffer.hasRecord site = false) : buffer.notes site = [] := by
  unfold hasRecord at h
  unfold notes
  cases hrecord : buffer.record? site with
  | none => rfl
  | some record =>
    rw [hrecord] at h
    cases h

theorem hasRecord_of_mem_notes (h : fact ∈ buffer.notes site) : buffer.hasRecord site = true := by
  by_contra hnot
  rw [notes_of_not_hasRecord (by simpa using hnot)] at h
  cases h

theorem mem_factsOfClass {wanted : FactClass} :
    fact ∈ buffer.factsOfClass site wanted ↔
      fact ∈ buffer.notes site ∧ fact.factClass = wanted := by
  unfold factsOfClass notes
  cases buffer.record? site with
  | none => simp
  | some record => simp [Annotations.ofKind, Bank.ofKind, Bank.contains]

theorem nodup_factsOfClass (buffer : Buffer) (site : Site) (wanted : FactClass) :
    (buffer.factsOfClass site wanted).Nodup := by
  unfold factsOfClass
  cases buffer.record? site with
  | none => exact List.nodup_nil
  | some record => exact (Bank.nodup_toList _).filter _

/-! ### Changing records -/

theorem lookup_map_snd {κ ν ω : Type} [DecidableEq κ] (f : κ → ν → ω) (pairs : List (κ × ν))
    (key : κ) :
    (pairs.map fun (k, v) => (k, f k v)).lookup key = (pairs.lookup key).map (f key) := by
  induction pairs with
  | nil => rfl
  | cons pair pairs ih =>
    obtain ⟨k, v⟩ := pair
    by_cases hk : key = k
    · simp [hk]
    · have hne : (key == k) = false := by simpa using hk
      simp only [List.map_cons, List.lookup_cons, hne, ih]

theorem record?_modifyFacts {change : Annotations Fact → Annotations Fact} :
    (buffer.modifyFacts site change).record? other = (buffer.record? other).map fun record =>
      if other = site then { record with facts := change record.facts } else record :=
  lookup_map_snd (fun (other : Site) (record : SiteRecord) =>
    (if other = site then { record with facts := change record.facts } else record : SiteRecord)) _ _

theorem skeleton_modifyFacts {change : Annotations Fact → Annotations Fact} :
    (buffer.modifyFacts site change).skeleton = buffer.skeleton := by
  simp only [skeleton, modifyFacts, List.map_map]
  refine congrArg (fun records => (buffer.id, buffer.kind, buffer.tokens, records)) ?_
  refine List.map_congr_left fun entry _ => ?_
  dsimp only [Function.comp]
  split_ifs <;> rfl

theorem add_fst (facts : Annotations Fact) :
    (facts.add fact).1 = { facts with positive := ⟨fact :: facts.positive.items⟩ } := rfl

theorem remove_fst (facts : Annotations Fact) :
    (facts.remove fact).1 = { facts with positive := ⟨facts.positive.items.erase fact⟩ } := by
  unfold Annotations.remove Bank.release?
  split_ifs with h
  · rfl
  · have hnot : fact ∉ facts.positive.items := fun hmem => h (List.contains_iff_mem.2 hmem)
    rw [List.erase_of_not_mem hnot]

theorem record?_annotate (hsites : sites.Nodup) :
    (buffer.annotate fact sites).record? other = (buffer.record? other).map fun record =>
      if other ∈ sites then record.withNotes (fact :: record.facts.positive.items) else record := by
  induction sites generalizing buffer with
  | nil => simp [annotate]
  | cons site sites ih =>
    obtain ⟨hsite, hsites⟩ := List.nodup_cons.1 hsites
    change ((buffer.modifyFacts site _).annotate fact sites).record? other = _
    rw [ih hsites, record?_modifyFacts, Option.map_map]
    refine congrArg (fun f => (buffer.record? other).map f) (funext fun record => ?_)
    by_cases hother : other = site
    · subst hother
      simp [hsite, add_fst, SiteRecord.withNotes]
    · simp [hother]

theorem record?_unannotate (hsites : sites.Nodup) :
    (buffer.unannotate fact sites).record? other = (buffer.record? other).map fun record =>
      if other ∈ sites then record.withNotes (record.facts.positive.items.erase fact)
      else record := by
  induction sites generalizing buffer with
  | nil => simp [unannotate]
  | cons site sites ih =>
    obtain ⟨hsite, hsites⟩ := List.nodup_cons.1 hsites
    change ((buffer.modifyFacts site _).unannotate fact sites).record? other = _
    rw [ih hsites, record?_modifyFacts, Option.map_map]
    refine congrArg (fun f => (buffer.record? other).map f) (funext fun record => ?_)
    by_cases hother : other = site
    · subst hother
      simp [hsite, remove_fst, SiteRecord.withNotes]
    · simp [hother]

theorem notes_annotate (hsites : sites.Nodup) :
    (buffer.annotate fact sites).notes other =
      if other ∈ sites ∧ buffer.hasRecord other = true then fact :: buffer.notes other
      else buffer.notes other := by
  unfold notes hasRecord
  rw [record?_annotate hsites]
  cases buffer.record? other with
  | none => simp
  | some record =>
    by_cases h : other ∈ sites
    · simp [h, SiteRecord.withNotes]
    · simp [h]

theorem notes_unannotate (hsites : sites.Nodup) :
    (buffer.unannotate fact sites).notes other =
      if other ∈ sites then (buffer.notes other).erase fact else buffer.notes other := by
  unfold notes
  rw [record?_unannotate hsites]
  cases buffer.record? other with
  | none => simp
  | some record =>
    by_cases h : other ∈ sites
    · simp [h, SiteRecord.withNotes]
    · simp [h]

end Buffer

end LiveProse
