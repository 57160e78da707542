import LiveProse.Proofs.Chart.Notes

/-! When the records and the indices of a buffer are in order: what is noted holds, what holds is
noted at all of its places, and every index files exactly what it is meant to. -/

namespace LiveProse

/-- The nonterminals that the next slot of a match asks for. -/
def Grammar.needs (grammar : Grammar) (key : MatchKey) : List Nonterminal :=
  (((grammar.get? key.production).bind (·.slot? key.slotsFilled)).map (·.needs)).getD []

namespace Buffer

/-- What stands at a site besides the facts noted there: what is known about it, the facts that are
withheld, and those of negative sense that hold. -/
def standing (buffer : Buffer) (site : Site) : Option (SiteInfo × List Fact × List Fact) :=
  (buffer.record? site).map fun record =>
    (record.info, record.facts.markers.items, record.facts.negations)

/-- Facts are noted exactly at the places of what holds. -/
structure Noted (buffer : Buffer) : Prop where
  nodup : ∀ site, (buffer.notes site).Nodup
  mem : ∀ site fact, fact ∈ buffer.notes site ↔ buffer.holds fact = true ∧ site ∈ fact.places
  own : ∀ site fact, fact ∈ buffer.notes site → fact.buffer? = some buffer.id
  places : ∀ site fact, fact ∈ buffer.notes site → fact.places.Nodup

/-- Every token is either withheld or remembered as available, and nothing else is. -/
def Marked (buffer : Buffer) : Prop :=
  ∀ site info markers negations, buffer.standing site = some (info, markers, negations) →
    (markers.Nodup ∧ negations.Nodup) ∧
    (∀ fact ∈ markers, ∃ handle, site = .token handle ∧ fact = .available buffer.id handle) ∧
    ∀ fact, fact ∈ negations ↔
      fact ∉ markers ∧ ∃ handle, site = .token handle ∧ fact = .available buffer.id handle

/-- Matches are of defined productions and fill no more slots than there are. -/
def Keyed (grammar : Grammar) (buffer : Buffer) : Prop :=
  ∀ key, buffer.potentials.contains key = true ∨ buffer.completes.contains key = true →
    ∃ production, grammar.get? key.production = some production ∧
      key.slotsFilled ≤ production.arity

/-- An available token lies under a key. -/
def TokenUnder (buffer : Buffer) (key : ParsemeKey) (site : Site) : Prop :=
  ∃ handle info markers negations, site = .token handle ∧
    buffer.standing site = some (info, markers, negations) ∧
    .available buffer.id handle ∉ markers ∧ key ∈ ParsemeKey.ofToken info

/-- A complete match with a result of a name begins at a site. -/
def MatchUnder (grammar : Grammar) (buffer : Buffer) (name : Word) (site : Site) : Prop :=
  ∃ inner production, buffer.completes.contains inner = true ∧ inner.beginningSite = site ∧
    grammar.get? inner.production = some production ∧ production.result.name = name

/-- The indices over the sites and the matches file what they are meant to. -/
structure Filed (grammar : Grammar) (buffer : Buffer) : Prop where
  nodup_beginnings : buffer.parsemeBeginnings.pairs.Nodup
  mem_beginnings : ∀ key site, (key, site) ∈ buffer.parsemeBeginnings.pairs ↔
    buffer.TokenUnder key site ∨
      ∃ name, key = .nonterminal name ∧ buffer.MatchUnder grammar name site
  nodup_partials : buffer.partialMatches.pairs.Nodup
  mem_partials : ∀ wanted key, (wanted, key) ∈ buffer.partialMatches.pairs ↔
    buffer.potentials.contains key = true ∧ wanted ∈ grammar.needs key

/-- A buffer in order. -/
structure Sound (grammar : Grammar) (buffer : Buffer) : Prop where
  sites : (buffer.records.map Prod.fst).Nodup
  noted : buffer.Noted
  marked : buffer.Marked
  keyed : buffer.Keyed grammar
  filed : buffer.Filed grammar

variable {buffer after : Buffer} {fact : Fact} {grammar : Grammar} {site : Site}

theorem hasRecord_iff : buffer.hasRecord site = true ↔ site ∈ buffer.records.map Prod.fst :=
  lookup_isSome_iff

theorem holds_available (buffer : Buffer) (id : BufferId) (handle : Handle) :
    buffer.holds (.available id handle) = (buffer.standing (.token handle)).any fun standing =>
      !standing.2.1.contains (.available id handle) := by
  rw [standing, Option.any_map]
  rfl

/-- The noted observations, edges and sentence ends, hold as long as they are noted. -/
def IsNote (fact : Fact) : Prop :=
  (∃ id source target, fact = .next id source target) ∨
    ∃ id site positive, fact = .endOfSentence id site positive

/-- Of a fact other than an availability, the notes and the matches tell whether it holds. -/
theorem holds_congr_of_available
    (havailable : ∀ id handle, fact = .available id handle → after.holds fact = buffer.holds fact)
    (hnotes : IsNote fact → ∀ site, fact ∈ after.notes site ↔ fact ∈ buffer.notes site)
    (hpotentials : ∀ key, fact = .potential key →
      after.potentials.contains key = buffer.potentials.contains key)
    (hcompletes : ∀ key, fact = .complete key →
      after.completes.contains key = buffer.completes.contains key) :
    after.holds fact = buffer.holds fact := by
  cases fact with
  | production id => rfl
  | available id handle => exact havailable id handle rfl
  | next id source target =>
    rw [Bool.eq_iff_iff]
    exact hasFact_iff.trans ((hnotes (.inl ⟨_, _, _, rfl⟩) source).trans hasFact_iff.symm)
  | endOfSentence id site positive =>
    rw [Bool.eq_iff_iff]
    exact hasFact_iff.trans ((hnotes (.inr ⟨_, _, _, rfl⟩) site).trans hasFact_iff.symm)
  | potential key => exact hpotentials key rfl
  | complete key => exact hcompletes key rfl

/-- Whether a fact holds is read off the notes, the standing of its token, or the matches. -/
theorem holds_congr
    (hnotes : IsNote fact → ∀ site, fact ∈ after.notes site ↔ fact ∈ buffer.notes site)
    (hstanding : ∀ site, after.standing site = buffer.standing site)
    (hpotentials : ∀ key, fact = .potential key →
      after.potentials.contains key = buffer.potentials.contains key)
    (hcompletes : ∀ key, fact = .complete key →
      after.completes.contains key = buffer.completes.contains key) :
    after.holds fact = buffer.holds fact := by
  refine holds_congr_of_available ?_ hnotes hpotentials hcompletes
  rintro id handle rfl
  rw [holds_available, holds_available, hstanding]

/-- What holds at a place is a fact about the buffer. -/
theorem Noted.own_of_holds (h : buffer.Noted) (fact : Fact) (hholds : buffer.holds fact = true)
    (hsite : site ∈ fact.places) : fact.buffer? = some buffer.id :=
  h.own site fact ((h.mem site fact).2 ⟨hholds, hsite⟩)

theorem Noted.congr (h : buffer.Noted) (hid : after.id = buffer.id)
    (hnotes : ∀ site, after.notes site = buffer.notes site)
    (hholds : ∀ fact site, site ∈ fact.places → after.holds fact = buffer.holds fact) :
    after.Noted := by
  refine ⟨fun site => ?_, fun site fact => ?_, fun site fact hfact => ?_, fun site fact hfact => ?_⟩
  · rw [hnotes]
    exact h.nodup site
  · rw [hnotes, h.mem site fact]
    exact and_congr_left fun hsite => by rw [hholds fact site hsite]
  · rw [hid]
    exact h.own site fact (hnotes site ▸ hfact)
  · exact h.places site fact (hnotes site ▸ hfact)

/-- A fact that comes to hold is noted at its places. -/
theorem Noted.gain (h : buffer.Noted) (hid : after.id = buffer.id)
    (hown : fact.buffer? = some buffer.id) (hnot : buffer.holds fact = false)
    (hplaces : fact.places.Nodup) (hrecords : ∀ site ∈ fact.places, buffer.hasRecord site = true)
    (hnotes : ∀ site, after.notes site = (buffer.annotate fact fact.places).notes site)
    (hholds : ∀ a, after.holds a = true ↔ a = fact ∨ buffer.holds a = true) : after.Noted := by
  have hnew : ∀ site, fact ∉ buffer.notes site := by
    intro site hmem
    rw [h.mem site fact, hnot] at hmem
    exact Bool.noConfusion hmem.1
  have heq : ∀ site, after.notes site =
      if site ∈ fact.places then fact :: buffer.notes site else buffer.notes site := by
    intro site
    rw [hnotes, notes_annotate hplaces]
    by_cases hsite : site ∈ fact.places
    · simp [hsite, hrecords site hsite]
    · simp [hsite]
  have hor : ∀ site a, a ∈ after.notes site → a = fact ∨ a ∈ buffer.notes site := by
    intro site a ha
    rw [heq] at ha
    split_ifs at ha with hsite
    · exact List.mem_cons.1 ha
    · exact .inr ha
  refine ⟨fun site => ?_, fun site a => ?_, fun site a ha => ?_, fun site a ha => ?_⟩
  · rw [heq]
    split_ifs
    · exact List.nodup_cons.2 ⟨hnew site, h.nodup site⟩
    · exact h.nodup site
  · rw [heq, hholds]
    by_cases ha : a = fact
    · subst ha
      split_ifs with hsite
      · simp [hsite]
      · simp [hsite, hnew site]
    · split_ifs with hsite
      · simp [ha, h.mem site a]
      · simp [ha, h.mem site a]
  · rw [hid]
    rcases hor site a ha with rfl | ha
    · exact hown
    · exact h.own site a ha
  · rcases hor site a ha with rfl | ha
    · exact hplaces
    · exact h.places site a ha

/-- A fact that stops holding is taken back at its places. -/
theorem Noted.lose (h : buffer.Noted) (hid : after.id = buffer.id) (hplaces : fact.places.Nodup)
    (hnotes : ∀ site, after.notes site = (buffer.unannotate fact fact.places).notes site)
    (hholds : ∀ a, after.holds a = true ↔ a ≠ fact ∧ buffer.holds a = true) : after.Noted := by
  have hmem : ∀ site a, a ∈ after.notes site ↔ a ≠ fact ∧ a ∈ buffer.notes site := by
    intro site a
    rw [hnotes, notes_unannotate hplaces]
    split_ifs with hsite
    · exact (h.nodup site).mem_erase_iff
    · refine ⟨fun ha => ⟨?_, ha⟩, And.right⟩
      rintro rfl
      exact hsite ((h.mem site a).1 ha).2
  refine ⟨fun site => ?_, fun site a => ?_, fun site a ha => ?_, fun site a ha => ?_⟩
  · rw [hnotes, notes_unannotate hplaces]
    split_ifs
    · exact (h.nodup site).erase _
    · exact h.nodup site
  · rw [hmem, hholds, h.mem, and_assoc]
  · rw [hid]
    exact h.own site a ((hmem site a).1 ha).2
  · exact h.places site a ((hmem site a).1 ha).2

theorem Marked.congr (h : buffer.Marked) (hid : after.id = buffer.id)
    (hstanding : ∀ site, after.standing site = buffer.standing site) : after.Marked := by
  intro site info markers negations hsome
  rw [hstanding] at hsome
  rw [hid]
  exact h site info markers negations hsome

theorem Filed.congr (h : buffer.Filed grammar) (hid : after.id = buffer.id)
    (hstanding : ∀ site, after.standing site = buffer.standing site)
    (hpotentials : ∀ key, after.potentials.contains key = buffer.potentials.contains key)
    (hcompletes : ∀ key, after.completes.contains key = buffer.completes.contains key)
    (hbeginnings : after.parsemeBeginnings = buffer.parsemeBeginnings)
    (hpartials : after.partialMatches = buffer.partialMatches) : after.Filed grammar := by
  refine ⟨hbeginnings ▸ h.nodup_beginnings, fun key site => ?_, hpartials ▸ h.nodup_partials,
    fun wanted key => ?_⟩
  · rw [hbeginnings, h.mem_beginnings key site]
    simp only [TokenUnder, MatchUnder, hid, hstanding, hcompletes]
  · rw [hpartials, h.mem_partials wanted key, hpotentials]

theorem Sound.congr (h : buffer.Sound grammar) (hid : after.id = buffer.id)
    (hrecords : after.records = buffer.records) (hpotentials : after.potentials = buffer.potentials)
    (hcompletes : after.completes = buffer.completes)
    (hbeginnings : after.parsemeBeginnings = buffer.parsemeBeginnings)
    (hpartials : after.partialMatches = buffer.partialMatches) : after.Sound grammar := by
  have hrecord : ∀ site, after.record? site = buffer.record? site := by
    intro site
    rw [record?, record?, hrecords]
  have hnotes : ∀ site, after.notes site = buffer.notes site := by
    intro site
    rw [notes, notes, hrecord]
  have hstanding : ∀ site, after.standing site = buffer.standing site := by
    intro site
    rw [standing, standing, hrecord]
  refine ⟨hrecords ▸ h.sites, h.noted.congr hid hnotes fun fact _ _ => ?_, h.marked.congr hid hstanding,
    ?_, h.filed.congr hid hstanding (fun _ => by rw [hpotentials]) (fun _ => by rw [hcompletes])
      hbeginnings hpartials⟩
  · exact holds_congr (fun _ site => by rw [hnotes]) hstanding (fun _ _ => by rw [hpotentials])
      (fun _ _ => by rw [hcompletes])
  · intro key hkey
    rw [hpotentials, hcompletes] at hkey
    exact h.keyed key hkey

end Buffer

end LiveProse
