import LiveProse.Proofs.Chart.Significance
import LiveProse.Proofs.Session.Histories

/-! The observed chain of a buffer after any history. As long as its tokens stay in range, the recorded
sites are the sentinels and the tokens that the parser does not skip, with what these say in the states
that the tokens before them lead to; the edges that hold lead from each to the next. -/

namespace LiveProse

open TokenSequence

namespace Buffer

variable {buffer other : Buffer} {vocabulary grown : Vocabulary}

/-- Every token is of a lexeme, and as long as the tokens are in range, the right things are known. -/
def Legible (vocabulary : Vocabulary) (buffer : Buffer) : Prop :=
  buffer.Spelled vocabulary ∧ (InRange buffer.tokens.toList → buffer.Exact vocabulary)

theorem Legible.congr (h : buffer.Legible vocabulary) (htokens : other.tokens = buffer.tokens)
    (hinfo : other.info? = buffer.info?) (hgrows : vocabulary.texts <+: grown.texts) :
    other.Legible grown :=
  ⟨h.1.congr htokens hinfo hgrows, fun hrange =>
    (h.2 (htokens ▸ hrange)).congr h.1 htokens hinfo hgrows⟩

theorem legible_begun (vocabulary : Vocabulary) (id : BufferId) (kind : BufferKind) :
    Legible vocabulary { id, kind } := by
  refine ⟨⟨fun token htoken => (List.not_mem_nil htoken).elim, rfl, rfl⟩, fun _ => ?_⟩
  intro front handle token back hentries
  exact absurd (congrArg List.length hentries) (by simp [Sequence.entries])

/-- An edit of a buffer whose tokens are in range leaves it legible. -/
theorem Edits.legible {edit : Edit} {after : Buffer} (h : buffer.Edits vocabulary edit after grown)
    (hplaced : buffer.Placed) (hrange : InRange buffer.tokens.toList)
    (hlegible : buffer.Legible vocabulary) : after.Legible grown := by
  obtain ⟨-, -, hbefore, holdAfter, R⟩ := h
  exact ⟨R.spelled hplaced hlegible.1, fun hrange' =>
    R.exact hplaced hlegible.1 (hlegible.2 hrange) hrange hrange' hbefore holdAfter⟩

end Buffer

namespace Chart

variable {chart : Chart} {buffer : Buffer} {sites : List (Handle × SiteInfo)}

/-- A buffer is observed as the chain of some tokens: they and the sentinels are its records, an edge
leads from each to the next and is noted at both, and each says whether it ends a sentence. -/
structure ShowsSites (chart : Chart) (buffer : Buffer) (sites : List (Handle × SiteInfo)) : Prop where
  records : (buffer.records.map fun (site, record) => (site, record.info)).Perm
    ((.start, .sentinel) :: (.finish, .sentinel) ::
      sites.map fun (handle, info) => (.token handle, info))
  edges : ∀ source target, chart.holds (.next buffer.id source target) = true ↔
    (source, target) ∈ pairs (.start :: (sites.map (fun entry => .token entry.1) ++ [.finish]))
  noted : ∀ id source target site, buffer.hasFact site (.next id source target) = true ↔
    id = buffer.id ∧ chart.holds (.next buffer.id source target) = true ∧
      (site = source ∨ site = target)
  available : ∀ handle, chart.holds (.available buffer.id handle) = true ↔ handle ∈ sites.map (·.1)
  endings : ∀ handle info, (handle, info) ∈ sites → ∀ positive,
    chart.holds (.endOfSentence buffer.id (.token handle) positive) = true ↔
      positive = info.traits.sentenceEnd
  sentinels : ∀ positive, (chart.holds (.endOfSentence buffer.id .start positive) = true ↔
      positive = true) ∧
    (chart.holds (.endOfSentence buffer.id .finish positive) = true ↔ positive = true)

/-- A current chart shows a buffer as the chain of its tokens if the right things are known. -/
theorem Current.showsSites (h : chart.Current) (hbuffer : chart.buffer? buffer.id = some buffer)
    (hspelled : buffer.Spelled chart.vocabulary) (hexact : buffer.Exact chart.vocabulary) :
    chart.ShowsSites buffer (buffer.sites chart.vocabulary) := by
  have hmem := (buffer?_eq_some hbuffer).1
  have hplaced := h.placed buffer hmem
  have hchained := h.chained buffer.id buffer hbuffer
  have hsound := h.ordered.sound.buffers buffer hmem
  have hinfo (site : Site) (info : SiteInfo) : buffer.info? site = some info ↔
      (site, info) ∈ (Site.start, SiteInfo.sentinel) :: (.finish, .sentinel) ::
        (buffer.sites chart.vocabulary).map fun (handle, info) => (Site.token handle, info) :=
    hexact.info?_eq_some_iff hplaced hspelled
  have hnodup : ((Site.start, SiteInfo.sentinel) :: (.finish, .sentinel) ::
      (buffer.sites chart.vocabulary).map fun (handle, info) => (Site.token handle, info)).Nodup :=
    (buffer.nodup_known hplaced chart.vocabulary).of_map
  refine ⟨?_, ?_, ?_, ?_, ?_, ?_⟩
  · have hrecords : ((buffer.records.map fun (site, record) => (site, record.info)).map
        Prod.fst).Nodup := by
      rw [List.map_map]
      exact hsound.sites
    refine (List.perm_ext_iff_of_nodup hrecords.of_map hnodup).2 fun ⟨site, info⟩ => ?_
    rw [← hinfo site info, Buffer.info?_eq_lookup, lookup_eq_some_iff_mem hrecords]
  · rw [← hexact.path_eq]
    exact hchained.edges
  · intro id source target site
    rw [Buffer.hasFact_iff, hsound.noted.mem, holds_of_buffer? rfl hbuffer]
    constructor
    · rintro ⟨hholds, hsite⟩
      obtain rfl : id = buffer.id :=
        Option.some.inj (hsound.noted.own_of_holds _ hholds hsite)
      exact ⟨rfl, hholds, by simpa [Fact.places] using hsite⟩
    · rintro ⟨rfl, hholds, hsite⟩
      exact ⟨hholds, by simpa [Fact.places] using hsite⟩
  · intro handle
    rw [hchained.available, ← Buffer.isSome_info?, Option.isSome_iff_exists]
    simp only [hinfo]
    simp
  · intro handle info hsite positive
    have hknown : buffer.info? (.token handle) = some info := by
      rw [hinfo]
      simp [hsite]
    rw [hchained.endings, hknown]
    simp [Site.endsSentence, eq_comm]
  · intro positive
    rw [hchained.endings, hchained.endings, hspelled.start, hspelled.finish]
    simp [Site.endsSentence, eq_comm]

end Chart

namespace Session

open Chart

variable {session : Session} {id : BufferId}

/-- The tokens of a buffer are in range after every operation of a history. -/
def StaysInRange (session : Session) (id : BufferId) (history : List Command) : Prop :=
  ∀ front, front <+: history → ∀ buffer,
    (session.performAll front).chart.buffer? id = some buffer → InRange buffer.tokens.toList

theorem staysInRange_iff {history : List Command} : session.StaysInRange id history ↔
    (history.inits.all fun front => ((session.performAll front).chart.buffer? id).all fun buffer =>
      decide (InRange buffer.tokens.toList)) = true := by
  simp only [StaysInRange, List.all_eq_true, List.mem_inits, Option.all_eq_true, decide_eq_true_eq]

instance (session : Session) (id : BufferId) (history : List Command) :
    Decidable (session.StaysInRange id history) :=
  decidable_of_iff _ staysInRange_iff.symm

theorem about_legible (h : session.chart.Current) (hold : session.chart.About Buffer.Legible id)
    {history : List Command} (hrange : session.StaysInRange id history) :
    (session.performAll history).chart.About Buffer.Legible id := by
  refine about_performAll h (fun _ _ _ _ hlegible htokens hinfo hgrows =>
    hlegible.congr htokens hinfo hgrows) (fun vocabulary => Buffer.legible_begun vocabulary id) ?_ hold
  intro front lo hi text hfront buffer after grown hcurrent hbuffer hedits hlegible
  exact hedits.legible (hcurrent.placed buffer (buffer?_eq_some hbuffer).1)
    (hrange front ((List.prefix_append _ _).trans hfront) buffer hbuffer) hlegible

/-- After any history that keeps the tokens of a buffer in range, the buffer is observed as the chain of
the tokens that the parser does not skip, as its tokens read one after another. -/
theorem performAll_showsSites (config : SessionConfig) (history : List Command)
    (hrange : (new config).StaysInRange id history) (buffer : Buffer)
    (hbuffer : ((new config).performAll history).chart.buffer? id = some buffer) :
    let chart := ((new config).performAll history).chart
    chart.ShowsSites buffer (buffer.sites chart.vocabulary) := by
  intro chart
  have h : chart.Current := (reaches_history (current_new config) history).1
  have hnew : (new config).chart.About Buffer.Legible id := fun _ hnone => by cases hnone
  obtain ⟨hspelled, hexact⟩ := about_legible (current_new config) hnew hrange buffer hbuffer
  have hid := (buffer?_eq_some hbuffer).2
  exact h.showsSites (hid ▸ hbuffer) hspelled (hexact (hrange history List.prefix_rfl buffer hbuffer))

/-- A sentence is typed with a comment in it, and then the bracket that closes the comment goes. -/
def commentLeftOpen : List Command :=
  [.introduceBuffer ⟨0⟩ .story, .edit ⟨0⟩ 0 0 ['a', '[', 'b', ']', 'c', '.'], .edit ⟨0⟩ 3 4 []]

/-- Only the first word is left of the sentence. -/
theorem performAll_showsSites_commentLeftOpen :
    (new {}).StaysInRange ⟨0⟩ commentLeftOpen ∧
      let chart := ((new {}).performAll commentLeftOpen).chart
      ∃ buffer, chart.buffer? ⟨0⟩ = some buffer ∧
        (buffer.sites chart.vocabulary).map (·.1) = [⟨0, 0⟩] ∧
        chart.ShowsSites buffer (buffer.sites chart.vocabulary) := by
  have hrange : (new {}).StaysInRange ⟨0⟩ commentLeftOpen := by decide +kernel
  refine ⟨hrange, ?_⟩
  have h := performAll_showsSites {} commentLeftOpen hrange
  dsimp only at h
  generalize hchart : ((new {}).performAll commentLeftOpen).chart = chart at h
  have hfound : (chart.buffer? ⟨0⟩).any (fun buffer =>
      (buffer.sites chart.vocabulary).map (·.1) = [⟨0, 0⟩]) = true := by
    rw [← hchart]
    decide +kernel
  obtain ⟨buffer, hbuffer, hsites⟩ := (Option.any_eq_true _ _).1 hfound
  exact ⟨buffer, hbuffer, of_decide_eq_true hsites, h buffer hbuffer⟩

end Session

end LiveProse
