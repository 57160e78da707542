import LiveProse.Proofs.Chart.Endings
import LiveProse.Proofs.Session.Grounds

/-! The indices of the buffers during any history. At every step of the engine and after every operation
each of them files exactly what holds then, so that nothing that follows is missed because an index lags
behind. -/

namespace LiveProse

/-- What is known about a token lies under a key. -/
def ParsemeKey.FitsToken (info : SiteInfo) : ParsemeKey → Prop
  | .token text => info.text = some text
  | .digits => info.traits.digits = true
  | .word => info.traits.word = true
  | .nameWord => info.traits.nameWord = true
  | .sentenceEnd => info.traits.sentenceEnd = true
  | .nonterminal _ => False

theorem ParsemeKey.mem_ofToken_iff {key : ParsemeKey} {info : SiteInfo} :
    key ∈ ofToken info ↔ key.FitsToken info := by
  cases key <;> simp [ofToken, FitsToken]

namespace Grammar

variable {grammar : Grammar} {key : MatchKey} {wanted : Nonterminal}

/-- The next slot of a match lists what it needs. -/
theorem mem_needs : wanted ∈ grammar.needs key ↔
    ∃ production slot, grammar.get? key.production = some production ∧
      production.slot? key.slotsFilled = some slot ∧ .nonterminal wanted ∈ slot.alternatives := by
  have hslot (slot : Slot) : wanted ∈ slot.needs ↔ .nonterminal wanted ∈ slot.alternatives := by
    rw [Slot.needs, List.mem_filterMap]
    constructor
    · rintro ⟨parseme, hparseme, heq⟩
      cases parseme <;> cases heq
      exact hparseme
    · exact fun hmem => ⟨_, hmem, rfl⟩
  rw [needs]
  cases grammar.get? key.production with
  | none => simp
  | some production =>
    cases hfound : production.slot? key.slotsFilled with
    | none => simp [hfound]
    | some slot => simp [hfound, hslot]

end Grammar

namespace Buffer

variable {buffer : Buffer} {grammar : Grammar} {fact : Fact} {site : Site} {sites : List Site}

/-! ### Records that come and go -/

/-- What is noted at a site is justified there. -/
theorem mem_factsAt_of_mem_notes (h : fact ∈ buffer.notes site) : fact ∈ buffer.factsAt site := by
  unfold notes at h
  unfold factsAt
  cases hrecord : buffer.record? site with
  | none => simp [hrecord] at h
  | some record =>
    rw [hrecord] at h
    exact List.mem_append_left _ (Bank.mem_toList.2 (List.contains_iff_mem.2 h))

theorem Ended.retire (h : buffer.Ended) (hbare : ∀ site ∈ sites, buffer.factsAt site = []) :
    (buffer.retire sites).Ended := by
  refine h.congr rfl rfl fun site => ?_
  rw [notes, record?_retire]
  split_ifs with hsite
  · refine iff_of_false (by simp) fun hnoted => ?_
    have hfact := mem_factsAt_of_mem_notes hnoted
    rw [hbare site hsite] at hfact
    cases hfact
  · rfl

theorem Ended.openSites (h : buffer.Ended) (fresh : List (Handle × SiteInfo)) :
    (buffer.openSites fresh).Ended :=
  h.congr rfl rfl fun site => by rw [notes_openSites]

theorem ended_begun (id : BufferId) (kind : BufferKind) : Ended { id, kind } := by
  refine ⟨List.nodup_nil, fun site => iff_of_false List.not_mem_nil ?_⟩
  have hnotes : ({ id, kind } : Buffer).notes site = [] := by cases site <;> rfl
  rw [hnotes]
  exact List.not_mem_nil

/-! ### Coherence -/

/-- The indices of a buffer file what they are meant to. Under the key of a terminal are the available
tokens that fit it, under a name the places where complete matches with such a result begin, and under a
nonterminal the potential matches whose next slot lists it. The ends of sentences are those that hold,
and a match is noted once at each of its ends exactly as long as it is held. -/
structure Coherent (grammar : Grammar) (buffer : Buffer) : Prop where
  terminals : ∀ key site, (∀ name, key ≠ .nonterminal name) →
    (site ∈ buffer.parsemeBeginnings.get key ↔ ∃ handle info, site = .token handle ∧
      buffer.info? site = some info ∧ buffer.holds (.available buffer.id handle) = true ∧
        key.FitsToken info)
  nonterminals : ∀ name site, site ∈ buffer.parsemeBeginnings.get (.nonterminal name) ↔
    ∃ key production, buffer.completes.contains key = true ∧ key.beginningSite = site ∧
      grammar.get? key.production = some production ∧ production.result.name = name
  partials : ∀ wanted key, key ∈ buffer.partialMatches.get wanted ↔
    buffer.potentials.contains key = true ∧ ∃ production slot,
      grammar.get? key.production = some production ∧
        production.slot? key.slotsFilled = some slot ∧ .nonterminal wanted ∈ slot.alternatives
  endings : ∀ site, site ∈ buffer.sentenceEndings ↔
    buffer.holds (.endOfSentence buffer.id site true) = true
  once : (∀ key, (buffer.parsemeBeginnings.get key).Nodup) ∧
    (∀ wanted, (buffer.partialMatches.get wanted).Nodup) ∧ buffer.sentenceEndings.Nodup
  potentials : ∀ key site, (buffer.notes site).count (.potential key) =
    if buffer.potentials.contains key = true ∧ (site = key.beginningSite ∨ site = key.endSite) then 1
    else 0
  completes : ∀ key site, (buffer.notes site).count (.complete key) =
    if buffer.completes.contains key = true ∧ (site = key.beginningSite ∨ site = key.endSite) then 1
    else 0

/-- What is noted is noted once, where it holds. -/
theorem Noted.count_eq (h : buffer.Noted) (site : Site) (fact : Fact) :
    (buffer.notes site).count fact =
      if buffer.holds fact = true ∧ site ∈ fact.places then 1 else 0 := by
  rw [(h.nodup site).count, if_congr (h.mem site fact) rfl rfl]

/-- A token that is offered is available, and known. -/
theorem exists_offers_iff {key : ParsemeKey} :
    buffer.TokenUnder key site ↔ ∃ handle info, site = .token handle ∧ buffer.info? site = some info ∧
      buffer.holds (.available buffer.id handle) = true ∧ key.FitsToken info := by
  rw [tokenUnder_iff_offers]
  refine exists_congr fun handle => exists_congr fun info => and_congr_right ?_
  rintro rfl
  have hinfo (other : SiteInfo) (hoffers : buffer.Offers handle other) :
      buffer.info? (.token handle) = some other := by
    obtain ⟨markers, negations, hstanding, -⟩ := hoffers
    rw [standing, Option.map_eq_some_iff] at hstanding
    obtain ⟨record, hrecord, heq⟩ := hstanding
    rw [info?, hrecord, Option.map_some, (Prod.mk.inj heq).1]
  rw [holds_available_iff, ParsemeKey.mem_ofToken_iff]
  constructor
  · rintro ⟨hoffers, hfits⟩
    exact ⟨hinfo info hoffers, ⟨info, hoffers⟩, hfits⟩
  · rintro ⟨hknown, ⟨other, hoffers⟩, hfits⟩
    obtain rfl := Option.some.inj ((hinfo other hoffers).symm.trans hknown)
    exact ⟨hoffers, hfits⟩

/-- A buffer in order, with its ends of sentences listed, is coherent. -/
theorem Sound.coherent (h : buffer.Sound grammar) (hended : buffer.Ended) :
    buffer.Coherent grammar := by
  refine ⟨fun key site hkey => ?_, fun name site => ?_, fun wanted key => ?_, fun site => ?_,
    ⟨fun key => PairIndex.nodup_get h.filed.nodup_beginnings key,
      fun wanted => PairIndex.nodup_get h.filed.nodup_partials wanted, hended.nodup⟩,
    fun key site => ?_, fun key site => ?_⟩
  · rw [PairIndex.mem_get, h.filed.mem_beginnings, ← exists_offers_iff]
    refine or_iff_left ?_
    rintro ⟨name, rfl, -⟩
    exact hkey name rfl
  · rw [PairIndex.mem_get, h.filed.mem_beginnings, exists_offers_iff]
    constructor
    · rintro (⟨_, _, -, -, -, hfits⟩ | ⟨other, heq, hmatch⟩)
      · exact hfits.elim
      · exact ParsemeKey.nonterminal.inj heq ▸ hmatch
    · exact fun hmatch => .inr ⟨name, rfl, hmatch⟩
  · rw [PairIndex.mem_get, h.filed.mem_partials, Grammar.mem_needs]
  · rw [hended.mem]
    exact hasFact_iff.symm
  · rw [h.noted.count_eq]
    exact if_congr (and_congr_right fun _ => MatchKey.mem_ends) rfl rfl
  · rw [h.noted.count_eq]
    exact if_congr (and_congr_right fun _ => MatchKey.mem_ends) rfl rfl

end Buffer

/-- All buffers of a chart are coherent. -/
def Chart.Coherent (chart : Chart) : Prop :=
  ∀ buffer ∈ chart.buffers, buffer.Coherent chart.grammar

theorem Chart.Sound.coherent {chart : Chart} (h : chart.Sound) (hended : chart.Ended) :
    chart.Coherent :=
  fun buffer hbuffer => (h.buffers buffer hbuffer).coherent (hended buffer hbuffer)

/-- Phases lead from a chart of a kind to another, by steps of the engine between such charts. -/
structure Through (P : Chart → Prop) (session : Session) (phases : List Phase) : Prop where
  result : P (Phase.runAll session phases).chart
  steps : ∀ step ∈ Phase.stepsAll session phases, P step.before ∧ P step.after

namespace Through

variable {P : Chart → Prop} {session : Session} {phases more : List Phase}

theorem nil (h : P session.chart) : Through P session [] := ⟨h, by simp [Phase.stepsAll]⟩

theorem append (h : Through P session phases)
    (hmore : P (Phase.runAll session phases).chart → Through P (Phase.runAll session phases) more) :
    Through P session (phases ++ more) := by
  have hrest := hmore h.result
  refine ⟨Phase.runAll_append ▸ hrest.result, fun step hstep => ?_⟩
  rw [Phase.stepsAll_append] at hstep
  exact (List.mem_append.1 hstep).elim (h.steps step) (hrest.steps step)

theorem cons {phase : Phase} (h : Through P session [phase])
    (hmore : P (phase.run session).chart → Through P (phase.run session) more) :
    Through P session (phase :: more) :=
  h.append hmore

theorem alter {change : Session → Session} (h : P (change session).chart) :
    Through P session [.alter change] :=
  ⟨h, by simp [Phase.stepsAll, Phase.steps]⟩

/-- What every change of a fact keeps is true at every step of a call. -/
theorem call (hkeeps : ∀ direction chart fact, P chart → P (Engine.change direction chart fact).1)
    (h : P session.chart) (request : Call Fact) : Through P session [.call request] := by
  refine ⟨Call.run_keeps hkeeps session.engine request h, fun step hstep => ?_⟩
  have hall : P (request.run session.engine (⟨session.chart, []⟩ : Traced Chart Fact)).2.store ∧
      ∀ step ∈ (request.run session.engine (⟨session.chart, []⟩ : Traced Chart Fact)).2.steps,
        P step.before ∧ P step.after := by
    refine Call.run_keeps (P := fun traced : Traced Chart Fact => P traced.store ∧
      ∀ step ∈ traced.steps, P step.before ∧ P step.after) (fun direction traced fact hold => ?_)
      session.engine request ⟨h, by simp⟩
    have hnext := hkeeps direction traced.store fact hold.1
    rw [Traced.change_eq]
    exact ⟨hnext, List.forall_mem_cons.2 ⟨⟨hold.1, hnext⟩, hold.2⟩⟩
  simp only [Phase.stepsAll, Phase.steps, List.append_nil, List.mem_reverse] at hstep
  exact hall.2 step hstep

theorem calls (hkeeps : ∀ direction chart fact, P chart → P (Engine.change direction chart fact).1)
    (hcalls : ∀ phase ∈ phases, ∃ request, phase = .call request) (h : P session.chart) :
    Through P session phases := by
  induction phases generalizing session with
  | nil => exact nil h
  | cons phase phases ih =>
    obtain ⟨⟨request, rfl⟩, hrest⟩ := List.forall_mem_cons.1 hcalls
    exact (call hkeeps h request).cons fun hnext => ih hrest hnext

end Through

namespace Session

open Chart

variable {session : Session}

theorem exists_call_of_mem_justify {facts : List Fact} :
    ∀ phase ∈ Phase.justify facts, ∃ request, phase = .call request :=
  fun _ hphase => (List.mem_map.1 hphase).elim fun _ h => ⟨_, h.2.symm⟩

theorem exists_call_of_mem_unjustify {facts : List Fact} :
    ∀ phase ∈ Phase.unjustify facts, ∃ request, phase = .call request :=
  fun _ hphase => (List.mem_map.1 hphase).elim fun _ h => ⟨_, h.2.symm⟩

/-- The calls of a session keep the ends of sentences listed, whatever is called for. -/
theorem through_calls {phases : List Phase}
    (hcalls : ∀ phase ∈ phases, ∃ request, phase = .call request) (h : session.chart.Ended) :
    Through Chart.Ended session phases :=
  Through.calls (fun direction _ fact hended => hended.change direction fact) hcalls h

/-- Retracting productions, exchanging the grammar and making productions true keeps the ends of
sentences listed. -/
theorem through_exchange (h : session.chart.Ended) (before after : List Fact) (grammar : Grammar) :
    Through Chart.Ended session (Phase.unjustify before ++ .alter (·.withGrammar grammar) ::
      Phase.justify after) :=
  (through_calls exists_call_of_mem_unjustify h).append fun h =>
    (Through.alter h).cons fun h => through_calls exists_call_of_mem_justify h

/-- An edit drops records only where no end of a sentence is noted any more. -/
theorem through_edit (hcurrent : session.chart.Current) (h : session.chart.Ended) {buffer : Buffer}
    {edit : Edit} {plan : RelexPlan} (hbuffer : session.chart.buffer? buffer.id = some buffer)
    (hplan : RelexPlan.make buffer.tokens session.vocabulary edit = .ok (some plan)) :
    Through Chart.Ended session (session.editPhases buffer plan) := by
  obtain ⟨restated, grown, changes, hrestate⟩ : ∃ restated grown changes,
    buffer.restate plan session.vocabulary = (restated, grown, changes) := ⟨_, _, _, rfl⟩
  obtain ⟨changed, hchanged, hbare⟩ := factsAt_retract hcurrent hbuffer hplan
  rw [retract_eq hrestate] at hchanged
  rw [hrestate] at hbare
  have hrestated : restated.Ended := by
    obtain rfl : (buffer.restate plan session.vocabulary).1 = restated := congrArg (·.1) hrestate
    exact (h buffer (buffer?_eq_some hbuffer).1).congr rfl rfl fun _ => Iff.rfl
  have hretract : Through Chart.Ended session (retractionPhases restated grown changes) :=
    (Through.alter (h.setBuffer hrestated)).cons fun h => through_calls (by simp) h
  rw [editPhases_eq hrestate]
  refine hretract.append fun h => (Through.alter ?_).cons fun h =>
    (through_calls exists_call_of_mem_justify h).append fun h =>
      through_calls exists_call_of_mem_justify h
  rw [modifyBuffer, hchanged]
  exact h.setBuffer (((h changed (buffer?_eq_some hchanged).1).retire hbare).openSites changes.fresh)

/-- Every operation keeps the ends of sentences listed. -/
theorem through_phases (hcurrent : session.chart.Current) (h : session.chart.Ended)
    (command : Command) : Through Chart.Ended session (session.phases command) := by
  cases command with
  | intern text => exact Through.alter h
  | addProduction production =>
    rw [phases]
    split
    · exact through_exchange h _ _ _
    · exact Through.nil h
  | removeProduction id =>
    rw [phases]
    split
    · exact through_exchange h _ _ _
    · exact Through.nil h
  | introduceBuffer id kind =>
    rw [phases]
    split
    · exact Through.nil h
    · refine (Through.alter fun buffer hbuffer => ?_).cons fun h =>
        through_calls exists_call_of_mem_justify h
      rcases List.mem_append.1 hbuffer with hbuffer | hbuffer
      · exact h buffer hbuffer
      · exact List.mem_singleton.1 hbuffer ▸ Buffer.ended_begun id kind
  | discardBuffer id =>
    rw [phases]
    split
    · exact Through.alter fun buffer hbuffer => h buffer (List.mem_filter.1 hbuffer).1
    · exact Through.nil h
  | setBufferKind id kind =>
    rw [phases]
    cases hbuffer : session.chart.buffer? id with
    | none => exact Through.nil h
    | some buffer => exact Through.alter (h.setBuffer
        ((h buffer (buffer?_eq_some hbuffer).1).congr rfl rfl fun _ => Iff.rfl))
  | edit id lo hi text =>
    simp only [phases]
    cases hbuffer : session.chart.buffer? id with
    | none => exact Through.nil h
    | some buffer =>
      dsimp only
      split
      · exact through_edit hcurrent h ((buffer?_eq_some hbuffer).2 ▸ hbuffer) ‹_›
      · exact Through.nil h
      · exact Through.nil h
  | takeStats => exact Through.alter h

theorem ended_history (hcurrent : session.chart.Current) (h : session.chart.Ended)
    (history : List Command) : (session.performAll history).chart.Ended ∧
      ∀ step ∈ session.steps history, step.before.Ended ∧ step.after.Ended := by
  induction history generalizing session with
  | nil => exact ⟨h, by simp [steps]⟩
  | cons command history ih =>
    have hfirst := through_phases hcurrent h command
    have hnext : (session.perform command).chart.Current :=
      session.perform_eq command ▸ (reaches_phases hcurrent command).result.1
    obtain ⟨hlast, hsteps⟩ := ih hnext (session.perform_eq command ▸ hfirst.result)
    exact ⟨hlast, fun step hstep =>
      (List.mem_append.1 hstep).elim (hfirst.steps step) (hsteps step)⟩

/-- During any history the indices of all buffers are coherent, before and after every step of the engine
and between operations, and then the productions in use are those that are defined, each of them once. -/
theorem performAll_coherent (config : SessionConfig) (history : List Command) :
    let chart := ((new config).performAll history).chart
    (∀ step ∈ (new config).steps history, step.before.Coherent ∧ step.after.Coherent) ∧
      chart.Coherent ∧ chart.active.Nodup ∧
        ∀ id, id ∈ chart.active ↔ (chart.grammar.get? id).isSome = true := by
  intro chart
  have hended : (new config).chart.Ended := fun _ hbuffer => by cases hbuffer
  obtain ⟨hcurrent, hkept⟩ := reaches_history (current_new config) history
  obtain ⟨hlast, hsteps⟩ := ended_history (current_new config) hended history
  have hsound := hcurrent.ordered.sound
  exact ⟨fun step hstep => ⟨(hkept step hstep).before.coherent (hsteps step hstep).1,
      (hkept step hstep).after.coherent (hsteps step hstep).2⟩,
    hsound.coherent hlast, hsound.nodup_active, fun id => ⟨hsound.active id, hcurrent.active id⟩⟩

/-- The word and its full stop are filed, and so is the sentence, which is noted once at each end although
it is counted twice. It is noted from the step on at which the engine finds it. -/
theorem performAll_coherent_wordAndStop :
    let key : MatchKey := ⟨⟨0⟩, ⟨0⟩, 2, ⟨0, 0⟩, ⟨1, 0⟩⟩
    let chart := ((new {}).performAll wordAndStop).chart
    (∃ step ∈ (new {}).steps wordAndStop, step.fact = .complete key ∧ step.changed = true ∧
      step.before.Coherent ∧ step.after.Coherent) ∧
    ∃ buffer ∈ chart.buffers, buffer.Coherent chart.grammar ∧
      buffer.parsemeBeginnings.get .sentenceEnd = [.token ⟨1, 0⟩] ∧
      buffer.parsemeBeginnings.get (.nonterminal ⟨1⟩) = [.token ⟨0, 0⟩] ∧
      buffer.completes.count key = 2 ∧ (buffer.notes key.endSite).count (.complete key) = 1 := by
  intro key chart
  obtain ⟨hsteps, hcoherent, -⟩ := performAll_coherent {} wordAndStop
  constructor
  · have hfound : (((new {}).steps wordAndStop).find? fun step =>
        step.fact = .complete key ∧ step.changed = true).isSome = true := by
      decide +kernel
    obtain ⟨step, hstep⟩ := Option.isSome_iff_exists.1 hfound
    have hgood := List.find?_some hstep
    obtain ⟨hfact, hchanged⟩ := of_decide_eq_true hgood
    have hmem := List.mem_of_find?_eq_some hstep
    exact ⟨step, hmem, hfact, hchanged, hsteps step hmem⟩
  · have hfound : (chart.buffer? ⟨0⟩).any (fun buffer =>
        buffer.parsemeBeginnings.get .sentenceEnd = [.token ⟨1, 0⟩] ∧
          buffer.parsemeBeginnings.get (.nonterminal ⟨1⟩) = [.token ⟨0, 0⟩] ∧
          buffer.completes.count key = 2) = true := by
      decide +kernel
    obtain ⟨buffer, hbuffer, hgood⟩ := (Option.any_eq_true _ _).1 hfound
    obtain ⟨hstop, hname, hcount⟩ := of_decide_eq_true hgood
    have hmem := (buffer?_eq_some hbuffer).1
    have hfiled := hcoherent buffer hmem
    have hheld : buffer.completes.contains key = true := by
      rw [Bank.contains_iff_count_pos, hcount]
      exact Nat.two_pos
    refine ⟨buffer, hmem, hfiled, hstop, hname, hcount, ?_⟩
    rw [hfiled.completes, if_pos ⟨hheld, .inr rfl⟩]

end Session

end LiveProse
