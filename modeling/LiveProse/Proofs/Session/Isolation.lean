import LiveProse.Proofs.Chart.Isolation
import LiveProse.Proofs.Session.Histories

/-! What is done to one buffer is not seen in any other, although they share an engine, the productions in
use and even equal tokens. And a buffer that is dropped leaves no trace: begun again, it is like any other
that begins. -/

namespace LiveProse

namespace Chart

variable {s t : Chart} {id other : BufferId}

theorem Spares.buffer?_eq (h : s.Spares id t) (hne : other ≠ id) : t.buffer? other = s.buffer? other := by
  have hfind (chart : Chart) :
      (chart.buffers.filter (·.id ≠ id)).find? (·.id = other) = chart.buffer? other :=
    (buffer?_filter id other).trans (if_neg hne)
  rw [← hfind t, h.others, hfind s]

end Chart

/-- The buffer that an operation names. -/
def Command.buffer? : Command → Option BufferId
  | introduceBuffer id _ | discardBuffer id | setBufferKind id _ | edit id _ _ _ => some id
  | intern _ | addProduction _ | removeProduction _ | takeStats => none

namespace Phase

open Chart

variable {id : BufferId} {facts : List Fact} {phases : List Phase} {session : Session}

/-- A part of an operation that is about one buffer. -/
def Within (id : BufferId) : Phase → Prop
  | call request => ∀ fact ∈ request.facts, fact.buffer? = some id
  | alter change => ∀ session : Session, session.chart.Spares id (change session).chart

theorem within_justify (h : ∀ fact ∈ facts, fact.buffer? = some id) :
    ∀ phase ∈ justify facts, phase.Within id := by
  intro phase hphase
  obtain ⟨fact, hfact, rfl⟩ := List.mem_map.1 hphase
  exact List.forall_mem_singleton.2 (h fact hfact)

/-- A call that names facts about one buffer spares the others, if its steps are sound. -/
theorem spares_call {request : Call Fact} (h : (call request).Within id)
    (hsound : ∀ step ∈ (call request).steps session, step.after.Sound) :
    session.chart.Spares id ((call request).run session).chart := by
  let traced : Traced Chart Fact := ⟨session.chart, []⟩
  have hspares : Trusted (request.run session.engine traced).2 →
      session.chart.Spares id (request.run session.engine traced).2.store :=
    (confined session.chart id).call session.engine request (fun _ => .refl id session.chart)
      fun fact hfact _ => h fact hfact
  have hrun := Call.run_traced session.engine traced request
  change session.chart.Spares id (request.run session.engine traced.store).2
  rw [hrun]
  exact hspares fun step hstep => hsound step (List.mem_reverse.2 hstep)

theorem spares_runAll (h : ∀ phase ∈ phases, phase.Within id)
    (hsound : ∀ step ∈ stepsAll session phases, step.after.Sound) :
    session.chart.Spares id (runAll session phases).chart := by
  induction phases generalizing session with
  | nil => exact .refl id session.chart
  | cons phase phases ih =>
    obtain ⟨hphase, hphases⟩ := List.forall_mem_cons.1 h
    obtain ⟨hfirst, hrest⟩ := List.forall_mem_append.1 hsound
    refine Spares.trans ?_ (ih hphases hrest)
    cases phase with
    | call request => exact spares_call hphase hfirst
    | alter change => exact hphase session

end Phase

namespace Session

open Chart

variable {session : Session} {id : BufferId} {command : Command}

theorem spares_modifyBuffer (session : Session) (id : BufferId) {change : Buffer → Buffer}
    (hchange : ∀ buffer, (change buffer).id = buffer.id) :
    session.chart.Spares id (session.modifyBuffer id change).chart := by
  unfold modifyBuffer
  cases hbuffer : session.chart.buffer? id with
  | none => exact .refl id session.chart
  | some buffer =>
    exact session.chart.spares_setBuffer ((hchange buffer).trans (buffer?_eq_some hbuffer).2)

theorem within_introduction (id : BufferId) (kind : BufferKind) :
    ∀ phase ∈ introductionPhases id kind, phase.Within id := by
  refine List.forall_mem_cons.2 ⟨fun session => ⟨?_, rfl, rfl⟩, Phase.within_justify (by simp [Fact.buffer?])⟩
  simp [withBuffers, List.filter_append]

/-- What an edit takes back and what it adds is about the buffer that is edited. -/
theorem within_edit (h : session.chart.Current) {buffer : Buffer} {edit : Edit} {plan : RelexPlan}
    (hbuffer : session.chart.buffer? buffer.id = some buffer)
    (hplan : RelexPlan.make buffer.tokens session.vocabulary edit = .ok (some plan)) :
    ∀ phase ∈ session.editPhases buffer plan, phase.Within buffer.id := by
  obtain ⟨restated, grown, changes, front, doomed, inserted, moved, back, hrestate, -, -, R⟩ :=
    (h.placed buffer (buffer?_eq_some hbuffer).1).restates hplan
  have hid : restated.id = buffer.id := R.id_renewed
  have hsound := (h.sound_restated hbuffer R).1
  rw [editPhases_eq hrestate, List.forall_mem_append]
  constructor
  · simp only [retractionPhases, List.forall_mem_cons]
    refine ⟨fun session => ?_, fun fact hfact => ?_, fun fact hfact => ?_, by simp⟩
    · have hspares := session.chart.spares_setBuffer hid
      exact ⟨hspares.others, hspares.grammar, hspares.active⟩
    · exact (hsound.mem_retiredFacts.1 hfact).1.trans (congrArg some hid)
    · obtain ⟨source, target, rfl, -⟩ := hsound.mem_staleEdges.1 hfact
      exact congrArg some hid
  · simp only [relinkingPhases, List.forall_mem_cons, List.forall_mem_append]
    refine ⟨fun session => ?_, Phase.within_justify fun fact hfact => ?_,
      Phase.within_justify fun fact hfact => ?_⟩
    · exact spares_modifyBuffer session buffer.id fun _ => rfl
    · obtain ⟨handle, info, -, rfl | rfl⟩ := mem_freshFacts.1 hfact <;> rfl
    · obtain ⟨⟨source, target⟩, -, rfl⟩ := List.mem_map.1 hfact
      rfl

theorem within_phases (h : session.chart.Current) (hcommand : command.buffer? = some id) :
    ∀ phase ∈ session.phases command, phase.Within id := by
  have hnone : ∀ phase ∈ ([] : List Phase), phase.Within id := by simp
  cases command with
  | introduceBuffer other kind =>
    obtain rfl := Option.some.inj hcommand
    rw [phases]
    split
    · exact hnone
    · exact within_introduction other kind
  | discardBuffer other =>
    obtain rfl := Option.some.inj hcommand
    rw [phases]
    split
    · refine List.forall_mem_singleton.2 fun session => ⟨?_, rfl, rfl⟩
      exact (List.filter_filter ..).trans (by simp)
    · exact hnone
  | setBufferKind other kind =>
    obtain rfl := Option.some.inj hcommand
    rw [phases]
    cases hbuffer : session.chart.buffer? other with
    | none => exact hnone
    | some buffer => exact List.forall_mem_singleton.2 fun session =>
        session.chart.spares_setBuffer (buffer?_eq_some hbuffer).2
  | edit other lo hi text =>
    obtain rfl := Option.some.inj hcommand
    simp only [phases]
    cases hbuffer : session.chart.buffer? other with
    | none => exact hnone
    | some buffer =>
      obtain ⟨-, rfl⟩ := buffer?_eq_some hbuffer
      dsimp only
      split
      · exact within_edit h hbuffer ‹_›
      · exact hnone
      · exact hnone
  | intern | addProduction | removeProduction | takeStats => cases hcommand

/-- An operation on a buffer spares all else. -/
theorem spares_perform (h : session.chart.Current) (hcommand : command.buffer? = some id) :
    session.chart.Spares id (session.perform command).chart := by
  rw [session.perform_eq]
  exact Phase.spares_runAll (within_phases h hcommand) fun step hstep =>
    ((reaches_phases h command).steps step hstep).after

/-- However many operations on a buffer there are, they spare all else. -/
theorem spares_performAll {more : List Command} (h : session.chart.Current)
    (hmore : ∀ command ∈ more, command.buffer? = some id) :
    session.chart.Spares id (session.performAll more).chart := by
  induction more generalizing session with
  | nil => exact .refl id session.chart
  | cons command more ih =>
    obtain ⟨hcommand, hmore⟩ := List.forall_mem_cons.1 hmore
    have hnext : (session.perform command).chart.Current := (reaches_history h [command]).1
    exact (spares_perform h hcommand).trans (ih hnext hmore)

end Session

/-- A buffer without text, with what is noted at its two sentinels. -/
def Buffer.blank (id : BufferId) (kind : BufferKind) (start finish : List Fact) (endings : List Site) :
    Buffer where
  id := id
  kind := kind
  records :=
    [(.start, ⟨.sentinel, { positive := ⟨start⟩ }⟩), (.finish, ⟨.sentinel, { positive := ⟨finish⟩ }⟩)]
  sentenceEndings := endings

/-- A buffer as it begins: one sentinel leads to the other, and both end sentences. -/
def Buffer.pristine (id : BufferId) (kind : BufferKind) : Buffer :=
  .blank id kind [.next id .start .finish, .endOfSentence id .start true]
    [.next id .start .finish, .endOfSentence id .finish true] [.finish, .start]

namespace Chart

/-! ### A buffer that begins -/

variable {chart : Chart} {buffer after : Buffer} {id : BufferId}

/-- A chart without one of its buffers. -/
def withoutBuffer (chart : Chart) (id : BufferId) : Chart :=
  { chart with buffers := chart.buffers.filter (·.id ≠ id) }

theorem buffer?_withoutBuffer (chart : Chart) (id : BufferId) :
    (chart.withoutBuffer id).buffer? id = none :=
  (buffer?_filter id id).trans (if_pos rfl)

/-- A chart with one more buffer. -/
def withLast (chart : Chart) (buffer : Buffer) : Chart :=
  { chart with buffers := chart.buffers ++ [buffer] }

theorem buffer?_withLast (hnone : chart.buffer? buffer.id = none) :
    (chart.withLast buffer).buffer? buffer.id = some buffer :=
  (buffer?_append hnone buffer.id).trans (if_pos rfl)

theorem changeBuffer_withLast {change : Buffer → Buffer × Bool} {changed : Bool}
    (hnone : chart.buffer? buffer.id = none) (hchange : change buffer = (after, changed))
    (hid : after.id = buffer.id) :
    (chart.withLast buffer).changeBuffer buffer.id change = (chart.withLast after, changed) := by
  have hothers : (chart.buffers.map fun other => if other.id = after.id then after else other) =
      chart.buffers := by
    refine (List.map_congr_left fun other hother => if_neg fun heq => ?_).trans (List.map_id _)
    exact of_decide_eq_false (Bool.eq_false_iff.2 (List.find?_eq_none.1 hnone other hother)) (heq.trans hid)
  rw [changeBuffer, buffer?_withLast hnone]
  dsimp only
  rw [hchange]
  refine congrArg (·, changed) (congrArg (fun buffers => { chart with buffers }) ?_)
  change (chart.buffers ++ [buffer]).map _ = _
  rw [List.map_append, hothers, List.map_singleton, if_pos hid.symm]

/-! ### What follows in a buffer without text -/

theorem sentenceEndConsequences_bare {site : Site} (hnext : chart.factsOfClass id site .next = [])
    (hpotential : chart.factsOfClass id site .potential = []) :
    chart.sentenceEndConsequences id site = [] := by
  simp [sentenceEndConsequences, waitingAt, completeSentencesAt, potentialsEndingAt, successors, hnext,
    hpotential]

theorem adjacencyConsequences_finish {site : Site}
    (hpotential : chart.factsOfClass id site .potential = []) :
    chart.adjacencyConsequences id site .finish = [] := by
  simp [adjacencyConsequences, completeSentencesAt, potentialsEndingAt, hpotential]

end Chart

namespace Session

open Chart

variable {session : Session}

theorem chart_justify {s t : Chart} {fact : Fact} (hs : session.chart = s) (h : Engine.Alone s fact t) :
    (session.justify fact).chart = t := by
  subst hs
  exact h.justify session.engine

/-- A buffer begins with two sentinels that lead from one to the other, whatever there is besides. -/
theorem chart_introduceBuffer {id : BufferId} (kind : BufferKind)
    (hnone : session.chart.buffer? id = none) :
    (session.perform (.introduceBuffer id kind)).chart = session.chart.withLast (.pristine id kind) := by
  let start : Fact := .endOfSentence id .start true
  let finish : Fact := .endOfSentence id .finish true
  let blank (first last : List Fact) (endings : List Site) : Chart :=
    session.chart.withLast (.blank id kind first last endings)
  have hfacts (first last : List Fact) (endings : List Site) (site : Site) (wanted : FactClass) :
      (blank first last endings).factsOfClass id site wanted =
        (Buffer.blank id kind first last endings).factsOfClass site wanted :=
    factsOfClass_of_buffer? (buffer?_withLast hnone)
  have hstart : Engine.Alone (blank [] [] []) start (blank [start] [] [.start]) :=
    ⟨changeBuffer_withLast hnone rfl rfl,
      sentenceEndConsequences_bare (hfacts ..) (hfacts ..), fun other hother => by
        obtain rfl := Option.some.inj hother
        exact holds_of_buffer? rfl (buffer?_withLast hnone)⟩
  have hfinish : Engine.Alone (blank [start] [] [.start]) finish
      (blank [start] [finish] [.finish, .start]) :=
    ⟨changeBuffer_withLast hnone rfl rfl,
      sentenceEndConsequences_bare (hfacts ..) (hfacts ..), fun other hother => by
        obtain rfl := Option.some.inj hother
        exact holds_of_buffer? rfl (buffer?_withLast hnone)⟩
  have hedge : Engine.Alone (blank [start] [finish] [.finish, .start]) (.next id .start .finish)
      (session.chart.withLast (.pristine id kind)) :=
    ⟨changeBuffer_withLast hnone rfl rfl, adjacencyConsequences_finish (hfacts ..), fun _ hother => by
      cases hother⟩
  let begun : Session := { session with chart := blank [] [] [] }
  have hfirst : (begun.justify start).chart = blank [start] [] [.start] := chart_justify rfl hstart
  have hsecond : ((begun.justify start).justify finish).chart =
      blank [start] [finish] [.finish, .start] := chart_justify hfirst hfinish
  have hperform : session.perform (.introduceBuffer id kind) =
      ((begun.justify start).justify finish).justify (.next id .start .finish) := by
    rw [perform, introduceBuffer, hnone]
    rfl
  rw [hperform]
  exact chart_justify hsecond hedge

/-- Dropping a buffer leaves the others, whether there was one or not. -/
theorem chart_discardBuffer (session : Session) (id : BufferId) :
    (session.perform (.discardBuffer id)).chart = session.chart.withoutBuffer id := by
  rw [perform, discardBuffer, Session.buffer]
  cases hbuffer : session.chart.buffer? id with
  | some buffer => rfl
  | none =>
    have hothers : session.chart.buffers.filter (·.id ≠ id) = session.chart.buffers :=
      List.filter_eq_self.2 fun buffer hmem => by simpa using List.find?_eq_none.1 hbuffer buffer hmem
    rw [withoutBuffer, hothers]
    rfl

/-- A buffer that is dropped and begun again is like any other that begins. -/
theorem chart_renewed (session : Session) (id : BufferId) (kind : BufferKind) :
    (session.performAll [.discardBuffer id, .introduceBuffer id kind]).chart =
      (session.chart.withoutBuffer id).withLast (.pristine id kind) := by
  have hdiscard := session.chart_discardBuffer id
  have hnone : (session.perform (.discardBuffer id)).chart.buffer? id = none :=
    hdiscard ▸ session.chart.buffer?_withoutBuffer id
  rw [← hdiscard]
  exact chart_introduceBuffer kind hnone

end Session

namespace Chart

/-- What holds is what can be derived, and matches are counted by their derivations that hold. -/
structure Fixpoint (chart : Chart) : Prop where
  holds_iff : ∀ fact, chart.holds fact = true ↔ table.Derivable chart fact
  counts : ∀ buffer ∈ chart.buffers, ∀ key,
    (buffer.potentials.count key : ℕ∞) =
        (if key.buffer = buffer.id then (table.support chart (.potential key)).encard else 0) ∧
      (buffer.completes.count key : ℕ∞) =
        if key.buffer = buffer.id then (table.support chart (.complete key)).encard else 0

theorem Current.fixpoint {chart : Chart} (h : chart.Current) : chart.Fixpoint :=
  ⟨h.ordered.holds_iff_derivable h.settled h.unitOrdered, fun _ hbuffer key => h.counts hbuffer key⟩

theorem Spares.holds_eq {s t : Chart} {id : BufferId} {fact : Fact} (h : s.Spares id t)
    (hfact : fact.buffer? ≠ some id) : t.holds fact = s.holds fact := by
  cases howner : fact.buffer? with
  | none => exact holds_production_congr h.active howner
  | some other =>
    have hne : other ≠ id := fun heq => hfact (howner.trans (congrArg some heq))
    rw [holds_eq_of_buffer? t howner, holds_eq_of_buffer? s howner, h.buffer?_eq hne]

end Chart

namespace Session

open Chart

/-- After any history, operations on one buffer leave every other as it is, with its tokens, its records,
its counts and its indices, and the grammar and the productions in use too. When the buffer is dropped and
begun again, nothing is left of the old one: the new one is like one that begins in any session that has
none of its number, next to the others as they were, and what holds of those is still what can be derived. -/
theorem performAll_isolated (config : SessionConfig) (history : List Command) (id : BufferId) :
    let session := (new config).performAll history
    (∀ more : List Command, (∀ command ∈ more, command.buffer? = some id) →
      session.chart.Spares id (session.performAll more).chart ∧
        ∀ other ≠ id, (session.performAll more).chart.buffer? other = session.chart.buffer? other) ∧
    ∀ kind,
      let renewed := session.performAll [.discardBuffer id, .introduceBuffer id kind]
      renewed.chart = (session.chart.withoutBuffer id).withLast (.pristine id kind) ∧
        (∀ config history, ((new config).performAll history).chart.buffer? id = none →
          ((new config).performAll (history ++ [.introduceBuffer id kind])).chart.buffer? id =
            renewed.chart.buffer? id) ∧
        renewed.chart.Fixpoint ∧
          ∀ fact, fact.buffer? ≠ some id →
            renewed.chart.holds fact = session.chart.holds fact ∧
              (table.Derivable renewed.chart fact ↔ table.Derivable session.chart fact) := by
  intro session
  have hcurrent : session.chart.Current := (reaches_history (current_new config) history).1
  refine ⟨fun more hmore => ?_, fun kind => ?_⟩
  · have hspares := spares_performAll hcurrent hmore
    exact ⟨hspares, fun other hother => hspares.buffer?_eq hother⟩
  intro renewed
  have hrenewed : renewed.chart.Current := (reaches_history hcurrent _).1
  have hchart : renewed.chart = (session.chart.withoutBuffer id).withLast (.pristine id kind) :=
    session.chart_renewed id kind
  have hspares : session.chart.Spares id renewed.chart :=
    spares_performAll hcurrent (by simp [Command.buffer?])
  refine ⟨hchart, fun config history habsent => ?_, hrenewed.fixpoint, fun fact hfact => ?_⟩
  · have hbegun : (new config).performAll (history ++ [.introduceBuffer id kind]) =
        ((new config).performAll history).perform (.introduceBuffer id kind) := List.foldl_append
    rw [hbegun, chart_introduceBuffer kind habsent, hchart]
    exact (buffer?_withLast habsent).trans
      (buffer?_withLast (session.chart.buffer?_withoutBuffer id)).symm
  · have hholds := hspares.holds_eq hfact
    refine ⟨hholds, ?_⟩
    rw [← hrenewed.fixpoint.holds_iff, ← hcurrent.fixpoint.holds_iff, hholds]

/-- The same sentence is typed into two buffers. -/
def twoAlike : List Command :=
  wordAndStop ++ [.introduceBuffer ⟨1⟩ .story, .edit ⟨1⟩ 0 0 ['b'], .edit ⟨1⟩ 1 1 ['.']]

/-- When the text of one is taken away, and when the buffer is begun again, its sentence is gone and the other
sentence stays. -/
theorem performAll_isolated_twoAlike :
    let session := (new {}).performAll twoAlike
    let emptied := session.performAll [.edit ⟨0⟩ 0 2 []]
    let renewed := session.performAll [.discardBuffer ⟨0⟩, .introduceBuffer ⟨0⟩ .story]
    let sentence (id : BufferId) : Fact := .complete ⟨id, ⟨0⟩, 2, ⟨0, 0⟩, ⟨1, 0⟩⟩
    session.chart.holds (sentence ⟨0⟩) = true ∧ session.chart.holds (sentence ⟨1⟩) = true ∧
      emptied.chart.holds (sentence ⟨0⟩) = false ∧
      emptied.chart.buffer? ⟨1⟩ = session.chart.buffer? ⟨1⟩ ∧
      renewed.chart.buffer? ⟨0⟩ = some (.pristine ⟨0⟩ .story) ∧
      renewed.chart.holds (sentence ⟨1⟩) = true := by
  intro session emptied renewed sentence
  obtain ⟨hspares, hrenewed⟩ := performAll_isolated {} twoAlike ⟨0⟩
  obtain ⟨hchart, -, -, hothers⟩ := hrenewed .story
  have hsentence : session.chart.holds (sentence ⟨1⟩) = true := by decide +kernel
  refine ⟨by decide +kernel, hsentence, by decide +kernel, ?_, ?_, ?_⟩
  · exact (hspares [.edit ⟨0⟩ 0 2 []] (by simp [Command.buffer?])).2 ⟨1⟩ (by decide)
  · rw [hchart]
    exact buffer?_withLast (session.chart.buffer?_withoutBuffer ⟨0⟩)
  · exact (hothers (sentence ⟨1⟩) (by simp [sentence, Fact.buffer?])).1.trans hsentence

end Session

end LiveProse
