import LiveProse.Proofs.Session.Texts

/-! Operations that fail change nothing. The operations of a session answer a new session or an error; carried
out in place they would change the session step by step, and an error after some of the steps would leave
their changes behind. Here they are written so (`InPlace`), with every lookup and every exchange where it may
fail, and whatever the operation a run comes out as all or nothing (`Session.settle`): what could fail later
was looked at before the first change. -/

namespace LiveProse

/-- What an operation answers if it does not fail. -/
inductive Reply where
  | done
  | interned (word : Word)
  | added (id : ProductionId)
  | removed (production : Production)
  | discarded (buffer : Buffer)
  | edited (events : List HighlightEvent)
  | counted (stats : DerivationStats)

/-- Work on a session in place. What was done before an error stays done. -/
abbrev InPlace : Type → Type := EStateM SessionError Session

namespace InPlace

/-- Finds something out about the session, or fails. -/
def ask {α : Type} (answer : Session → Except SessionError α) : InPlace α := do
  match answer (← get) with
  | .ok found => return found
  | .error error => throw error

def justifyAll (facts : List Fact) : InPlace Unit :=
  facts.forM fun fact => modify (·.justify fact)

def unjustifyAll (facts : List Fact) : InPlace Unit :=
  facts.forM fun fact => modify (·.unjustify fact)

def addProduction (production : Production) : InPlace Reply := do
  ask fun session => (session.grammar.validate production session.vocabulary).mapError .grammar
  let relying := ((← get).grammar.leftCornerDescendants production).map Fact.production
  unjustifyAll relying
  let (grammar, id) := (← get).grammar.define production
  modify (·.withGrammar grammar)
  modify (·.justify (.production id))
  justifyAll relying
  return .added id

/-- The production is looked up twice: before anything is retracted, and when it is taken out. -/
def removeProduction (id : ProductionId) : InPlace Reply := do
  let relying ← ask fun session => (session.grammar.relyingOn id).mapError .grammar
  unjustifyAll (relying.map .production)
  let (grammar, removed) ← ask fun session => (session.grammar.undefine id).mapError .grammar
  modify (·.withGrammar grammar)
  justifyAll ((relying.filter (· ≠ id)).map .production)
  return .removed removed

def introduceBuffer (id : BufferId) (kind : BufferKind) : InPlace Reply := do
  ask fun session => if (session.chart.buffer? id).isSome then .error (.duplicateBuffer id) else .ok ()
  modify (·.withBuffers (· ++ [({ id, kind } : Buffer)]))
  justifyAll [.endOfSentence id .start true, .endOfSentence id .finish true, .next id .start .finish]
  return .done

/-- The buffer is taken out before it is known to be there. -/
def discardBuffer (id : BufferId) : InPlace Reply := do
  let found := (← get).chart.buffer? id
  modify (·.withBuffers (·.filter (·.id ≠ id)))
  match found with
  | some buffer => return .discarded buffer
  | none => throw (.unknownBuffer id)

def setBufferKind (id : BufferId) (kind : BufferKind) : InPlace Reply := do
  let buffer ← ask (·.buffer id)
  modify fun session => { session with chart := session.chart.setBuffer { buffer with kind } }
  return .done

/-- The buffer is looked up anew when the plan is made, when records are exchanged and when everything has
been derived. -/
def edit (id : BufferId) (lo hi : Nat) (text : Text) : InPlace Reply := do
  let buffer ← ask (·.buffer id)
  let plan? ← ask fun session =>
    (RelexPlan.make buffer.tokens session.vocabulary ⟨lo, hi, text.normalize⟩).mapError .editOutOfRange
  match plan? with
  | none => return .edited []
  | some plan =>
    let buffer ← ask (·.buffer id)
    let (restated, vocabulary, changes) := buffer.restate plan (← get).vocabulary
    modify fun session => { session with
      chart := { session.chart.setBuffer restated with vocabulary } }
    let doomed := changes.retired.flatMap restated.factsAt
    let stale := (changes.kept.flatMap restated.edgesFrom).filter (!changes.edges.contains ·)
    modify (·.forceFalse doomed)
    modify (·.forceFalse (stale.map fun (source, target) => .next id source target))
    modify (·.modifyBuffer id fun buffer => (buffer.retire changes.retired).openSites changes.fresh)
    justifyAll (Session.freshFacts id changes.fresh)
    justifyAll (changes.edges.map fun (source, target) => .next id source target)
    let buffer ← ask (·.buffer id)
    return .edited (rehighlight buffer.tokens changes.outcome (← get).config.support)

/-- Carries an operation out in place. -/
def execute : Command → InPlace Reply
  | .intern text => do
    let (after, word) := (← get).intern text
    set after
    return .interned word
  | .addProduction production => addProduction production
  | .removeProduction id => removeProduction id
  | .introduceBuffer id kind => introduceBuffer id kind
  | .discardBuffer id => discardBuffer id
  | .setBufferKind id kind => setBufferKind id kind
  | .edit id lo hi text => edit id lo hi text
  | .takeStats => do
    let (after, stats) := (← get).takeStats
    set after
    return .counted stats

variable {session : Session} {α : Type} {answer : Session → Except SessionError α}

theorem run_ask_ok {found : α} (h : answer session = .ok found) :
    (ask answer).run session = .ok found session := by
  simp only [ask, EStateM.run_bind, EStateM.run_get, h, EStateM.run_pure]

theorem run_ask_error {error : SessionError} (h : answer session = .error error) :
    (ask answer).run session = .error error session := by
  simp only [ask, EStateM.run_bind, EStateM.run_get, h]
  rfl

theorem run_forM_modify (change : Session → Fact → Session) (session : Session) (facts : List Fact) :
    (facts.forM fun fact => modify (change · fact) : InPlace Unit).run session =
      .ok () (facts.foldl change session) := by
  induction facts generalizing session with
  | nil => rfl
  | cons fact facts ih => exact ih (change session fact)

theorem run_justifyAll (session : Session) (facts : List Fact) :
    (justifyAll facts).run session = .ok () (session.justifyAll facts) :=
  run_forM_modify Session.justify session facts

theorem run_unjustifyAll (session : Session) (facts : List Fact) :
    (unjustifyAll facts).run session = .ok () (session.unjustifyAll facts) :=
  run_forM_modify Session.unjustify session facts

end InPlace

namespace Session

open Chart InPlace

/-- All or nothing: the new session, or the old one with an error. -/
def settle (session : Session) :
    Except SessionError (Session × Reply) → EStateM.Result SessionError Session Reply
  | .ok (after, reply) => .ok reply after
  | .error error => .error error session

/-- What an operation answers. -/
def attempt (session : Session) : Command → Except SessionError (Session × Reply)
  | .intern text => .ok ((session.intern text).1, .interned (session.intern text).2)
  | .addProduction production =>
    ((session.addProduction production).mapError .grammar).map fun (after, id) => (after, .added id)
  | .removeProduction id =>
    ((session.removeProduction id).mapError .grammar).map fun (after, removed) =>
      (after, .removed removed)
  | .introduceBuffer id kind => (session.introduceBuffer id kind).map fun after => (after, .done)
  | .discardBuffer id =>
    (session.discardBuffer id).map fun (after, buffer) => (after, .discarded buffer)
  | .setBufferKind id kind => (session.setBufferKind id kind).map fun after => (after, .done)
  | .edit id lo hi text =>
    (session.edit id lo hi text).map fun (after, events) => (after, .edited events)
  | .takeStats => .ok (session.takeStats.1, .counted session.takeStats.2)

/-- Why an operation is refused, as far as the session tells before it begins. -/
def refusal? (session : Session) : Command → Option SessionError
  | .addProduction production =>
    match session.grammar.validate production session.vocabulary with
    | .ok () => none
    | .error error => some (.grammar error)
  | .removeProduction id =>
    if (session.grammar.get? id).isSome then none else some (.grammar (.unknownProduction id))
  | .introduceBuffer id _ =>
    if (session.chart.buffer? id).isSome then some (.duplicateBuffer id) else none
  | .discardBuffer id | .setBufferKind id _ =>
    if (session.chart.buffer? id).isSome then none else some (.unknownBuffer id)
  | .edit id lo hi _ =>
    match session.chart.buffer? id with
    | none => some (.unknownBuffer id)
    | some buffer =>
      if lo ≤ hi ∧ hi ≤ buffer.length then none
      else some (.editOutOfRange ⟨lo, hi, buffer.length⟩)
  | .intern _ | .takeStats => none

/-- An operation that is refused changes nothing, and one that is not is carried out to its end. -/
inductive Settles (session : Session) (command : Command) : Prop
  | refused {error : SessionError} (hrefusal : session.refusal? command = some error)
      (hattempt : session.attempt command = .error error)
      (hrun : (execute command).run session = .error error session)
  | done {after : Session} {reply : Reply} (hrefusal : session.refusal? command = none)
      (hattempt : session.attempt command = .ok (after, reply))
      (hrun : (execute command).run session = .ok reply after)

variable {session : Session}

theorem settles_addProduction (session : Session) (production : Production) :
    session.Settles (.addProduction production) := by
  cases hvalid : session.grammar.validate production session.vocabulary with
  | error error =>
    have hrefusal : session.refusal? (.addProduction production) = some (.grammar error) := by
      simp only [refusal?, hvalid]
    refine .refused hrefusal ?_ ?_
    · simp only [attempt, Session.addProduction, hvalid]
      rfl
    · simp only [execute, InPlace.addProduction, EStateM.run_bind]
      rw [run_ask_error (by rw [hvalid]; rfl)]
  | ok done =>
    have hrefusal : session.refusal? (.addProduction production) = none := by
      simp only [refusal?, hvalid]
    refine .done hrefusal (by simp only [attempt, Session.addProduction, hvalid]; rfl) ?_
    simp only [execute, InPlace.addProduction, EStateM.run_bind]
    rw [run_ask_ok (by rw [hvalid]; rfl)]
    simp only [EStateM.run_get, EStateM.run_modify, EStateM.run_pure, run_justifyAll, run_unjustifyAll]
    rfl

/-- Nothing that is retracted takes the production out of the grammar. -/
theorem settles_removeProduction (session : Session) (id : ProductionId) :
    session.Settles (.removeProduction id) := by
  cases hget : session.grammar.get? id with
  | none =>
    have hrelying : session.grammar.relyingOn id = .error (.unknownProduction id) := by
      rw [Grammar.relyingOn, hget]
    have hrefusal : session.refusal? (.removeProduction id) =
        some (.grammar (.unknownProduction id)) := by
      simp only [refusal?, hget]
      rfl
    refine .refused hrefusal ?_ ?_
    · simp only [attempt, Session.removeProduction, hrelying]
      rfl
    · simp only [execute, InPlace.removeProduction, EStateM.run_bind]
      rw [run_ask_error (by rw [hrelying]; rfl)]
  | some production =>
    obtain ⟨relying, hrelying⟩ : ∃ relying, session.grammar.relyingOn id = .ok relying := by
      rw [Grammar.relyingOn, hget]
      exact ⟨_, rfl⟩
    have hundefine : (session.unjustifyAll (relying.map .production)).grammar.undefine id =
        .ok ((session.grammar.without id production).rebuild, production) := by
      rw [grammar_unjustifyAll, Grammar.undefine_eq hget]
    have hrefusal : session.refusal? (.removeProduction id) = none := by
      simp only [refusal?, hget]
      rfl
    have hattempt : session.attempt (.removeProduction id) =
        .ok (((session.unjustifyAll (relying.map .production)).withGrammar
          (session.grammar.without id production).rebuild).justifyAll
            ((relying.filter (· ≠ id)).map .production), .removed production) := by
      simp only [attempt, Session.removeProduction, hrelying]
      dsimp only [bind, Except.bind]
      rw [hundefine]
      rfl
    refine .done hrefusal hattempt ?_
    simp only [execute, InPlace.removeProduction, EStateM.run_bind]
    rw [run_ask_ok (by rw [hrelying]; rfl)]
    dsimp only
    rw [run_unjustifyAll]
    dsimp only
    rw [run_ask_ok (by rw [hundefine]; rfl)]
    simp only [EStateM.run_modify, EStateM.run_pure, run_justifyAll]

theorem settles_introduceBuffer (session : Session) (id : BufferId) (kind : BufferKind) :
    session.Settles (.introduceBuffer id kind) := by
  cases hbuffer : session.chart.buffer? id with
  | some buffer =>
    have hrefusal : session.refusal? (.introduceBuffer id kind) = some (.duplicateBuffer id) := by
      simp only [refusal?, hbuffer]
      rfl
    refine .refused hrefusal ?_ ?_
    · simp only [attempt, Session.introduceBuffer, hbuffer]
      rfl
    · simp only [execute, InPlace.introduceBuffer, EStateM.run_bind]
      rw [run_ask_error (by rw [hbuffer]; rfl)]
  | none =>
    have hrefusal : session.refusal? (.introduceBuffer id kind) = none := by
      simp only [refusal?, hbuffer]
      rfl
    refine .done hrefusal (by simp only [attempt, Session.introduceBuffer, hbuffer]; rfl) ?_
    simp only [execute, InPlace.introduceBuffer, EStateM.run_bind]
    rw [run_ask_ok (by rw [hbuffer]; rfl)]
    simp only [EStateM.run_modify, EStateM.run_pure, run_justifyAll]
    rfl

/-- Taking out a buffer that is not there leaves the others. -/
theorem withBuffers_filter_of_none {id : BufferId} (hbuffer : session.chart.buffer? id = none) :
    session.withBuffers (·.filter (·.id ≠ id)) = session := by
  have hall : session.chart.buffers.filter (·.id ≠ id) = session.chart.buffers := by
    rw [List.filter_eq_self]
    intro buffer hmem
    have hnot := List.find?_eq_none.1 hbuffer buffer hmem
    simpa using hnot
  rw [withBuffers, hall]

theorem settles_discardBuffer (session : Session) (id : BufferId) :
    session.Settles (.discardBuffer id) := by
  cases hbuffer : session.chart.buffer? id with
  | none =>
    have hrefusal : session.refusal? (.discardBuffer id) = some (.unknownBuffer id) := by
      simp only [refusal?, hbuffer]
      rfl
    refine .refused hrefusal ?_ ?_
    · simp only [attempt, Session.discardBuffer, Session.buffer, hbuffer]
      rfl
    · simp only [execute, InPlace.discardBuffer, EStateM.run_bind, EStateM.run_get, EStateM.run_modify,
        hbuffer]
      rw [withBuffers_filter_of_none hbuffer]
      rfl
  | some buffer =>
    have hrefusal : session.refusal? (.discardBuffer id) = none := by
      simp only [refusal?, hbuffer]
      rfl
    refine .done hrefusal (by simp only [attempt, Session.discardBuffer, Session.buffer, hbuffer]; rfl) ?_
    simp only [execute, InPlace.discardBuffer, EStateM.run_bind, EStateM.run_get, EStateM.run_modify,
      hbuffer]
    rfl

theorem settles_setBufferKind (session : Session) (id : BufferId) (kind : BufferKind) :
    session.Settles (.setBufferKind id kind) := by
  cases hbuffer : session.chart.buffer? id with
  | none =>
    have hrefusal : session.refusal? (.setBufferKind id kind) = some (.unknownBuffer id) := by
      simp only [refusal?, hbuffer]
      rfl
    refine .refused hrefusal ?_ ?_
    · simp only [attempt, Session.setBufferKind, Session.buffer, hbuffer]
      rfl
    · simp only [execute, InPlace.setBufferKind, EStateM.run_bind]
      rw [run_ask_error (by rw [Session.buffer, hbuffer])]
  | some buffer =>
    have hrefusal : session.refusal? (.setBufferKind id kind) = none := by
      simp only [refusal?, hbuffer]
      rfl
    refine .done hrefusal (by simp only [attempt, Session.setBufferKind, Session.buffer, hbuffer]; rfl) ?_
    simp only [execute, InPlace.setBufferKind, EStateM.run_bind]
    rw [run_ask_ok (by rw [Session.buffer, hbuffer])]
    rfl

/-! ### Edits -/

section Edits

variable {id : BufferId} {buffer : Buffer} {lo hi : Nat} {text : Text}

/-- An edit is refused exactly if its range does not fit. -/
theorem make_eq_error_iff {tokens : TokenSequence} {vocabulary : Vocabulary} {edit : Edit}
    {error : EditOutOfRange} : RelexPlan.make tokens vocabulary edit = .error error ↔
      ¬(edit.lo ≤ edit.hi ∧ edit.hi ≤ tokens.total.codepoints) ∧
        error = ⟨edit.lo, edit.hi, tokens.total.codepoints⟩ := by
  have hrange : edit.hi < edit.lo ∨ tokens.total.codepoints < edit.hi ↔
      ¬(edit.lo ≤ edit.hi ∧ edit.hi ≤ tokens.total.codepoints) := by omega
  unfold RelexPlan.make
  dsimp only
  rw [← hrange]
  split_ifs with hfits
  · simp [hfits, eq_comm]
  · simp [hfits]
  · simp [hfits]

/-- An edit that is planned is carried out and answers what changes in the highlights of the new tokens. -/
theorem edit_of_plan (hbuffer : session.chart.buffer? id = some buffer) {plan : RelexPlan}
    (hplan : RelexPlan.make buffer.tokens session.vocabulary ⟨lo, hi, text.normalize⟩ =
      .ok (some plan)) :
    let after := Phase.runAll session (session.editPhases buffer plan)
    let (restated, _, changes) := buffer.restate plan session.vocabulary
    session.edit id lo hi text =
      .ok (after, rehighlight restated.tokens changes.outcome after.config.support) := by
  obtain rfl := (buffer?_eq_some hbuffer).2
  simp only [edit, Session.buffer, hbuffer]
  dsimp only [bind, Except.bind]
  rw [hplan]
  dsimp only [Except.mapError, editPhases]
  simp only [Phase.runAll_cons]
  rw [Phase.runAll_append, Phase.runAll_justify, Phase.runAll_justify]
  rfl

/-- Carried out in place, an edit comes to the same session, and looks its buffer up there. -/
theorem run_edit (hbuffer : session.chart.buffer? id = some buffer) {plan : RelexPlan}
    (hplan : RelexPlan.make buffer.tokens session.vocabulary ⟨lo, hi, text.normalize⟩ =
      .ok (some plan)) {last : Buffer}
    (hlast : (Phase.runAll session (session.editPhases buffer plan)).buffer id = .ok last) :
    let after := Phase.runAll session (session.editPhases buffer plan)
    let (_, _, changes) := buffer.restate plan session.vocabulary
    (execute (.edit id lo hi text)).run session =
      .ok (.edited (rehighlight last.tokens changes.outcome after.config.support)) after := by
  have hfound : session.buffer id = .ok buffer := by rw [Session.buffer, hbuffer]
  obtain rfl := (buffer?_eq_some hbuffer).2
  simp only [execute, InPlace.edit, EStateM.run_bind]
  rw [run_ask_ok hfound]
  dsimp only
  rw [run_ask_ok (by rw [hplan]; rfl)]
  dsimp only
  rw [EStateM.run_bind, run_ask_ok hfound]
  simp only [EStateM.run_bind, EStateM.run_get, EStateM.run_modify, run_justifyAll]
  rw [editPhases] at hlast ⊢
  simp only [Phase.runAll_cons, Phase.runAll_append, Phase.runAll_justify] at hlast ⊢
  rw [run_ask_ok hlast]
  rfl

theorem settles_edit (h : session.chart.Current) (id : BufferId) (lo hi : Nat) (text : Text) :
    session.Settles (.edit id lo hi text) := by
  cases hbuffer : session.chart.buffer? id with
  | none =>
    have hrefusal : session.refusal? (.edit id lo hi text) = some (.unknownBuffer id) := by
      simp only [refusal?, hbuffer]
    refine .refused hrefusal ?_ ?_
    · rw [attempt, edit_of_absent hbuffer]
      rfl
    · simp only [execute, InPlace.edit, EStateM.run_bind]
      rw [run_ask_error (by rw [Session.buffer, hbuffer])]
  | some buffer =>
    have hfound : session.buffer id = .ok buffer := by rw [Session.buffer, hbuffer]
    cases hplan : RelexPlan.make buffer.tokens session.vocabulary ⟨lo, hi, text.normalize⟩ with
    | error error =>
      obtain ⟨hfits, rfl⟩ := make_eq_error_iff.1 hplan
      have hrefusal : session.refusal? (.edit id lo hi text) =
          some (.editOutOfRange ⟨lo, hi, buffer.length⟩) := by
        simp only [refusal?, hbuffer]
        exact if_neg hfits
      refine .refused hrefusal ?_ ?_
      · rw [attempt, edit_of_error hbuffer hplan]
        rfl
      · simp only [execute, InPlace.edit, EStateM.run_bind]
        rw [run_ask_ok hfound]
        dsimp only
        rw [run_ask_error (by rw [hplan]; rfl)]
        rfl
    | ok plan? =>
      have hfits : lo ≤ hi ∧ hi ≤ buffer.length := by
        by_contra hfits
        rw [make_eq_error_iff.2 ⟨hfits, rfl⟩] at hplan
        cases hplan
      have hrefusal : session.refusal? (.edit id lo hi text) = none := by
        simp only [refusal?, hbuffer]
        exact if_pos hfits
      cases plan? with
      | none =>
        refine .done hrefusal (by rw [attempt, edit_of_none hbuffer hplan]; rfl) ?_
        simp only [execute, InPlace.edit, EStateM.run_bind]
        rw [run_ask_ok hfound]
        dsimp only
        rw [run_ask_ok (by rw [hplan]; rfl)]
        rfl
      | some plan =>
        obtain ⟨hmem, rfl⟩ := buffer?_eq_some hbuffer
        obtain ⟨restated, grown, changes, front, doomed, inserted, moved, back, hrestate, -, -, R⟩ :=
          (h.placed buffer hmem).restates hplan
        have hskeleton := (reaches_edit h hbuffer hrestate R).result.2
        obtain ⟨last, hlast, heq⟩ := exists_buffer?_of_skeleton (congrArg (·.2.2) hskeleton)
          (buffer?_retokened grown R.id_renewed hbuffer)
        have htokens : last.tokens = restated.tokens := (congrArg (·.2.2.1) heq).symm
        have hedit := edit_of_plan hbuffer hplan
        have hrun := run_edit hbuffer hplan (by rw [Session.buffer, hlast])
        simp only [hrestate] at hedit hrun
        rw [htokens] at hrun
        exact .done hrefusal (by rw [attempt, hedit]; rfl) hrun

end Edits

/-! ### Buffers that stay -/

section Presence

variable {phases : List Phase}

theorem map_id_change (direction : Direction) (chart : Chart) (fact : Fact) :
    (Engine.change direction chart fact).1.buffers.map (·.id) = chart.buffers.map (·.id) := by
  rcases change_cases direction chart fact with ⟨active, h⟩ | ⟨buffer, h⟩
  · rw [h]
  · rw [h, map_id_setBuffer]

theorem map_id_call (session : Session) (request : Call Fact) :
    (Phase.run session (.call request)).chart.buffers.map (·.id) = session.chart.buffers.map (·.id) :=
  Call.run_keeps
    (P := fun chart : Chart => chart.buffers.map (·.id) = session.chart.buffers.map (·.id))
    (fun direction chart fact h => (map_id_change direction chart fact).trans h) session.engine request rfl

theorem map_id_modifyBuffer (session : Session) (id : BufferId) (change : Buffer → Buffer) :
    (session.modifyBuffer id change).chart.buffers.map (·.id) = session.chart.buffers.map (·.id) := by
  unfold modifyBuffer
  split
  · exact map_id_setBuffer ..
  · rfl

/-- No part of an edit begins or drops a buffer. -/
theorem map_id_of_mem_editPhases {buffer : Buffer} {plan : RelexPlan} {phase : Phase}
    (hphase : phase ∈ session.editPhases buffer plan) (during : Session) :
    (phase.run during).chart.buffers.map (·.id) = during.chart.buffers.map (·.id) := by
  have hcalls {facts : List Fact} (hphase : phase ∈ Phase.justify facts) :
      (phase.run during).chart.buffers.map (·.id) = during.chart.buffers.map (·.id) := by
    obtain ⟨fact, -, rfl⟩ := List.mem_map.1 hphase
    exact map_id_call during _
  simp only [editPhases, List.mem_cons, List.mem_append] at hphase
  rcases hphase with rfl | rfl | rfl | rfl | hphase | hphase
  · exact map_id_setBuffer ..
  · exact map_id_call during _
  · exact map_id_call during _
  · exact map_id_modifyBuffer ..
  · exact hcalls hphase
  · exact hcalls hphase

/-- A buffer that is edited is there at every moment of the edit. -/
theorem isSome_buffer?_edit {id : BufferId} (hid : (session.chart.buffer? id).isSome = true)
    {lo hi : Nat} {text : Text} {front : List Phase}
    (hfront : front <+: session.phases (.edit id lo hi text)) :
    ((Phase.runAll session front).chart.buffer? id).isSome = true := by
  have hkeeps : ∀ phase ∈ front, ∀ during : Session,
      (phase.run during).chart.buffers.map (·.id) = during.chart.buffers.map (·.id) := by
    intro phase hphase
    have hmem := hfront.subset hphase
    simp only [phases] at hmem
    split at hmem
    · split at hmem
      · exact map_id_of_mem_editPhases hmem
      · cases hmem
      · cases hmem
    · cases hmem
  clear hfront
  have hmem (chart : Chart) : (chart.buffer? id).isSome = true ↔ id ∈ chart.buffers.map (·.id) := by
    simp [buffer?]
  rw [hmem] at hid ⊢
  induction front generalizing session with
  | nil => exact hid
  | cons phase front ih =>
    obtain ⟨hphase, hfront⟩ := List.forall_mem_cons.1 hkeeps
    exact ih (hphase session ▸ hid) hfront

end Presence

/-- After any history an operation, carried out in place with everything that may fail where it may fail,
either answers an error and leaves the whole session as it was, or comes to the session and the reply that are
answered for it. It fails exactly if something is wrong that the session tells before the first change; so
the lookups that come later do not fail, and at every moment of an edit the buffer is there. -/
theorem performAll_atomic (config : SessionConfig) (history : List Command) (command : Command) :
    let session := (new config).performAll history
    (execute command).run session = session.settle (session.attempt command) ∧
    (∀ error after, (execute command).run session = .error error after →
      after = session ∧ session.refusal? command = some error) ∧
    (∀ error, session.refusal? command = some error →
      (execute command).run session = .error error session) ∧
    ∀ id lo hi text front, command = .edit id lo hi text → (session.chart.buffer? id).isSome = true →
      front <+: session.phases command →
      ((Phase.runAll session front).chart.buffer? id).isSome = true := by
  intro session
  have hcurrent : session.chart.Current := (reaches_history (current_new config) history).1
  have hsettles : session.Settles command := by
    cases command with
    | intern text => exact .done rfl rfl rfl
    | addProduction production => exact session.settles_addProduction production
    | removeProduction id => exact session.settles_removeProduction id
    | introduceBuffer id kind => exact session.settles_introduceBuffer id kind
    | discardBuffer id => exact session.settles_discardBuffer id
    | setBufferKind id kind => exact session.settles_setBufferKind id kind
    | edit id lo hi text => exact settles_edit hcurrent id lo hi text
    | takeStats => exact .done rfl rfl rfl
  refine ⟨?_, ?_, ?_, ?_⟩
  · cases hsettles with
    | refused hrefusal hattempt hrun => rw [hattempt, hrun, settle]
    | done hrefusal hattempt hrun => rw [hattempt, hrun, settle]
  · intro error after herror
    cases hsettles with
    | refused hrefusal hattempt hrun =>
      rw [hrun] at herror
      cases herror
      exact ⟨rfl, hrefusal⟩
    | done hrefusal hattempt hrun =>
      rw [hrun] at herror
      cases herror
  · intro error hrefused
    cases hsettles with
    | refused hrefusal hattempt hrun =>
      rw [hrefusal] at hrefused
      cases hrefused
      exact hrun
    | done hrefusal hattempt hrun =>
      rw [hrefusal] at hrefused
      cases hrefused
  · rintro id lo hi text front rfl hid hfront
    exact isSome_buffer?_edit hid hfront

end Session

end LiveProse
