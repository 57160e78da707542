import LiveProse.Session
import LiveProse.Proofs.Chart.Agreement
import LiveProse.Proofs.Deduction.Confinement
import LiveProse.Proofs.Deduction.Exactness

/-! What a session does, as a row of phases: calls of its engine, and changes of its chart that go past
the engine. Every operation is such a row (`Session.perform_eq`), so the engine's steps during a history
can be told. -/

namespace LiveProse

/-- An operation on a session. -/
inductive Command where
  | intern (text : Text)
  | addProduction (production : Production)
  | removeProduction (id : ProductionId)
  | introduceBuffer (id : BufferId) (kind : BufferKind)
  | discardBuffer (id : BufferId)
  | setBufferKind (id : BufferId) (kind : BufferKind)
  | edit (id : BufferId) (lo hi : Nat) (text : Text)
  | takeStats

/-- A part of an operation. -/
inductive Phase where
  | call (request : Call Fact)
  /-- A change that the engine does not see. -/
  | alter (change : Session → Session)

namespace Phase

def run (session : Session) : Phase → Session
  | call request =>
    let (engine, chart) := request.run session.engine session.chart
    { session with engine, chart }
  | alter change => change session

/-- The steps that the engine takes in a phase, in order. -/
def steps (session : Session) : Phase → List (Step Chart Fact)
  | call request => (Call.steps session.engine session.chart [request]).reverse
  | alter _ => []

/-- Phases in order. -/
def runAll (session : Session) (phases : List Phase) : Session :=
  phases.foldl run session

/-- The steps that the engine takes in a row of phases. -/
def stepsAll (session : Session) : List Phase → List (Step Chart Fact)
  | [] => []
  | phase :: phases => phase.steps session ++ stepsAll (phase.run session) phases

/-- Facts made true one after another. -/
def justify (facts : List Fact) : List Phase :=
  facts.map fun fact => .call (.justify fact)

/-- Facts made false one after another. -/
def unjustify (facts : List Fact) : List Phase :=
  facts.map fun fact => .call (.unjustify fact)

variable {session : Session} {phases more : List Phase}

theorem runAll_cons (phase : Phase) :
    runAll session (phase :: phases) = runAll (phase.run session) phases := rfl

theorem runAll_append : runAll session (phases ++ more) = runAll (runAll session phases) more :=
  List.foldl_append

theorem stepsAll_append :
    stepsAll session (phases ++ more) =
      stepsAll session phases ++ stepsAll (runAll session phases) more := by
  induction phases generalizing session with
  | nil => rfl
  | cons phase phases ih =>
    rw [List.cons_append, stepsAll, stepsAll, ih, List.append_assoc]
    rfl

theorem runAll_justify (session : Session) (facts : List Fact) :
    runAll session (justify facts) = session.justifyAll facts := by
  unfold justify runAll Session.justifyAll
  rw [List.foldl_map]
  rfl

theorem runAll_unjustify (session : Session) (facts : List Fact) :
    runAll session (unjustify facts) = session.unjustifyAll facts := by
  unfold unjustify runAll Session.unjustifyAll
  rw [List.foldl_map]
  rfl

end Phase

/-! ### What the engine leaves alone -/

namespace Call

variable {σ φ : Type} [Deductive σ φ]

/-- A step is a change of its fact in its direction. -/
theorem change_of_mem_steps (engine : Engine) (s : σ) (call : Call φ) :
    ∀ step ∈ Call.steps engine s [call],
      Engine.change step.direction step.before step.fact = (step.after, step.changed) :=
  run_keeps (P := fun traced : Traced σ φ => ∀ step ∈ traced.steps,
      Engine.change step.direction step.before step.fact = (step.after, step.changed))
    (fun direction traced fact h => by
      rw [Traced.change_eq]
      exact List.forall_mem_cons.2 ⟨rfl, h⟩) engine call (by simp)

end Call

namespace Chart

/-- A change of a fact is a change of one buffer, or of the productions in use. -/
theorem change_cases (direction : Direction) (chart : Chart) (fact : Fact) :
    (∃ active, (Engine.change direction chart fact).1 = { chart with active }) ∨
      ∃ buffer, (Engine.change direction chart fact).1 = chart.setBuffer buffer := by
  have hchange (id : BufferId) (change : Buffer → Buffer × Bool) :
      (∃ active, (chart.changeBuffer id change).1 = { chart with active }) ∨
        ∃ buffer, (chart.changeBuffer id change).1 = chart.setBuffer buffer := by
    unfold changeBuffer
    split
    · exact .inr ⟨_, rfl⟩
    · exact .inl ⟨chart.active, rfl⟩
  cases direction with
  | justify =>
    change (∃ active, (chart.justify fact).1 = { chart with active }) ∨
      ∃ buffer, (chart.justify fact).1 = chart.setBuffer buffer
    unfold justify
    split <;> try exact hchange ..
    · exact .inl ⟨_, rfl⟩
    · split
      · exact hchange ..
      · exact .inl ⟨chart.active, rfl⟩
  | unjustify =>
    change (∃ active, (chart.unjustify fact).1 = { chart with active }) ∨
      ∃ buffer, (chart.unjustify fact).1 = chart.setBuffer buffer
    unfold unjustify
    split <;> first | exact hchange .. | exact .inl ⟨_, rfl⟩

theorem grammar_change (direction : Direction) (chart : Chart) (fact : Fact) :
    (Engine.change direction chart fact).1.grammar = chart.grammar := by
  rcases change_cases direction chart fact with ⟨active, h⟩ | ⟨buffer, h⟩
  · rw [h]
  · rw [h]
    rfl

end Chart

namespace Session

variable {session : Session}

theorem grammar_call (session : Session) (request : Call Fact) :
    (Phase.run session (.call request)).grammar = session.grammar :=
  Call.run_keeps (P := fun chart : Chart => chart.grammar = session.grammar)
    (fun direction chart fact h => (chart.grammar_change direction fact).trans h) session.engine
    request rfl

theorem grammar_unjustifyAll (session : Session) (facts : List Fact) :
    (session.unjustifyAll facts).grammar = session.grammar := by
  unfold unjustifyAll
  induction facts generalizing session with
  | nil => rfl
  | cons fact facts ih => exact (ih _).trans (session.grammar_call (.unjustify fact))

/-! ### Operations -/

/-- The session that an operation answers, or the old one if it fails. -/
def orKeep {ε α : Type} (session : Session) (answer : Except ε α) (after : α → Session) : Session :=
  match answer with
  | .ok a => after a
  | .error _ => session

/-- A session after an operation. -/
def perform (session : Session) : Command → Session
  | .intern text => (session.intern text).1
  | .addProduction production => session.orKeep (session.addProduction production) (·.1)
  | .removeProduction id => session.orKeep (session.removeProduction id) (·.1)
  | .introduceBuffer id kind => session.orKeep (session.introduceBuffer id kind) fun after => after
  | .discardBuffer id => session.orKeep (session.discardBuffer id) (·.1)
  | .setBufferKind id kind => session.orKeep (session.setBufferKind id kind) fun after => after
  | .edit id lo hi text => session.orKeep (session.edit id lo hi text) (·.1)
  | .takeStats => session.takeStats.1

/-- A session after a history of operations. -/
def performAll (session : Session) (history : List Command) : Session :=
  history.foldl perform session

def withGrammar (session : Session) (grammar : Grammar) : Session :=
  { session with chart := { session.chart with grammar } }

def withBuffers (session : Session) (change : List Buffer → List Buffer) : Session :=
  { session with chart := { session.chart with buffers := change session.chart.buffers } }

/-- What adding a production comes to. -/
def additionPhases (session : Session) (production : Production) : List Phase :=
  let relying := (session.grammar.leftCornerDescendants production).map Fact.production
  let (grammar, id) := session.grammar.define production
  Phase.unjustify relying ++ .alter (·.withGrammar grammar) ::
    Phase.justify (.production id :: relying)

/-- What removing a production comes to. -/
def removalPhases (session : Session) (id : ProductionId) (production : Production) : List Phase :=
  let relying := ProductionId.sorted (id :: session.grammar.leftCornerDescendants production)
  Phase.unjustify (relying.map .production) ++
    .alter (·.withGrammar (session.grammar.without id production).rebuild) ::
    Phase.justify ((relying.filter (· ≠ id)).map .production)

/-- What beginning a buffer comes to. -/
def introductionPhases (id : BufferId) (kind : BufferKind) : List Phase :=
  .alter (·.withBuffers (· ++ [({ id, kind } : Buffer)])) ::
    Phase.justify
      [.endOfSentence id .start true, .endOfSentence id .finish true, .next id .start .finish]

/-- What carrying a plan out in a buffer comes to. -/
def editPhases (session : Session) (buffer : Buffer) (plan : RelexPlan) : List Phase :=
  let (restated, vocabulary, changes) := buffer.restate plan session.vocabulary
  let stale := (changes.kept.flatMap restated.edgesFrom).filter (!changes.edges.contains ·)
  .alter (fun session =>
      { session with chart := { session.chart.setBuffer restated with vocabulary } }) ::
    .call (.forceFalse (changes.retired.flatMap restated.factsAt)) ::
    .call (.forceFalse (stale.map fun (source, target) => .next buffer.id source target)) ::
    .alter (·.modifyBuffer buffer.id fun buffer =>
      (buffer.retire changes.retired).openSites changes.fresh) ::
    (Phase.justify (freshFacts buffer.id changes.fresh) ++
      Phase.justify (changes.edges.map fun (source, target) => .next buffer.id source target))

/-- The phases of an operation. One that fails has none. -/
def phases (session : Session) : Command → List Phase
  | .intern text => [.alter fun session => (session.intern text).1]
  | .addProduction production =>
    match session.grammar.validate production session.vocabulary with
    | .ok () => session.additionPhases production
    | .error _ => []
  | .removeProduction id =>
    match session.grammar.get? id with
    | some production => session.removalPhases id production
    | none => []
  | .introduceBuffer id kind =>
    match session.chart.buffer? id with
    | some _ => []
    | none => introductionPhases id kind
  | .discardBuffer id =>
    match session.chart.buffer? id with
    | some _ => [.alter (·.withBuffers (·.filter (·.id ≠ id)))]
    | none => []
  | .setBufferKind id kind =>
    match session.chart.buffer? id with
    | some buffer =>
      [.alter fun session => { session with chart := session.chart.setBuffer { buffer with kind } }]
    | none => []
  | .edit id lo hi text =>
    match session.chart.buffer? id with
    | some buffer =>
      match RelexPlan.make buffer.tokens session.vocabulary ⟨lo, hi, text.normalize⟩ with
      | .ok (some plan) => session.editPhases buffer plan
      | .ok none | .error _ => []
    | none => []
  | .takeStats => [.alter fun session => session.takeStats.1]

theorem addProduction_eq (session : Session) (production : Production) :
    session.perform (.addProduction production) =
      Phase.runAll session (session.phases (.addProduction production)) := by
  simp only [perform, phases, addProduction, orKeep]
  cases hvalid : session.grammar.validate production session.vocabulary with
  | error error => rfl
  | ok done =>
    dsimp only [bind, Except.bind, additionPhases]
    rw [grammar_unjustifyAll, Phase.runAll_append, Phase.runAll_unjustify, Phase.runAll_cons,
      Phase.runAll_justify]
    rfl

theorem removeProduction_eq (session : Session) (id : ProductionId) :
    session.perform (.removeProduction id) =
      Phase.runAll session (session.phases (.removeProduction id)) := by
  simp only [perform, phases, removeProduction, orKeep, Grammar.relyingOn]
  cases hget : session.grammar.get? id with
  | none => rfl
  | some production =>
    dsimp only [bind, Except.bind, removalPhases]
    rw [grammar_unjustifyAll, Grammar.undefine_eq hget, Phase.runAll_append, Phase.runAll_unjustify,
      Phase.runAll_cons, Phase.runAll_justify]
    rfl

theorem edit_eq (session : Session) (id : BufferId) (lo hi : Nat) (text : Text) :
    session.perform (.edit id lo hi text) =
      Phase.runAll session (session.phases (.edit id lo hi text)) := by
  simp only [perform, phases, edit, orKeep, Session.buffer]
  cases hbuffer : session.chart.buffer? id with
  | none => rfl
  | some buffer =>
    dsimp only [bind, Except.bind]
    cases hplan : RelexPlan.make buffer.tokens session.vocabulary ⟨lo, hi, text.normalize⟩ with
    | error error => rfl
    | ok plan? =>
      cases plan? with
      | none => rfl
      | some plan =>
        obtain rfl := (Chart.buffer?_eq_some hbuffer).2
        dsimp only [Except.mapError, editPhases]
        simp only [Phase.runAll_cons]
        rw [Phase.runAll_append, Phase.runAll_justify, Phase.runAll_justify]
        rfl

/-- An operation is the row of its phases. -/
theorem perform_eq (session : Session) (command : Command) :
    session.perform command = Phase.runAll session (session.phases command) := by
  cases command with
  | intern text => rfl
  | addProduction production => exact session.addProduction_eq production
  | removeProduction id => exact session.removeProduction_eq id
  | introduceBuffer id kind =>
    simp only [perform, phases, introduceBuffer, orKeep]
    cases hbuffer : session.chart.buffer? id <;> rfl
  | discardBuffer id =>
    simp only [perform, phases, discardBuffer, orKeep, Session.buffer]
    cases hbuffer : session.chart.buffer? id <;> rfl
  | setBufferKind id kind =>
    simp only [perform, phases, setBufferKind, orKeep, Session.buffer]
    cases hbuffer : session.chart.buffer? id <;> rfl
  | edit id lo hi text => exact session.edit_eq id lo hi text
  | takeStats => rfl

theorem change_of_mem_stepsAll (session : Session) (phases : List Phase) :
    ∀ step ∈ Phase.stepsAll session phases,
      Engine.change step.direction step.before step.fact = (step.after, step.changed) := by
  induction phases generalizing session with
  | nil => simp [Phase.stepsAll]
  | cons phase phases ih =>
    refine List.forall_mem_append.2 ⟨fun step hstep => ?_, ih _⟩
    cases phase with
    | call request =>
      exact Call.change_of_mem_steps session.engine session.chart request step (List.mem_reverse.1 hstep)
    | alter change => cases hstep

/-- The steps that the engine takes during a history. -/
def steps (session : Session) : List Command → List (Step Chart Fact)
  | [] => []
  | command :: history =>
    Phase.stepsAll session (session.phases command) ++ (session.perform command).steps history

theorem change_of_mem_steps (session : Session) (history : List Command) :
    ∀ step ∈ session.steps history,
      Engine.change step.direction step.before step.fact = (step.after, step.changed) := by
  induction history generalizing session with
  | nil => simp [steps]
  | cons command history ih =>
    exact List.forall_mem_append.2 ⟨session.change_of_mem_stepsAll _, ih _⟩

end Session

end LiveProse
