import LiveProse.Chart.Consequences
import LiveProse.Highlight.Runs

/-!
A session: one grammar, many buffers, and the engine that keeps their charts current. Every change
either succeeds as a whole or answers an error, and then there is no new session.
-/

namespace LiveProse

structure SessionConfig where
  /-- The highlight codes that the client can display. -/
  support : HighlightSupport := .all
  /-- Whether the engine counts its work. -/
  stats : Bool := false
deriving DecidableEq, Repr

inductive SessionError where
  | unknownBuffer (id : BufferId)
  | duplicateBuffer (id : BufferId)
  | editOutOfRange (error : EditOutOfRange)
  | grammar (error : GrammarError)
deriving DecidableEq, Repr

def SessionError.message : SessionError → String
  | unknownBuffer id => "unknown buffer " ++ id.display
  | duplicateBuffer id => "buffer " ++ id.display ++ " already exists"
  | editOutOfRange error => error.message
  | grammar error => error.message

/-- A complete match and where it is in the text of its buffer. -/
structure MatchSpan where
  lo : Nat
  hi : Nat
  production : ProductionId
  result : Nonterminal
deriving DecidableEq, Repr

namespace MatchSpan

/-- What matches are ordered by, the most important first. -/
def order (span : MatchSpan) : List Nat :=
  [span.lo, span.hi, span.production.number, span.result.name.index, span.result.tier]

/-- Whether a row of numbers comes before another or equals it, the first difference deciding. -/
def comesFirst : List Nat → List Nat → Bool
  | [], _ => true
  | _ :: _, [] => false
  | a :: as, b :: bs => a < b || (a == b && comesFirst as bs)

/-- The matches in order. -/
def sorted (spans : List MatchSpan) : List MatchSpan :=
  spans.mergeSort fun a b => comesFirst a.order b.order

end MatchSpan

structure Session where
  config : SessionConfig := {}
  chart : Chart := {}
  engine : Engine := { collecting := config.stats }

namespace Session

/-- A session without productions and buffers. -/
def new (config : SessionConfig) : Session := { config }

def grammar (session : Session) : Grammar := session.chart.grammar

def vocabulary (session : Session) : Vocabulary := session.chart.vocabulary

def intern (session : Session) (text : Text) : Session × Word :=
  let (vocabulary, word) := session.chart.vocabulary.intern text
  ({ session with chart := { session.chart with vocabulary } }, word)

/-! ### Facts -/

def justify (session : Session) (fact : Fact) : Session :=
  let (engine, chart) := session.engine.justify session.chart fact
  { session with engine, chart }

def unjustify (session : Session) (fact : Fact) : Session :=
  let (engine, chart) := session.engine.unjustify session.chart fact
  { session with engine, chart }

def forceFalse (session : Session) (facts : List Fact) : Session :=
  let (engine, chart) := session.engine.forceFalse session.chart facts
  { session with engine, chart }

/-- Makes facts true one after another. -/
def justifyAll (session : Session) (facts : List Fact) : Session :=
  facts.foldl justify session

/-- Makes facts false one after another. -/
def unjustifyAll (session : Session) (facts : List Fact) : Session :=
  facts.foldl unjustify session

/-! ### Productions -/

/-- Validates and defines a production. Those that can begin it are retracted meanwhile, because
more may follow from them once it is defined. -/
def addProduction (session : Session) (production : Production) :
    Except GrammarError (Session × ProductionId) := do
  session.grammar.validate production session.vocabulary
  let relying := (session.grammar.leftCornerDescendants production).map Fact.production
  let session := session.unjustifyAll relying
  let (grammar, id) := session.grammar.define production
  let session := { session with chart := { session.chart with grammar } }
  return ((session.justify (.production id)).justifyAll relying, id)

/-- Retracts a production with everything derived from it. -/
def removeProduction (session : Session) (id : ProductionId) :
    Except GrammarError (Session × Production) := do
  let relying ← session.grammar.relyingOn id
  let session := session.unjustifyAll (relying.map .production)
  let (grammar, removed) ← session.grammar.undefine id
  let session := { session with chart := { session.chart with grammar } }
  return (session.justifyAll ((relying.filter (· ≠ id)).map .production), removed)

/-- The productions of a list that are in use, in order. -/
def inUse (session : Session) (ids : List ProductionId) : List ProductionId :=
  ProductionId.sorted (ids.filter (session.chart.active.contains ·))

def beginningWith (session : Session) (key : ParsemeKey) : List ProductionId :=
  session.inUse (session.grammar.beginningWith key)

def resultingIn (session : Session) (name : Word) : List ProductionId :=
  session.inUse (session.grammar.resultingIn name)

def sentenceBeginnings (session : Session) : List ProductionId :=
  session.inUse session.grammar.sentenceBeginnings

def canBeginSentence (session : Session) (id : ProductionId) : Bool :=
  session.chart.opensSentences id

/-- The productions that could begin what a match waits for. -/
def continuingBeginnings (session : Session) (key : MatchKey) : List ProductionId :=
  match session.grammar.get? key.production with
  | some production =>
    session.inUse (session.grammar.continuingBeginnings production key.slotsFilled)
  | none => []

/-! ### Buffers -/

def buffer (session : Session) (id : BufferId) : Except SessionError Buffer :=
  match session.chart.buffer? id with
  | some buffer => .ok buffer
  | none => .error (.unknownBuffer id)

/-- The productions that could begin right after a site, to go on with some match that ends
there. -/
def continuingBeginningsAt (session : Session) (id : BufferId) (site : Site) :
    Except SessionError (List ProductionId) := do
  let _ ← session.buffer id
  return session.inUse
    ((session.chart.potentialsEndingAt id site).flatMap session.continuingBeginnings)

/-- The buffers in the order of their numbers. -/
def buffers (session : Session) : List Buffer :=
  session.chart.buffers.mergeSort fun a b => a.id.number ≤ b.id.number

/-- Begins an empty buffer. -/
def introduceBuffer (session : Session) (id : BufferId) (kind : BufferKind) :
    Except SessionError Session :=
  match session.chart.buffer? id with
  | some _ => .error (.duplicateBuffer id)
  | none =>
    let buffers := session.chart.buffers ++ [{ id, kind }]
    let session := { session with chart := { session.chart with buffers } }
    .ok (session.justifyAll
      [.endOfSentence id .start true, .endOfSentence id .finish true, .next id .start .finish])

/-- Drops a buffer with its chart. Nothing outside the buffer was derived from it. -/
def discardBuffer (session : Session) (id : BufferId) : Except SessionError (Session × Buffer) := do
  let buffer ← session.buffer id
  let buffers := session.chart.buffers.filter (·.id ≠ id)
  return ({ session with chart := { session.chart with buffers } }, buffer)

def setBufferKind (session : Session) (id : BufferId) (kind : BufferKind) :
    Except SessionError Session := do
  let buffer ← session.buffer id
  return { session with chart := session.chart.setBuffer { buffer with kind } }

def text (session : Session) (id : BufferId) : Except SessionError Text := do
  return (← session.buffer id).text session.vocabulary

/-- Changes a buffer if it is there. -/
def modifyBuffer (session : Session) (id : BufferId) (change : Buffer → Buffer) : Session :=
  match session.chart.buffer? id with
  | some buffer => { session with chart := session.chart.setBuffer (change buffer) }
  | none => session

/-- The facts that begin to hold at sites with new records. -/
def freshFacts (id : BufferId) (fresh : List (Handle × SiteInfo)) : List Fact :=
  fresh.flatMap fun (handle, info) =>
    [.endOfSentence id (.token handle) info.traits.sentenceEnd, .available id handle]

/-- Replaces the codepoints `lo` to `hi` of a buffer, the last one excluded, by some text, brings
the chart up to date and answers what changes in the highlights. First the facts of retired sites go,
then the edges that no longer lead to a successor; then records are exchanged, and last the facts of
new sites and the new edges come. -/
def edit (session : Session) (id : BufferId) (lo hi : Nat) (text : Text) :
    Except SessionError (Session × List HighlightEvent) := do
  let buffer ← session.buffer id
  let plan? ← (RelexPlan.make buffer.tokens session.vocabulary ⟨lo, hi, text.normalize⟩).mapError
    .editOutOfRange
  match plan? with
  | none => return (session, [])
  | some plan =>
    let (buffer, vocabulary, changes) := buffer.restate plan session.vocabulary
    let session := { session with
      chart := { session.chart.setBuffer buffer with vocabulary } }
    let doomed := changes.retired.flatMap buffer.factsAt
    let stale := (changes.kept.flatMap buffer.edgesFrom).filter (!changes.edges.contains ·)
    let session := session.forceFalse doomed
    let session := session.forceFalse (stale.map fun (source, target) => .next id source target)
    let session := session.modifyBuffer id fun buffer =>
      (buffer.retire changes.retired).openSites changes.fresh
    let session := session.justifyAll (freshFacts id changes.fresh)
    let session := session.justifyAll
      (changes.edges.map fun (source, target) => .next id source target)
    return (session, rehighlight buffer.tokens changes.outcome session.config.support)

def highlights (session : Session) (id : BufferId) : Except SessionError (List HighlightRun) := do
  return highlightAll (← session.buffer id).tokens session.config.support

/-- The complete matches of a buffer, in the order of their places. -/
def completeMatches (session : Session) (id : BufferId) : Except SessionError (List MatchSpan) := do
  let buffer ← session.buffer id
  return MatchSpan.sorted (buffer.completes.toList.filterMap fun key => do
    let (lo, hi) ← buffer.span? key
    let result ← session.chart.result? key
    return ⟨lo, hi, key.production, result⟩)

/-! ### Statistics -/

def stats (session : Session) : DerivationStats := session.engine.stats

/-- Answers the statistics and sets them back. -/
def takeStats (session : Session) : Session × DerivationStats :=
  ({ session with engine := session.engine.resetStats }, session.stats)

end Session

end LiveProse
