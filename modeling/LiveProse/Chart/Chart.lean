import LiveProse.Chart.Buffer
import LiveProse.Deduction.Engine
import LiveProse.Grammar.Grammar

/-!
The chart: the grammar, the buffers, and which facts hold. Here is how facts are read and how they
are changed; what follows from them is in `LiveProse.Chart.Consequences`.
-/

namespace LiveProse

structure Chart where
  grammar : Grammar := {}
  /-- The productions that may be used, each of them once. -/
  active : List ProductionId := []
  /-- The buffers, each under a number of its own. -/
  buffers : List Buffer := []
  vocabulary : Vocabulary := {}

namespace Chart

/-! ### Buffers -/

def buffer? (chart : Chart) (id : BufferId) : Option Buffer :=
  chart.buffers.find? (·.id = id)

/-- Puts a changed buffer in the place of the one with its number. -/
def setBuffer (chart : Chart) (buffer : Buffer) : Chart :=
  { chart with
    buffers := chart.buffers.map fun other => if other.id = buffer.id then buffer else other }

/-! ### Reading facts -/

def record? (chart : Chart) (buffer : BufferId) (site : Site) : Option SiteRecord :=
  (chart.buffer? buffer).bind (·.record? site)

/-- What is known about a site. Nothing is known about one without a record. -/
def info (chart : Chart) (buffer : BufferId) (site : Site) : SiteInfo :=
  ((chart.record? buffer site).map (·.info)).getD .sentinel

def hasFact (chart : Chart) (buffer : BufferId) (site : Site) (fact : Fact) : Bool :=
  (chart.record? buffer site).any (·.facts.has fact)

/-- The facts of a class that are noted at a site. -/
def factsOfClass (chart : Chart) (buffer : BufferId) (site : Site) (wanted : FactClass) :
    List Fact :=
  ((chart.record? buffer site).map (·.facts.ofKind Fact.factClass wanted)).getD []

def isAvailable (chart : Chart) (buffer : BufferId) (site : Handle) : Bool :=
  (chart.record? buffer (.token site)).any (·.facts.holdsNegation (.available buffer site))

def endsSentence (chart : Chart) (buffer : BufferId) (site : Site) (positive : Bool) : Bool :=
  chart.hasFact buffer site (.endOfSentence buffer site positive)

/-- Whether a sentence may begin right after a site. -/
def opensSentenceAfter (chart : Chart) (buffer : BufferId) (site : Site) : Bool :=
  (chart.info buffer site).traits.comma || chart.endsSentence buffer site true

/-- Whether a match that ends at a site may take in more. -/
def mayExtendPast (chart : Chart) (production : Production) (buffer : BufferId) (site : Site) :
    Bool :=
  production.isPassage || chart.endsSentence buffer site false

/-- The sites right after a site. -/
def successors (chart : Chart) (buffer : BufferId) (site : Site) : List Site :=
  (chart.factsOfClass buffer site .next).filterMap fun fact => match fact with
    | .next _ source target => if source = site then some target else none
    | _ => none

/-- The sites right before a site. -/
def predecessors (chart : Chart) (buffer : BufferId) (site : Site) : List Site :=
  (chart.factsOfClass buffer site .next).filterMap fun fact => match fact with
    | .next _ source target => if target = site then some source else none
    | _ => none

/-- The potential matches that end at a site. -/
def potentialsEndingAt (chart : Chart) (buffer : BufferId) (site : Site) : List MatchKey :=
  (chart.factsOfClass buffer site .potential).filterMap fun fact => match fact with
    | .potential key => if key.endSite = site then some key else none
    | _ => none

/-- The complete matches that begin at a site. -/
def completesBeginningAt (chart : Chart) (buffer : BufferId) (site : Site) : List MatchKey :=
  (chart.factsOfClass buffer site .complete).filterMap fun fact => match fact with
    | .complete key => if key.beginningSite = site then some key else none
    | _ => none

/-- The result of the production of a match. -/
def result? (chart : Chart) (key : MatchKey) : Option Nonterminal :=
  (chart.grammar.get? key.production).map (·.result)

/-- Whether every slot of a match is filled. -/
def isFilled (chart : Chart) (key : MatchKey) : Bool :=
  (chart.grammar.get? key.production).any fun production => production.arity ≤ key.slotsFilled

/-- The nonterminals that the next slot of a match asks for. -/
def needs (chart : Chart) (key : MatchKey) : List Nonterminal :=
  (((chart.grammar.get? key.production).bind (·.slot? key.slotsFilled)).map (·.needs)).getD []

/-! ### Which facts hold -/

def kind : Fact → FactKind
  | .endOfSentence _ _ _ => .combined
  | .potential _ | .complete _ => .deduction
  | .production _ | .available _ _ | .next _ _ _ => .observation

def holds (chart : Chart) : Fact → Bool
  | .production id => chart.active.contains id
  | .available buffer site => chart.isAvailable buffer site
  | .next buffer source target => chart.hasFact buffer source (.next buffer source target)
  | .endOfSentence buffer site positive => chart.endsSentence buffer site positive
  | .potential key => (chart.buffer? key.buffer).any (·.potentials.contains key)
  | .complete key => (chart.buffer? key.buffer).any (·.completes.contains key)

/-- The other sense of a sentence end. -/
def counterpart? : Fact → Option Fact
  | .endOfSentence buffer site positive => some (.endOfSentence buffer site !positive)
  | _ => none

/-! ### Changing facts -/

/-- Changes a buffer if there is one of the number, and answers whether the change made a
difference. -/
def changeBuffer (chart : Chart) (id : BufferId) (change : Buffer → Buffer × Bool) : Chart × Bool :=
  match chart.buffer? id with
  | some buffer =>
    let (buffer, changed) := change buffer
    (chart.setBuffer buffer, changed)
  | none => (chart, false)

/-- Makes a token available and files it under its keys. -/
def makeAvailable (fact : Fact) (handle : Handle) (buffer : Buffer) : Buffer × Bool :=
  match buffer.record? (.token handle) with
  | none => (buffer, false)
  | some record =>
    let changed := (record.facts.justifyNegation fact).2
    let buffer := buffer.modifyFacts (.token handle) fun facts => (facts.justifyNegation fact).1
    if changed then
      ({ buffer with
          parsemeBeginnings := (ParsemeKey.ofToken record.info).foldl
            (·.insert · (.token handle)) buffer.parsemeBeginnings }, true)
    else (buffer, false)

/-- Withholds a token and takes it away from its keys. -/
def makeUnavailable (fact : Fact) (handle : Handle) (buffer : Buffer) : Buffer × Bool :=
  match buffer.record? (.token handle) with
  | none => (buffer, false)
  | some record =>
    if (record.facts.unjustifyNegation fact).2 then
      let buffer := buffer.modifyFacts (.token handle) fun facts => (facts.unjustifyNegation fact).1
      ({ buffer with
          parsemeBeginnings := (ParsemeKey.ofToken record.info).foldl
            (·.remove · (.token handle)) buffer.parsemeBeginnings }, true)
    else (buffer, false)

/-- Notes an edge at both of its sites. -/
def addEdge (fact : Fact) (source target : Site) (buffer : Buffer) : Buffer × Bool :=
  if !buffer.hasRecord source || buffer.hasFact source fact then (buffer, false)
  else (buffer.annotate fact [source, target], true)

def removeEdge (fact : Fact) (source target : Site) (buffer : Buffer) : Buffer × Bool :=
  if buffer.hasFact source fact then (buffer.unannotate fact [source, target], true)
  else (buffer, false)

/-- Notes one sense of a sentence end. -/
def addSentenceEnd (fact : Fact) (site : Site) (positive : Bool) (buffer : Buffer) :
    Buffer × Bool :=
  if !buffer.hasRecord site || buffer.hasFact site fact then (buffer, false)
  else
    let buffer := buffer.annotate fact [site]
    (if positive then { buffer with sentenceEndings := buffer.sentenceEndings.insert site }
      else buffer, true)

def removeSentenceEnd (fact : Fact) (site : Site) (positive : Bool) (buffer : Buffer) :
    Buffer × Bool :=
  match buffer.record? site with
  | none => (buffer, false)
  | some record =>
    let removed := (record.facts.remove fact).2
    let buffer := buffer.unannotate fact [site]
    (if removed && positive then
        { buffer with sentenceEndings := buffer.sentenceEndings.erase site }
      else buffer, removed)

/-- Counts a derivation of a potential match, and notes the match at its ends if it is the first. -/
def addPotential (needs : List Nonterminal) (key : MatchKey) (buffer : Buffer) : Buffer × Bool :=
  let (potentials, created) := buffer.potentials.acquire key
  let buffer := { buffer with potentials }
  if created then
    let buffer := buffer.annotate (.potential key) key.ends
    ({ buffer with partialMatches := needs.foldl (·.insert · key) buffer.partialMatches }, true)
  else (buffer, false)

/-- Uncounts a derivation of a potential match, and takes the match away if it was the last. -/
def removePotential (needs : List Nonterminal) (key : MatchKey) (buffer : Buffer) :
    Buffer × Bool :=
  let (potentials, left) := buffer.potentials.release? key
  let buffer := { buffer with potentials }
  if left = some 0 then
    let buffer := buffer.unannotate (.potential key) key.ends
    ({ buffer with partialMatches := needs.foldl (·.remove · key) buffer.partialMatches }, true)
  else (buffer, false)

/-- Counts a derivation of a complete match. The first files the match under its result. -/
def addComplete (result : Nonterminal) (key : MatchKey) (buffer : Buffer) : Buffer × Bool :=
  let (completes, created) := buffer.completes.acquire key
  let buffer := { buffer with completes }
  if created then
    let buffer := buffer.annotate (.complete key) key.ends
    ({ buffer with
        parsemeBeginnings :=
          buffer.parsemeBeginnings.insert (.nonterminal result.name) key.beginningSite }, true)
  else (buffer, false)

/-- Uncounts a derivation of a complete match. When the last one goes, the site is taken away from
the name of the result unless another match of that name begins there. -/
def removeComplete (grammar : Grammar) (key : MatchKey) (buffer : Buffer) : Buffer × Bool :=
  let (completes, left) := buffer.completes.release? key
  let buffer := { buffer with completes }
  if left = some 0 then
    let buffer := buffer.unannotate (.complete key) key.ends
    match grammar.get? key.production with
    | none => (buffer, true)
    | some production =>
      let name := production.result.name
      let site := key.beginningSite
      let others := (buffer.factsOfClass site .complete).any fun fact => match fact with
        | .complete other => other.beginning = key.beginning &&
            (grammar.get? other.production).any fun production => production.result.name = name
        | _ => false
      if others then (buffer, true)
      else
        ({ buffer with
            parsemeBeginnings := buffer.parsemeBeginnings.remove (.nonterminal name) site }, true)
  else (buffer, false)

/-- Makes a fact true or counts one more derivation of it. -/
def justify (chart : Chart) (fact : Fact) : Chart × Bool :=
  match fact with
  | .production id =>
    ({ chart with active := chart.active.insert id }, !chart.active.contains id)
  | .available buffer site => chart.changeBuffer buffer (makeAvailable fact site)
  | .next buffer source target => chart.changeBuffer buffer (addEdge fact source target)
  | .endOfSentence buffer site positive =>
    chart.changeBuffer buffer (addSentenceEnd fact site positive)
  | .potential key => chart.changeBuffer key.buffer (addPotential (chart.needs key) key)
  | .complete key =>
    match chart.result? key with
    | some result => chart.changeBuffer key.buffer (addComplete result key)
    | none => (chart, false)

/-- Makes a fact false or counts one derivation of it less. -/
def unjustify (chart : Chart) (fact : Fact) : Chart × Bool :=
  match fact with
  | .production id =>
    ({ chart with active := chart.active.erase id }, chart.active.contains id)
  | .available buffer site => chart.changeBuffer buffer (makeUnavailable fact site)
  | .next buffer source target => chart.changeBuffer buffer (removeEdge fact source target)
  | .endOfSentence buffer site positive =>
    chart.changeBuffer buffer (removeSentenceEnd fact site positive)
  | .potential key => chart.changeBuffer key.buffer (removePotential (chart.needs key) key)
  | .complete key => chart.changeBuffer key.buffer (removeComplete chart.grammar key)

/-- More facts than one run can change. A run of deductions either takes away matches that are held
or adds matches of defined productions between sites that are recorded. -/
def bound (chart : Chart) : Nat :=
  let held := chart.buffers.foldl (fun n buffer =>
    n + (buffer.potentials.items.length + buffer.completes.items.length)) 0
  let spans := chart.buffers.foldl (fun n buffer =>
    n + buffer.records.length * buffer.records.length) 0
  let slots := chart.grammar.toList.foldl (fun n (_, production) => n + (production.arity + 1)) 0
  1 + held + 2 * spans * slots

end Chart

end LiveProse
