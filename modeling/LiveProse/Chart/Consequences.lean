import LiveProse.Chart.Chart
import LiveProse.Deduction.Engine

/-!
What follows from the facts of a chart. Potential matches are opened at sentence boundaries and
wherever an unfinished one waits for a nonterminal, and grow token by token and match by match. In
the table `p` is a production, `m` a potential match that ends at `m.e`, `Q` a complete match that
begins at `Q.b`, and `q -> s` says that site `s` comes right after site `q`.

| derivation | antecedents |
|---|---|
| open at a boundary on a token | `p`, `q -> s`, `s` available, boundary at `q` |
| open at a boundary on a match | `p`, `q -> Q.b`, `Q`, boundary at `q` |
| open under `m` on a token | `p`, `m`, `m.e -> s`, `s` available, and the boundary at `m.e` if `p` ends sentences and `m` does not |
| open under `m` on a match | `p`, `m`, `m.e -> Q.b`, `Q`, and the boundary at `m.e` if `p` ends sentences and `m` does not |
| extend `m` by a token | `m`, `m.e -> s`, `s` available, and that `m.e` ends no sentence unless `m` is a passage |
| extend `m` by a match | `m`, `m.e -> Q.b`, `Q`, and that `m.e` ends no sentence unless `m` is a passage |
| skip an optional slot | `m` |
| complete a wording | `m` |
| complete a sentence | `m`, and that `m.e` ends a sentence, or `m.e -> n` where `n` is the end or a comma |

The boundary at `q` is that `q` ends a sentence, and is no antecedent at all where `q` is a comma.

A fact is an antecedent in several of these roles. Its consequences list each derivation once.
-/

namespace LiveProse

/-- Which productions may open under an unfinished match. -/
inductive Openings where
  /-- No boundary holds: sentences and passages stay shut. -/
  | unbounded
  /-- A boundary holds, or the match is a sentence itself. -/
  | all
  /-- Only those that need the boundary: sentences and passages. -/
  | bounded
deriving DecidableEq, Repr

namespace Openings

def under (parent : Production) (boundary : Bool) : Openings :=
  if boundary || parent.endsSentences then .all else .unbounded

def admits (openings : Openings) (production : Production) : Bool :=
  match openings with
  | unbounded => !production.endsSentences
  | all => true
  | bounded => production.endsSentences

end Openings

namespace Chart

/-! ### Single derivations -/

/-- The productions that have a beginning for a token. -/
def tokenOpeners (chart : Chart) (info : SiteInfo) : List ProductionId :=
  ((ParsemeKey.ofToken info).flatMap chart.grammar.beginningWith).eraseDups

/-- The productions that have a beginning for a result. -/
def matchOpeners (chart : Chart) (result : Nonterminal) : List ProductionId :=
  chart.grammar.beginningWith (.nonterminal result.name)

/-- Opens a production on a token, once for each opening slot that accepts it. -/
def openOnToken (chart : Chart) (buffer : BufferId) (id : ProductionId) (site : Handle)
    (info : SiteInfo) : List Fact :=
  match chart.grammar.get? id with
  | none => []
  | some production =>
    (production.openingsForToken info).filterMap fun index =>
      if production.canReach (index + 1) info info then
        some (.potential ⟨buffer, id, index + 1, site, site⟩)
      else none

/-- Opens a production on a complete match, once for each opening slot that accepts it. -/
def openOnMatch (chart : Chart) (id : ProductionId) (inner : MatchKey) : List Fact :=
  match chart.grammar.get? id, chart.result? inner with
  | some production, some result =>
    let first := chart.info inner.buffer inner.beginningSite
    let last := chart.info inner.buffer inner.endSite
    (production.openingsForMatch result).filterMap fun index =>
      if production.canReach (index + 1) first last then
        some (.potential { inner with production := id, slotsFilled := index + 1 })
      else none
  | _, _ => []

/-- Fills the next slot of a match so that it ends at a token, if the slot accepts that and the
production may reach so far. -/
def fillNext (chart : Chart) (key : MatchKey) (production : Production) (accepts : Slot → Bool)
    (stop : Handle) (last : SiteInfo) : List Fact :=
  let first := chart.info key.buffer key.beginningSite
  if (production.slot? key.slotsFilled).any accepts &&
      production.canReach (key.slotsFilled + 1) first last then
    [.potential { key with slotsFilled := key.slotsFilled + 1, inclusiveEnd := stop }]
  else []

def extendByToken (chart : Chart) (key : MatchKey) (production : Production) (site : Handle)
    (info : SiteInfo) : List Fact :=
  chart.fillNext key production (·.acceptsToken info) site info

def extendByMatch (chart : Chart) (key : MatchKey) (production : Production) (inner : MatchKey) :
    List Fact :=
  match chart.result? inner with
  | some result =>
    chart.fillNext key production (·.acceptsMatch result) inner.inclusiveEnd
      (chart.info inner.buffer inner.endSite)
  | none => []

def skipOptional (chart : Chart) (key : MatchKey) (production : Production) : List Fact :=
  chart.fillNext key production (·.optional) key.inclusiveEnd (chart.info key.buffer key.endSite)

/-! ### Rows of derivations -/

/-- Whether a production is in use and may begin at a sentence boundary. -/
def opensSentences (chart : Chart) (id : ProductionId) : Bool :=
  chart.active.contains id && chart.grammar.canBeginSentence id

/-- Opens on a token whatever may begin at a sentence boundary. -/
def openSentencesOnToken (chart : Chart) (buffer : BufferId) (site : Handle) : List Fact :=
  let info := chart.info buffer (.token site)
  ((chart.tokenOpeners info).filter chart.opensSentences).flatMap fun id =>
    chart.openOnToken buffer id site info

/-- Opens on a match whatever may begin at a sentence boundary. -/
def openSentencesOnMatch (chart : Chart) (inner : MatchKey) : List Fact :=
  match chart.result? inner with
  | some result =>
    ((chart.matchOpeners result).filter chart.opensSentences).flatMap fun id =>
      chart.openOnMatch id inner
  | none => []

/-- Whether a production is in use and may open where a match waits for it. -/
def opensUnder (chart : Chart) (key : MatchKey) (production : Production) (openings : Openings)
    (id : ProductionId) : Bool :=
  chart.active.contains id && chart.grammar.continues production key.slotsFilled id &&
    (chart.grammar.get? id).any openings.admits

/-- Opens on a token whatever a match waits for. -/
def continueOnToken (chart : Chart) (key : MatchKey) (production : Production) (site : Handle)
    (info : SiteInfo) (openings : Openings) : List Fact :=
  ((chart.tokenOpeners info).filter (chart.opensUnder key production openings)).flatMap fun id =>
    chart.openOnToken key.buffer id site info

/-- Opens on a complete match whatever another match waits for. -/
def continueOnMatch (chart : Chart) (key : MatchKey) (production : Production) (inner : MatchKey)
    (openings : Openings) : List Fact :=
  match chart.result? inner with
  | some result =>
    let ids := (chart.matchOpeners result).filter (chart.opensUnder key production openings)
    ids.flatMap fun id => chart.openOnMatch id inner
  | none => []

/-- Everything that an unfinished match derives with what follows it at a site. -/
def advanceInto (chart : Chart) (key : MatchKey) (production : Production) (target : Site)
    (mayExtend : Bool) (openings : Openings) : List Fact :=
  match target with
  | .token site =>
    let info := chart.info key.buffer target
    let onToken := if chart.isAvailable key.buffer site then
      (if mayExtend then chart.extendByToken key production site info else []) ++
        chart.continueOnToken key production site info openings
    else []
    let onMatches := (chart.completesBeginningAt key.buffer target).flatMap fun inner =>
      (if mayExtend then chart.extendByMatch key production inner else []) ++
        chart.continueOnMatch key production inner openings
    onToken ++ onMatches
  | .start | .finish => []

/-- Whether a sentence may be complete in front of a site for no other reason than the site. -/
def closesSentence (chart : Chart) (buffer : BufferId) (target : Site) : Bool :=
  target = .finish || (chart.info buffer target).traits.comma

/-- The filled sentences and passages that end at a site, as complete matches. -/
def completeSentencesAt (chart : Chart) (buffer : BufferId) (site : Site) : List Fact :=
  ((chart.potentialsEndingAt buffer site).filter fun key =>
    (chart.grammar.get? key.production).any (·.endsSentences) && chart.isFilled key).map .complete

/-- The unfinished potential matches that end at a site, with their productions. -/
def waitingAt (chart : Chart) (buffer : BufferId) (site : Site) : List (MatchKey × Production) :=
  (chart.potentialsEndingAt buffer site).filterMap fun key =>
    (chart.grammar.get? key.production).bind fun production =>
      if key.slotsFilled < production.arity then some (key, production) else none

/-! ### Consequences by fact -/

/-- What a production opens at the sentence boundaries of a buffer. -/
def productionAtBoundaries (chart : Chart) (id : ProductionId) (production : Production)
    (buffer : Buffer) : List Fact :=
  let keys := (production.beginnings.filterMap (·.key?)).eraseDups
  let terminals := keys.filter fun key => match key with
    | .nonterminal _ => false
    | _ => true
  let names := keys.filterMap fun key => match key with
    | .nonterminal name => some name
    | _ => none
  let boundaries (site : Site) : List Site :=
    (chart.predecessors buffer.id site).filter (chart.opensSentenceAfter buffer.id)
  let sites := ((terminals.flatMap buffer.parsemeBeginnings.get).filterMap (·.handle?)).eraseDups
  let onTokens := sites.flatMap fun site =>
    (boundaries (.token site)).flatMap fun _ =>
      chart.openOnToken buffer.id id site (chart.info buffer.id (.token site))
  let onMatches := names.flatMap fun name =>
    (buffer.parsemeBeginnings.get (.nonterminal name)).flatMap fun site =>
      ((chart.completesBeginningAt buffer.id site).filter fun inner =>
        (chart.result? inner).any (·.name = name)).flatMap fun inner =>
          (boundaries site).flatMap fun _ => chart.openOnMatch id inner
  onTokens ++ onMatches

/-- What a production opens under the matches of a buffer that wait for it. -/
def productionUnderMatches (chart : Chart) (id : ProductionId) (production : Production)
    (buffer : Buffer) : List Fact :=
  let predictors := ((chart.grammar.ancestors.get id).flatMap buffer.partialMatches.get).eraseDups
  predictors.flatMap fun key =>
    match chart.grammar.get? key.production with
    | none => []
    | some parent =>
      let boundary := chart.opensSentenceAfter buffer.id key.endSite
      if (Openings.under parent boundary).admits production then
        (chart.successors buffer.id key.endSite).flatMap fun target =>
          match target with
          | .token site =>
            (if chart.isAvailable buffer.id site then
              chart.openOnToken buffer.id id site (chart.info buffer.id target) else []) ++
            (chart.completesBeginningAt buffer.id target).flatMap (chart.openOnMatch id)
          | .start | .finish => []
      else []

def productionConsequences (chart : Chart) (id : ProductionId) : List Fact :=
  match chart.grammar.get? id with
  | none => []
  | some production =>
    chart.buffers.flatMap fun buffer =>
      (if chart.grammar.canBeginSentence id then
        chart.productionAtBoundaries id production buffer else []) ++
      chart.productionUnderMatches id production buffer

def availableConsequences (chart : Chart) (buffer : BufferId) (site : Handle) : List Fact :=
  let info := chart.info buffer (.token site)
  (chart.predecessors buffer (.token site)).flatMap fun before =>
    let boundary := chart.opensSentenceAfter buffer before
    (if boundary then chart.openSentencesOnToken buffer site else []) ++
    (chart.waitingAt buffer before).flatMap fun (key, production) =>
      (if chart.mayExtendPast production buffer before then
        chart.extendByToken key production site info else []) ++
      chart.continueOnToken key production site info (.under production boundary)

def adjacencyConsequences (chart : Chart) (buffer : BufferId) (source target : Site) : List Fact :=
  let completed := if chart.closesSentence buffer target then
    chart.completeSentencesAt buffer source else []
  let opened := match target with
    | .token site =>
      let boundary := chart.opensSentenceAfter buffer source
      (if boundary then
        (if chart.isAvailable buffer site then chart.openSentencesOnToken buffer site else []) ++
        (chart.completesBeginningAt buffer target).flatMap chart.openSentencesOnMatch
      else []) ++
      (chart.waitingAt buffer source).flatMap fun (key, production) =>
        chart.advanceInto key production target (chart.mayExtendPast production buffer source)
          (.under production boundary)
    | .start | .finish => []
  completed ++ opened

/-- What follows from the end of a sentence at a site. At a comma nothing is opened, because a comma
is a boundary by itself. -/
def sentenceEndConsequences (chart : Chart) (buffer : BufferId) (site : Site) : List Fact :=
  let opened := if (chart.info buffer site).traits.comma then [] else
    (chart.successors buffer site).flatMap (fun target => match target with
      | .token next =>
        (if chart.isAvailable buffer next then chart.openSentencesOnToken buffer next else []) ++
        (chart.completesBeginningAt buffer target).flatMap chart.openSentencesOnMatch
      | .start | .finish => []) ++
    ((chart.waitingAt buffer site).filter fun (_, production) =>
      !production.endsSentences).flatMap fun (key, production) =>
        (chart.successors buffer site).flatMap fun target =>
          chart.advanceInto key production target false .bounded
  opened ++ chart.completeSentencesAt buffer site

/-- What follows where a site ends no sentence. Passages go on in any case. -/
def continuationConsequences (chart : Chart) (buffer : BufferId) (site : Site) : List Fact :=
  ((chart.waitingAt buffer site).filter fun (_, production) =>
    !production.isPassage).flatMap fun (key, production) =>
      (chart.successors buffer site).flatMap fun target =>
        match target with
        | .token next =>
          (if chart.isAvailable buffer next then
            chart.extendByToken key production next (chart.info buffer target) else []) ++
          (chart.completesBeginningAt buffer target).flatMap (chart.extendByMatch key production)
        | .start | .finish => []

def potentialConsequences (chart : Chart) (key : MatchKey) : List Fact :=
  match chart.grammar.get? key.production with
  | none => []
  | some production =>
    let site := key.endSite
    let following := chart.successors key.buffer site
    if key.slotsFilled < production.arity then
      chart.skipOptional key production ++
      following.flatMap fun target =>
        chart.advanceInto key production target (chart.mayExtendPast production key.buffer site)
          (.under production (chart.opensSentenceAfter key.buffer site))
    else if production.endsSentences then
      (if chart.endsSentence key.buffer site true then [.complete key] else []) ++
      (following.filter (chart.closesSentence key.buffer)).map fun _ => .complete key
    else [.complete key]

def completeConsequences (chart : Chart) (key : MatchKey) : List Fact :=
  (chart.predecessors key.buffer key.beginningSite).flatMap fun before =>
    let boundary := chart.opensSentenceAfter key.buffer before
    (if boundary then chart.openSentencesOnMatch key else []) ++
    (chart.waitingAt key.buffer before).flatMap fun (partialKey, production) =>
      (if chart.mayExtendPast production key.buffer before then
        chart.extendByMatch partialKey production key else []) ++
      chart.continueOnMatch partialKey production key (.under production boundary)

def consequences (chart : Chart) : Fact → List Fact
  | .production id => chart.productionConsequences id
  | .available buffer site => chart.availableConsequences buffer site
  | .next buffer source target => chart.adjacencyConsequences buffer source target
  | .endOfSentence buffer site true => chart.sentenceEndConsequences buffer site
  | .endOfSentence buffer site false => chart.continuationConsequences buffer site
  | .potential key => chart.potentialConsequences key
  | .complete key => chart.completeConsequences key

instance : Deductive Chart Fact where
  kind _ := kind
  holds := holds
  counterpart? _ := counterpart?
  justify := justify
  unjustify := unjustify
  consequences := consequences
  bound := bound

end Chart

end LiveProse
