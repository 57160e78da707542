import LiveProse.Chart.Consequences
import LiveProse.Proofs.Deduction.Derivations
import LiveProse.Proofs.Grammar.Beginnings

/-! The derivation table of the chart. A derivation is a row of the table with its sites, matches and
production; whether there is such a derivation depends on the grammar and on what is known about the
sites, and whether it holds on its antecedents alone. -/

namespace LiveProse

/-- A row of the derivation table, filled in. The slot is the one that a production opens in. -/
inductive Derivation where
  | boundaryToken (buffer : BufferId) (id : ProductionId) (slot : Nat) (before : Site) (site : Handle)
  | boundaryMatch (id : ProductionId) (slot : Nat) (before : Site) (inner : MatchKey)
  | underToken (outer : MatchKey) (id : ProductionId) (slot : Nat) (site : Handle)
  | underMatch (outer : MatchKey) (id : ProductionId) (slot : Nat) (inner : MatchKey)
  | extendToken (key : MatchKey) (site : Handle)
  | extendMatch (key inner : MatchKey)
  | skip (key : MatchKey)
  | completeWording (key : MatchKey)
  | completeAtEnd (key : MatchKey)
  | completeBefore (key : MatchKey) (next : Site)

namespace Derivation

def conclusion : Derivation → Fact
  | boundaryToken buffer id slot _ site => .potential ⟨buffer, id, slot + 1, site, site⟩
  | boundaryMatch id slot _ inner =>
    .potential { inner with production := id, slotsFilled := slot + 1 }
  | underToken outer id slot site => .potential ⟨outer.buffer, id, slot + 1, site, site⟩
  | underMatch _ id slot inner => .potential { inner with production := id, slotsFilled := slot + 1 }
  | extendToken key site =>
    .potential { key with slotsFilled := key.slotsFilled + 1, inclusiveEnd := site }
  | extendMatch key inner =>
    .potential { key with slotsFilled := key.slotsFilled + 1, inclusiveEnd := inner.inclusiveEnd }
  | skip key => .potential { key with slotsFilled := key.slotsFilled + 1 }
  | completeWording key | completeAtEnd key | completeBefore key _ => .complete key

/-- The match that a derivation is of. -/
def derived : Derivation → MatchKey
  | boundaryToken buffer id slot _ site => ⟨buffer, id, slot + 1, site, site⟩
  | boundaryMatch id slot _ inner | underMatch _ id slot inner =>
    { inner with production := id, slotsFilled := slot + 1 }
  | underToken outer id slot site => ⟨outer.buffer, id, slot + 1, site, site⟩
  | extendToken key site => { key with slotsFilled := key.slotsFilled + 1, inclusiveEnd := site }
  | extendMatch key inner =>
    { key with slotsFilled := key.slotsFilled + 1, inclusiveEnd := inner.inclusiveEnd }
  | skip key => { key with slotsFilled := key.slotsFilled + 1 }
  | completeWording key | completeAtEnd key | completeBefore key _ => key

theorem derived_eq {d : Derivation} {key : MatchKey}
    (h : d.conclusion = .potential key ∨ d.conclusion = .complete key) : d.derived = key := by
  cases d <;> rcases h with h | h <;> cases h <;> rfl

end Derivation

namespace Chart

/-- The antecedent that a sentence may begin after a site: none after a comma. -/
def boundary (chart : Chart) (buffer : BufferId) (site : Site) : List Fact :=
  if (chart.info buffer site).traits.comma then [] else [.endOfSentence buffer site true]

def endsSentences (chart : Chart) (id : ProductionId) : Bool :=
  (chart.grammar.get? id).any (·.endsSentences)

def isPassage (chart : Chart) (id : ProductionId) : Bool :=
  (chart.grammar.get? id).any (·.isPassage)

/-- The antecedent that a production may open under a match: the boundary, if the production ends
sentences and the match does not. -/
def openingGuard (chart : Chart) (outer : MatchKey) (id : ProductionId) : List Fact :=
  if chart.endsSentences id && !chart.endsSentences outer.production then
    chart.boundary outer.buffer outer.endSite
  else []

/-- The antecedent that a match may go on: that no sentence ends with it, unless it is a passage. -/
def passingGuard (chart : Chart) (key : MatchKey) : List Fact :=
  if chart.isPassage key.production then [] else [.endOfSentence key.buffer key.endSite false]

def antecedents (chart : Chart) : Derivation → List Fact
  | .boundaryToken buffer id _ before site =>
    [.production id, .next buffer before (.token site), .available buffer site] ++
      chart.boundary buffer before
  | .boundaryMatch id _ before inner =>
    [.production id, .next inner.buffer before inner.beginningSite, .complete inner] ++
      chart.boundary inner.buffer before
  | .underToken outer id _ site =>
    [.production id, .potential outer, .next outer.buffer outer.endSite (.token site),
      .available outer.buffer site] ++ chart.openingGuard outer id
  | .underMatch outer id _ inner =>
    [.production id, .potential outer, .next outer.buffer outer.endSite inner.beginningSite,
      .complete inner] ++ chart.openingGuard outer id
  | .extendToken key site =>
    [.potential key, .next key.buffer key.endSite (.token site), .available key.buffer site] ++
      chart.passingGuard key
  | .extendMatch key inner =>
    [.potential key, .next key.buffer key.endSite inner.beginningSite, .complete inner] ++
      chart.passingGuard key
  | .skip key | .completeWording key => [.potential key]
  | .completeAtEnd key => [.potential key, .endOfSentence key.buffer key.endSite true]
  | .completeBefore key next => [.potential key, .next key.buffer key.endSite next]

/-- A production may open in a slot that accepts something from one site to another. -/
def Opens (chart : Chart) (id : ProductionId) (slot : Nat) (accepts : Slot → Bool)
    (first last : SiteInfo) : Prop :=
  ∃ production, chart.grammar.get? id = some production ∧
    slot ∈ production.openingsWhere accepts ∧ production.canReach (slot + 1) first last = true

/-- The next slot of a match accepts something that ends at a site. -/
def Fills (chart : Chart) (key : MatchKey) (accepts : Slot → Bool) (last : SiteInfo) : Prop :=
  ∃ production, chart.grammar.get? key.production = some production ∧
    (production.slot? key.slotsFilled).any accepts = true ∧
    production.canReach (key.slotsFilled + 1) (chart.info key.buffer key.beginningSite) last = true

/-- A slot that accepts the result of a match. -/
def acceptsResult (chart : Chart) (inner : MatchKey) (slot : Slot) : Bool :=
  (chart.result? inner).any slot.acceptsMatch

/-- A production can begin what a match waits for. -/
def Continues (chart : Chart) (outer : MatchKey) (id : ProductionId) : Prop :=
  ∃ wanted ∈ chart.needs outer, chart.grammar.Begins wanted id

/-- All slots of a match are filled, and it is a sentence or a passage or is neither. -/
def Filled (chart : Chart) (key : MatchKey) (endsSentences : Bool) : Prop :=
  ∃ production, chart.grammar.get? key.production = some production ∧
    production.arity ≤ key.slotsFilled ∧ production.endsSentences = endsSentences

/-- Whether there is a derivation of the form. -/
def Applies (chart : Chart) : Derivation → Prop
  | .boundaryToken buffer id slot _ site =>
    chart.grammar.BeginsSentence id ∧
      chart.Opens id slot (·.acceptsToken (chart.info buffer (.token site)))
        (chart.info buffer (.token site)) (chart.info buffer (.token site))
  | .boundaryMatch id slot _ inner =>
    chart.grammar.BeginsSentence id ∧
      chart.Opens id slot (chart.acceptsResult inner)
        (chart.info inner.buffer inner.beginningSite) (chart.info inner.buffer inner.endSite)
  | .underToken outer id slot site =>
    chart.Continues outer id ∧
      chart.Opens id slot (·.acceptsToken (chart.info outer.buffer (.token site)))
        (chart.info outer.buffer (.token site)) (chart.info outer.buffer (.token site))
  | .underMatch outer id slot inner =>
    inner.buffer = outer.buffer ∧ chart.Continues outer id ∧
      chart.Opens id slot (chart.acceptsResult inner)
        (chart.info inner.buffer inner.beginningSite) (chart.info inner.buffer inner.endSite)
  | .extendToken key site =>
    chart.Fills key (·.acceptsToken (chart.info key.buffer (.token site)))
      (chart.info key.buffer (.token site))
  | .extendMatch key inner =>
    inner.buffer = key.buffer ∧
      chart.Fills key (chart.acceptsResult inner) (chart.info inner.buffer inner.endSite)
  | .skip key => chart.Fills key (·.optional) (chart.info key.buffer key.endSite)
  | .completeWording key => chart.Filled key false
  | .completeAtEnd key => chart.Filled key true
  | .completeBefore key next =>
    chart.Filled key true ∧ chart.closesSentence key.buffer next = true

/-- The derivation table. -/
def table : Calculus Chart Fact Derivation where
  conclusion := Derivation.conclusion
  antecedents := antecedents
  Applies := Applies

end Chart

end LiveProse
