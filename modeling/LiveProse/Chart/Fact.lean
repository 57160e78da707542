import LiveProse.Grammar.Production

/-!
The facts of the chart. A match is known by what it is: two derivations of the same production over
the same tokens with the same number of filled slots are derivations of one match.
-/

namespace LiveProse

/-- A production that is matched over some tokens of a buffer, possibly not to the end. -/
structure MatchKey where
  buffer : BufferId
  production : ProductionId
  slotsFilled : Nat
  /-- The first token. -/
  beginning : Handle
  /-- The last token. -/
  inclusiveEnd : Handle
deriving DecidableEq, Repr

namespace MatchKey

def beginningSite (key : MatchKey) : Site := .token key.beginning

def endSite (key : MatchKey) : Site := .token key.inclusiveEnd

/-- The sites at the two ends, once if they are one. -/
def ends (key : MatchKey) : List Site :=
  if key.inclusiveEnd = key.beginning then [key.beginningSite] else [key.beginningSite, key.endSite]

end MatchKey

inductive Fact where
  /-- The production is part of the grammar. An observation. -/
  | production (id : ProductionId)
  /-- The token may be parsed. An observation of negative sense: it holds while no marker withholds
  the token. -/
  | available (buffer : BufferId) (site : Handle)
  /-- One significant site comes right after another. An observation. -/
  | next (buffer : BufferId) (source target : Site)
  /-- Whether the site ends a sentence. The two senses are combined. -/
  | endOfSentence (buffer : BufferId) (site : Site) (positive : Bool)
  /-- The first slots of a production are filled by the tokens. A deduction. -/
  | potential (key : MatchKey)
  /-- All slots are filled, and the match may stand where it is. A deduction. -/
  | complete (key : MatchKey)
deriving DecidableEq, Repr

/-- What a fact is about. -/
inductive FactClass where
  | production
  | available
  | next
  | endOfSentence
  | potential
  | complete
deriving DecidableEq, Repr

def Fact.factClass : Fact → FactClass
  | production _ => .production
  | available _ _ => .available
  | next _ _ _ => .next
  | endOfSentence _ _ _ => .endOfSentence
  | potential _ => .potential
  | complete _ => .complete

end LiveProse
