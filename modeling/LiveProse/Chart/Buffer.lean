import LiveProse.Chart.Fact
import LiveProse.Relex
import LiveProse.Store.Annotations
import LiveProse.Store.PairIndex

/-!
Buffers: the tokens of a text, a record for each of its sites, and the matches found in it with the
indices over them.
-/

namespace LiveProse

/-- What the client says that a buffer holds. -/
inductive BufferKind where
  | undecided
  | story
  | extension (includableFileName : Text)
deriving DecidableEq, Repr

def BufferKind.display : BufferKind → Text
  | undecided => "undecided".toList
  | story => "story".toList
  | extension name => "extension ".toList ++ name

/-- What is known about a site and the facts that hold there. -/
structure SiteRecord where
  info : SiteInfo
  facts : Annotations Fact := {}
deriving Repr

structure Buffer where
  id : BufferId
  kind : BufferKind
  tokens : TokenSequence := {}
  /-- One record for each sentinel and each significant token. -/
  records : List (Site × SiteRecord) := [(.start, ⟨.sentinel, {}⟩), (.finish, ⟨.sentinel, {}⟩)]
  /-- The potential matches, counted by their derivations. -/
  potentials : Bank MatchKey := {}
  /-- The complete matches, counted by their derivations. -/
  completes : Bank MatchKey := {}
  /-- Where something begins that is filed under a key: an available token or a complete match. -/
  parsemeBeginnings : PairIndex ParsemeKey Site := {}
  /-- The sites that end a sentence. -/
  sentenceEndings : List Site := []
  /-- The potential matches whose next slot asks for a nonterminal. -/
  partialMatches : PairIndex Nonterminal MatchKey := {}

namespace Buffer

/-- The length in codepoints. -/
def length (buffer : Buffer) : Nat :=
  buffer.tokens.total.codepoints

def text (buffer : Buffer) (vocabulary : Vocabulary) : Text :=
  TokenSequence.text buffer.tokens vocabulary

/-! ### Records -/

def record? (buffer : Buffer) (site : Site) : Option SiteRecord :=
  buffer.records.lookup site

def hasRecord (buffer : Buffer) (site : Site) : Bool :=
  (buffer.record? site).isSome

/-- Changes the facts at a site that has a record. -/
def modifyFacts (buffer : Buffer) (site : Site) (change : Annotations Fact → Annotations Fact) :
    Buffer :=
  { buffer with
    records := buffer.records.map fun (other, record) =>
      (other, if other = site then { record with facts := change record.facts } else record) }

/-- Adds a fact at each of some sites. -/
def annotate (buffer : Buffer) (fact : Fact) (sites : List Site) : Buffer :=
  sites.foldl (fun buffer site => buffer.modifyFacts site fun facts => (facts.add fact).1) buffer

/-- Takes a fact away at each of some sites. -/
def unannotate (buffer : Buffer) (fact : Fact) (sites : List Site) : Buffer :=
  sites.foldl (fun buffer site => buffer.modifyFacts site fun facts => (facts.remove fact).1) buffer

/-- Whether a fact of positive sense is noted at a site. -/
def hasFact (buffer : Buffer) (site : Site) (fact : Fact) : Bool :=
  (buffer.record? site).any (·.facts.has fact)

/-- The facts of a class that are noted at a site. -/
def factsOfClass (buffer : Buffer) (site : Site) (wanted : FactClass) : List Fact :=
  ((buffer.record? site).map (·.facts.ofKind Fact.factClass wanted)).getD []

/-- Every fact that holds at a site. -/
def factsAt (buffer : Buffer) (site : Site) : List Fact :=
  ((buffer.record? site).map (·.facts.justified)).getD []

/-! ### Matches -/

/-- The number of derivations of a complete match. -/
def matchSupport (buffer : Buffer) (key : MatchKey) : Nat :=
  buffer.completes.count key

/-- The codepoints that a match covers. -/
def span? (buffer : Buffer) (key : MatchKey) : Option (Nat × Nat) := do
  let _ ← buffer.tokens.get? key.beginning
  let last ← buffer.tokens.get? key.inclusiveEnd
  let lo := TokenSequence.offset buffer.tokens (some key.beginning)
  let hi := TokenSequence.offset buffer.tokens (some key.inclusiveEnd) + last.codepoints
  return (lo, hi)

/-! ### Edits -/

/-- The nearest significant site before a position. -/
def significantBefore (buffer : Buffer) (cursor : Cursor) : Site :=
  let earlier := (buffer.tokens.handles.take (buffer.tokens.rank cursor)).reverse.map Site.token
  (earlier.find? buffer.hasRecord).getD .start

/-- The nearest significant site from a position on. -/
def significantFrom (buffer : Buffer) (cursor : Cursor) : Site :=
  let later := (buffer.tokens.handles.drop (buffer.tokens.rank cursor)).map Site.token
  (later.find? buffer.hasRecord).getD .finish

/-- What an edit does to the sites of a buffer. -/
structure Restatement where
  outcome : RelexOutcome
  /-- The sites whose records must go: those of replaced tokens, and of tokens about which other
  things are known now. -/
  retired : List Site := []
  /-- The sites that need a new record. -/
  fresh : List (Handle × SiteInfo) := []
  /-- The sites that keep their records while their successors may change. -/
  kept : List Site := []
  /-- The significant sites of the changed region in order, with one more on both sides. -/
  chain : List Site := []

namespace Restatement

/-- Takes in a token of the changed region, with what was known about it and what is known now. -/
def add (changes : Restatement) (handle : Handle) (old new : Option SiteInfo) : Restatement :=
  let site := Site.token handle
  let changes := match old, new with
    | some o, some n =>
      if o = n then { changes with kept := changes.kept ++ [site] }
      else { changes with
        retired := changes.retired ++ [site]
        fresh := changes.fresh ++ [(handle, n)] }
    | some _, none => { changes with retired := changes.retired ++ [site] }
    | none, some n => { changes with fresh := changes.fresh ++ [(handle, n)] }
    | none, none => changes
  if new.isSome then { changes with chain := changes.chain ++ [site] } else changes

/-- Which site comes after which in the changed region. -/
def edges (changes : Restatement) : List (Site × Site) :=
  changes.chain.zip changes.chain.tail

end Restatement

/-- Takes in the tokens of the changed region in order, beginning with a lexical state. -/
def restateFrom (buffer : Buffer) (vocabulary : Vocabulary) (changes : Restatement)
    (before : LexicalState) : List (Handle × Token × Bool) → Restatement
  | [] => changes
  | (handle, token, inserted) :: rest =>
    let old := if inserted then none else (buffer.record? (.token handle)).map (·.info)
    let new := SiteInfo.ofToken? token before vocabulary
    restateFrom buffer vocabulary (changes.add handle old new) (token.stateAfter before) rest

/-- Carries a plan out on the tokens and works out which sites change. The records stay as they are,
so that the facts of the retired sites can be retracted before the records go. -/
def restate (buffer : Buffer) (plan : RelexPlan) (vocabulary : Vocabulary) :
    Buffer × Vocabulary × Restatement :=
  let replaced := (plan.doomed buffer.tokens).map fun (handle, _) => Site.token handle
  let (tokens, vocabulary, outcome) := plan.apply buffer.tokens vocabulary
  let buffer := { buffer with tokens }
  let restated := outcome.restated tokens
  let inserted := outcome.inserted.filterMap fun handle =>
    (tokens.get? handle).map fun token => (handle, token, true)
  let region := inserted ++ restated.map fun (handle, token) => (handle, token, false)
  let previous := buffer.significantBefore outcome.start
  let changes : Restatement :=
    { outcome
      retired := replaced.filter buffer.hasRecord
      kept := [previous]
      chain := [previous] }
  let changes := buffer.restateFrom vocabulary changes outcome.before region
  let after := match restated.getLast? with
    | some (handle, _) => tokens.next (some handle)
    | none => outcome.stop
  let changes := { changes with chain := changes.chain ++ [buffer.significantFrom after] }
  (buffer, vocabulary, changes)

/-- The edges that lead away from a site. -/
def edgesFrom (buffer : Buffer) (site : Site) : List (Site × Site) :=
  (buffer.factsOfClass site .next).filterMap fun fact => match fact with
    | .next _ source target => if source = site then some (source, target) else none
    | _ => none

/-- Drops the records of some sites. -/
def retire (buffer : Buffer) (sites : List Site) : Buffer :=
  { buffer with records := buffer.records.filter fun (site, _) => !sites.contains site }

/-- Makes records for new sites, whose tokens are withheld at first. -/
def openSites (buffer : Buffer) (fresh : List (Handle × SiteInfo)) : Buffer :=
  { buffer with
    records := buffer.records ++ fresh.map fun (handle, info) =>
      (.token handle, ⟨info, ({} : Annotations Fact).withhold (.available buffer.id handle)⟩) }

end Buffer

end LiveProse
