import LiveProse.Grammar.UnitCycle

/-!
The grammar holds the defined productions and answers what the parser keeps asking: which
productions can begin with something, and which can begin a match that a slot waits for. The latter
are the left-corner closure of what the slot asks for, and are worked out anew whenever a production
comes or goes.
-/

namespace LiveProse

/-- Why a production cannot be added or removed. -/
inductive GrammarError where
  | emptyProduction
  | emptySlot (slot : Nat)
  | epsilonOnly
  | unitCycle (name : Text)
  | duplicateProduction (existing : ProductionId)
  | unknownProduction (id : ProductionId)
deriving DecidableEq, Repr

def GrammarError.message : GrammarError → String
  | emptyProduction => "production has no slots"
  | emptySlot slot => "slot " ++ toString slot ++ " accepts nothing"
  | epsilonOnly => "production accepts only epsilon"
  | unitCycle name =>
    "production would let `" ++ String.ofList name ++ "` derive itself over the same span"
  | duplicateProduction existing => "production is already defined as " ++ existing.display
  | unknownProduction id => "no production " ++ id.display ++ " is defined"

/-- The defined productions and their indices. -/
structure Grammar where
  /-- The production of every number given out so far, unless it has been removed. -/
  productions : List (Option Production) := []
  /-- The number of each defined production. -/
  ids : PairIndex Production ProductionId := {}
  byBeginning : PairIndex ParsemeKey ProductionId := {}
  byResult : PairIndex Word ProductionId := {}
  /-- For every nonterminal that some slot asks for, what can begin a match of it. -/
  closures : List (Nonterminal × List ProductionId) := []
  /-- The closures that a production is in. -/
  ancestors : PairIndex ProductionId Nonterminal := {}
  /-- The productions that can begin at a sentence boundary. -/
  sentenceBeginnings : List ProductionId := []

namespace Grammar

/-- The production of an id. -/
def get? (grammar : Grammar) (id : ProductionId) : Option Production :=
  (grammar.productions[id.number]?).join

/-- The defined productions in the order of definition. -/
def toList (grammar : Grammar) : List (ProductionId × Production) :=
  grammar.productions.zipIdx.filterMap fun (production, number) =>
    production.map fun production => (⟨number⟩, production)

/-- The number of defined productions. -/
def size (grammar : Grammar) : Nat :=
  grammar.ids.size

def isEmpty (grammar : Grammar) : Bool :=
  grammar.ids.isEmpty

/-- The id of a production equal to this one. -/
def find? (grammar : Grammar) (production : Production) : Option ProductionId :=
  (grammar.ids.get production).head?

def beginningWith (grammar : Grammar) (key : ParsemeKey) : List ProductionId :=
  grammar.byBeginning.get key

def resultingIn (grammar : Grammar) (name : Word) : List ProductionId :=
  grammar.byResult.get name

def canBeginSentence (grammar : Grammar) (id : ProductionId) : Bool :=
  grammar.sentenceBeginnings.contains id

/-- The productions that can begin a match for a slot that asks for a nonterminal. -/
def additionalBeginnings (grammar : Grammar) (wanted : Nonterminal) : List ProductionId :=
  (grammar.closures.lookup wanted).getD []

/-- Whether a production can begin what another one waits for in a slot. -/
def continues (grammar : Grammar) (production : Production) (slot : Nat)
    (candidate : ProductionId) : Bool :=
  (production.slot? slot).any fun slot =>
    slot.needs.any fun wanted => (grammar.additionalBeginnings wanted).contains candidate

/-- The productions that can begin what a production waits for in a slot. -/
def continuingBeginnings (grammar : Grammar) (production : Production) (slot : Nat) :
    List ProductionId :=
  ProductionId.sorted
    (((production.slot? slot).map (·.needs)).getD [] |>.flatMap grammar.additionalBeginnings)

/-! ### Closures -/

/-- A search for the productions that can begin a match of some requirements. -/
structure Closing where
  /-- The requirements still to be looked at. The one that came last is the first to be taken. -/
  waiting : List Nonterminal
  /-- Every requirement that ever waited. -/
  asked : List Nonterminal
  /-- The productions that were reached so far, each of them once. -/
  found : List ProductionId := []

/-- Lets a requirement wait, unless it did so before. -/
def Closing.ask (closing : Closing) (wanted : Nonterminal) : Closing :=
  if closing.asked.contains wanted then closing
  else { closing with
    waiting := wanted :: closing.waiting
    asked := wanted :: closing.asked }

/-- Reaches a production whose result a requirement accepts, unless it was reached before, and asks
for its left corners. -/
def reach (grammar : Grammar) (wanted : Nonterminal) (closing : Closing) (id : ProductionId) :
    Closing :=
  match grammar.get? id with
  | none => closing
  | some production =>
    if !wanted.accepts production.result || closing.found.contains id then closing
    else production.leftCorners.foldl Closing.ask { closing with found := id :: closing.found }

/-- Takes requirements, at most as many as the budget, and reaches what they accept until none
waits. -/
def closeOver (grammar : Grammar) : Nat → Closing → Closing
  | 0, closing => closing
  | budget + 1, closing =>
    match closing.waiting with
    | [] => closing
    | wanted :: waiting =>
      grammar.closeOver budget
        ((grammar.resultingIn wanted.name).foldl (grammar.reach wanted) { closing with waiting })

/-- The left corners of all defined productions. -/
def allLeftCorners (grammar : Grammar) : List Nonterminal :=
  grammar.toList.flatMap fun (_, production) => production.leftCorners

/-- The productions that some requirements accept, with those that can begin them. No requirement
but these and the left corners is ever taken, and only these may be taken more than once. -/
def closure (grammar : Grammar) (roots : List Nonterminal) : List ProductionId :=
  (grammar.closeOver (roots.length + grammar.allLeftCorners.length)
    ⟨roots.reverse, roots, []⟩).found

/-- The defined productions that can begin a match of a production, directly or through others. The
production itself is among them only if it is defined and left-recursive. -/
def leftCornerDescendants (grammar : Grammar) (production : Production) : List ProductionId :=
  ProductionId.sorted (grammar.closure production.leftCorners)

/-- A production with its left-corner descendants: all whose derivations change when it comes or
goes. -/
def relyingOn (grammar : Grammar) (crux : ProductionId) :
    Except GrammarError (List ProductionId) :=
  match grammar.get? crux with
  | some production =>
    .ok (ProductionId.sorted (crux :: grammar.leftCornerDescendants production))
  | none => .error (.unknownProduction crux)

/-- Works out the indices that depend on more than one production. -/
def rebuild (grammar : Grammar) : Grammar :=
  let defined := grammar.toList
  let wanted := (defined.flatMap fun (_, production) =>
    production.slots.flatMap (·.needs)).eraseDups
  let closures := wanted.map fun wanted => (wanted, grammar.closure [wanted])
  let ancestors := closures.foldl (fun index (wanted, closure) =>
    closure.foldl (·.insert · wanted) index) {}
  let sentenceBeginnings := (defined.flatMap fun (id, production) =>
    if production.endsSentences then id :: grammar.leftCornerDescendants production
    else []).eraseDups
  { grammar with closures, ancestors, sentenceBeginnings }

/-! ### Changes -/

/-- Checks that a production could be defined. The first fault is reported. -/
def validate (grammar : Grammar) (production : Production) (vocabulary : Vocabulary) :
    Except GrammarError Unit :=
  if production.slots.isEmpty then .error .emptyProduction
  else match production.slots.findIdx? (·.isEmpty) with
  | some slot => .error (.emptySlot slot)
  | none =>
    if !production.hasContent then .error .epsilonOnly
    else match grammar.find? production with
    | some existing => .error (.duplicateProduction existing)
    | none => match UnitCycle.find? (grammar.toList.map (·.2) ++ [production]) with
      | some name => .error (.unitCycle (vocabulary.lookup name))
      | none => .ok ()

/-- Defines a production that is known to be valid. -/
def define (grammar : Grammar) (production : Production) : Grammar × ProductionId :=
  let id : ProductionId := ⟨grammar.productions.length⟩
  let keys := production.beginnings.filterMap (·.key?)
  let grammar := { grammar with
    productions := grammar.productions ++ [some production]
    ids := grammar.ids.insert production id
    byBeginning := keys.foldl (·.insert · id) grammar.byBeginning
    byResult := grammar.byResult.insert production.result.name id }
  (grammar.rebuild, id)

/-- Removes a production. -/
def undefine (grammar : Grammar) (id : ProductionId) : Except GrammarError (Grammar × Production) :=
  match grammar.get? id with
  | some production =>
    let keys := production.beginnings.filterMap (·.key?)
    let grammar := { grammar with
      productions := grammar.productions.set id.number none
      ids := grammar.ids.remove production id
      byBeginning := keys.foldl (·.remove · id) grammar.byBeginning
      byResult := grammar.byResult.remove production.result.name id }
    .ok (grammar.rebuild, production)
  | none => .error (.unknownProduction id)

end Grammar

end LiveProse
