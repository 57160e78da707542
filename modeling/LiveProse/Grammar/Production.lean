import LiveProse.Site

/-!
Productions: a result and a row of slots, each of which lists what it accepts.
-/

namespace LiveProse

/-- A name at a tier. As a requirement it accepts results of the same name at a tier at least as
high. -/
structure Nonterminal where
  name : Word
  tier : Nat
deriving DecidableEq, Repr

def Nonterminal.accepts (wanted result : Nonterminal) : Bool :=
  wanted.name = result.name && wanted.tier ≤ result.tier

/-- One thing that a slot can accept. -/
inductive Parseme where
  /-- Nothing: the slot may be skipped. -/
  | epsilon
  /-- A token with exactly this text. -/
  | token (text : Word)
  | digits
  | word
  | nameWord
  | sentenceEnd
  | nonterminal (wanted : Nonterminal)
deriving DecidableEq, Repr

/-- A parseme without its tier, to file things under. -/
inductive ParsemeKey where
  | token (text : Word)
  | digits
  | word
  | nameWord
  | sentenceEnd
  | nonterminal (name : Word)
deriving DecidableEq, Repr

namespace Parseme

def acceptsToken (parseme : Parseme) (info : SiteInfo) : Bool :=
  match parseme with
  | token text => info.text = some text
  | digits => info.traits.digits
  | word => info.traits.word
  | nameWord => info.traits.nameWord
  | sentenceEnd => info.traits.sentenceEnd
  | epsilon | nonterminal _ => false

def acceptsMatch (parseme : Parseme) (result : Nonterminal) : Bool :=
  match parseme with
  | nonterminal wanted => wanted.accepts result
  | _ => false

/-- The nonterminal that is wanted. -/
def wanted? : Parseme → Option Nonterminal
  | nonterminal wanted => some wanted
  | _ => none

def key? : Parseme → Option ParsemeKey
  | epsilon => none
  | token text => some (.token text)
  | digits => some .digits
  | word => some .word
  | nameWord => some .nameWord
  | sentenceEnd => some .sentenceEnd
  | nonterminal wanted => some (.nonterminal wanted.name)

end Parseme

/-- The keys that a token is filed under. -/
def ParsemeKey.ofToken (info : SiteInfo) : List ParsemeKey :=
  (info.text.map ParsemeKey.token).toList ++
  (if info.traits.digits then [.digits] else []) ++
  (if info.traits.word then [.word] else []) ++
  (if info.traits.nameWord then [.nameWord] else []) ++
  (if info.traits.sentenceEnd then [.sentenceEnd] else [])

/-- A choice of parsemes. -/
structure Slot where
  /-- What the slot accepts when it is not skipped, each of them once. -/
  alternatives : List Parseme := []
  optional : Bool := false
deriving DecidableEq, Repr

namespace Slot

/-- Lets the slot accept one thing more. -/
def add (slot : Slot) (parseme : Parseme) : Slot :=
  if parseme = .epsilon then { slot with optional := true }
  else if slot.alternatives.contains parseme then slot
  else { slot with alternatives := slot.alternatives ++ [parseme] }

def ofList (parsemes : List Parseme) : Slot :=
  parsemes.foldl add {}

def acceptsToken (slot : Slot) (info : SiteInfo) : Bool :=
  slot.alternatives.any (·.acceptsToken info)

def acceptsMatch (slot : Slot) (result : Nonterminal) : Bool :=
  slot.alternatives.any (·.acceptsMatch result)

/-- The nonterminals that the slot waits for. -/
def needs (slot : Slot) : List Nonterminal :=
  slot.alternatives.filterMap (·.wanted?)

/-- Whether nothing fits the slot, not even a skip. -/
def isEmpty (slot : Slot) : Bool :=
  slot.alternatives.isEmpty && !slot.optional

end Slot

/-- Where a production may match. -/
inductive ProductionVariant where
  /-- Anywhere inside one sentence. -/
  | subsentence
  /-- Inside one sentence, from plain prose to plain prose. -/
  | wording
  /-- Like a wording, between sentence boundaries. -/
  | sentence
  /-- Sentences in a row. -/
  | passage
deriving DecidableEq, Repr

namespace ProductionVariant

def all : List ProductionVariant := [subsentence, wording, sentence, passage]

def name : ProductionVariant → String
  | subsentence => "subsentence"
  | wording => "wording"
  | sentence => "sentence"
  | passage => "passage"

end ProductionVariant

/-- A result and the slots that produce it. -/
structure Production where
  variant : ProductionVariant
  result : Nonterminal
  slots : List Slot
deriving DecidableEq, Repr

namespace Production

/-- The production whose slots accept the parsemes of a row of lists. -/
def ofLists (variant : ProductionVariant) (result : Nonterminal) (slots : List (List Parseme)) :
    Production :=
  ⟨variant, result, slots.map Slot.ofList⟩

/-- The number of slots. -/
def arity (production : Production) : Nat :=
  production.slots.length

/-- The slot at an index. -/
def slot? (production : Production) (index : Nat) : Option Slot :=
  production.slots[index]?

/-- The number of leading slots that may be skipped. -/
def epsilonPrefix (production : Production) : Nat :=
  (production.slots.takeWhile (·.optional)).length

def isPassage (production : Production) : Bool :=
  production.variant = .passage

/-- Whether a complete match has to stand in front of a sentence boundary. -/
def endsSentences (production : Production) : Bool :=
  production.variant = .sentence || production.variant = .passage

/-- The slots that a match may begin in: the first that cannot be skipped and all before it. -/
def openingSlots (production : Production) : List Slot :=
  production.slots.take (production.epsilonPrefix + 1)

/-- What a match can begin with. -/
def beginnings (production : Production) : List Parseme :=
  production.openingSlots.flatMap (·.alternatives)

/-- The nonterminals that a match can begin with. -/
def leftCorners (production : Production) : List Nonterminal :=
  production.beginnings.filterMap (·.wanted?)

/-- The indices of the opening slots that satisfy a condition. -/
def openingsWhere (production : Production) (accepts : Slot → Bool) : List Nat :=
  (List.range production.openingSlots.length).filter fun index =>
    (production.slots[index]?).any accepts

def openingsForToken (production : Production) (info : SiteInfo) : List Nat :=
  production.openingsWhere (·.acceptsToken info)

def openingsForMatch (production : Production) (result : Nonterminal) : List Nat :=
  production.openingsWhere (·.acceptsMatch result)

/-- Whether a match with a number of filled slots may run from one token to another. All but
subsentences begin in prose, and end there once they are complete. -/
def canReach (production : Production) (filled : Nat) (first last : SiteInfo) : Bool :=
  production.variant = .subsentence ||
    (first.traits.prose && (filled < production.arity || last.traits.prose))

/-- Whether some slot accepts more than a skip. -/
def hasContent (production : Production) : Bool :=
  production.slots.any fun slot => !slot.alternatives.isEmpty

/-- The names that the production can turn into its result without taking in anything else: those
of a slot all of whose siblings may be skipped. -/
def unitTargets (production : Production) : List Word :=
  (List.range production.arity).flatMap fun index =>
    if (production.slots.eraseIdx index).all (·.optional) then
      ((production.slots[index]?).map fun slot => slot.needs.map (·.name)).getD []
    else []

end Production

/-- The number of a production. A number is given out once. -/
structure ProductionId where
  number : Nat
deriving DecidableEq, Repr

namespace ProductionId

def display (id : ProductionId) : String := "p" ++ toString id.number

/-- The ids in increasing order, each of them once. -/
def sorted (ids : List ProductionId) : List ProductionId :=
  ids.eraseDups.mergeSort fun a b => a.number ≤ b.number

end ProductionId

end LiveProse
