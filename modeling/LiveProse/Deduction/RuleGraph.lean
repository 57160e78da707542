import LiveProse.Deduction.Engine
import LiveProse.Store.Bank

/-!
Rule graphs: the smallest stores of facts. Facts are names with counts, and derivations are rules
given one by one.
-/

namespace LiveProse

/-- Concludes one name from several. -/
structure Rule (ν : Type) where
  antecedents : List ν
  conclusion : ν
deriving DecidableEq, Repr

/-- Names, the rules between them, how often each is counted as true, and the changes so far, last
one first. -/
structure RuleGraph (ν : Type) where
  /-- The two senses of one question, or a name that has no other sense. -/
  pairs : List (List ν)
  deductions : List ν
  rules : List (Rule ν)
  counts : Bank ν := {}
  trace : List (Direction × ν × Bool) := []

namespace RuleGraph

variable {ν : Type} [DecidableEq ν]

def kind (graph : RuleGraph ν) (name : ν) : FactKind :=
  if graph.pairs.any (·.contains name) then .combined
  else if graph.deductions.contains name then .deduction
  else .observation

def holds (graph : RuleGraph ν) (name : ν) : Bool :=
  graph.counts.contains name

/-- The other name of the pair that the name is in. -/
def counterpart? (graph : RuleGraph ν) (name : ν) : Option ν :=
  (graph.pairs.find? (·.contains name)).bind (·.find? (· ≠ name))

/-- A name that holds is counted again only if it is deduced. -/
def justify (graph : RuleGraph ν) (name : ν) : RuleGraph ν × Bool :=
  let changed := !graph.holds name
  let counts := if changed ∨ graph.kind name = .deduction then (graph.counts.acquire name).1
    else graph.counts
  ({ graph with counts, trace := (.justify, name, changed) :: graph.trace }, changed)

def unjustify (graph : RuleGraph ν) (name : ν) : RuleGraph ν × Bool :=
  let counts := graph.counts.release name
  let changed := graph.holds name && !counts.contains name
  ({ graph with counts, trace := (.unjustify, name, changed) :: graph.trace }, changed)

/-- The conclusions of the rules that the name is an antecedent of and that lack nothing else. -/
def consequences (graph : RuleGraph ν) (name : ν) : List ν :=
  (graph.rules.filter fun rule => rule.antecedents.contains name &&
    rule.antecedents.all fun other => other = name || graph.holds other).map (·.conclusion)

/-- A run changes the fact that it begins with and after that only conclusions of rules. -/
def bound (graph : RuleGraph ν) : Nat :=
  graph.rules.length + 1

instance : Deductive (RuleGraph ν) ν where
  kind := kind
  holds := holds
  counterpart? := counterpart?
  justify := justify
  unjustify := unjustify
  consequences := consequences
  bound := bound

end RuleGraph

end LiveProse
