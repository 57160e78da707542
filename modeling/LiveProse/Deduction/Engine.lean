/-!
The engine keeps a store of facts in step with what follows from them. The store says what holds and
what a fact leads to; the engine decides in which order facts change, so that every derivation is
counted once when it comes to hold and uncounted once when it stops.

A run goes in one direction. A fact that has changed puts its consequences in front of the facts
that wait, and they follow in the order in which the store lists them.
-/

namespace LiveProse

/-- How a fact comes to be true. -/
inductive FactKind where
  /-- True when it is observed. -/
  | observation
  /-- True as long as some derivation of it holds. -/
  | deduction
  /-- One of two observations of which at most one is true. -/
  | combined
deriving DecidableEq, Repr

inductive Direction where
  | justify
  | unjustify
deriving DecidableEq, Repr

def Direction.name : Direction → String
  | justify => "justify"
  | unjustify => "unjustify"

/-- A store `σ` of facts `φ`. -/
class Deductive (σ : Type) (φ : outParam Type) where
  kind : σ → φ → FactKind
  holds : σ → φ → Bool
  /-- The other sense of a combined fact. -/
  counterpart? : σ → φ → Option φ
  /-- Makes a fact true, or counts one more derivation of it. The flag tells whether its truth
  changed. -/
  justify : σ → φ → σ × Bool
  /-- Makes a fact false, or counts one derivation less of it. The flag tells whether its truth
  changed. -/
  unjustify : σ → φ → σ × Bool
  /-- What the derivations conclude that have the fact among their antecedents and whose other
  antecedents hold, once for each derivation. -/
  consequences : σ → φ → List φ
  /-- No run changes the truth of more facts than this. -/
  bound : σ → Nat

/-- What the engine has done so far. -/
structure DerivationStats where
  justified : Nat := 0
  unjustified : Nat := 0
  enumerated : Nat := 0
  transitions : Nat := 0
deriving DecidableEq, Repr

namespace DerivationStats

/-- The number of steps in both directions. -/
def steps (stats : DerivationStats) : Nat :=
  stats.justified + stats.unjustified

def display (stats : DerivationStats) : String :=
  toString stats.justified ++ " justified, " ++ toString stats.unjustified ++ " unjustified, " ++
    toString stats.enumerated ++ " enumerated, " ++ toString stats.transitions ++ " transitions"

/-- Counts a step. -/
def addStep (stats : DerivationStats) : Direction → DerivationStats
  | .justify => { stats with justified := stats.justified + 1 }
  | .unjustify => { stats with unjustified := stats.unjustified + 1 }

/-- Counts a change of truth that led to some consequences. -/
def addTransition (stats : DerivationStats) (consequences : Nat) : DerivationStats :=
  { stats with
    enumerated := stats.enumerated + consequences
    transitions := stats.transitions + 1 }

end DerivationStats

/-- The engine holds no facts, only its statistics. -/
structure Engine where
  stats : DerivationStats := {}
  /-- Whether the engine counts what it does. -/
  collecting : Bool := true
deriving DecidableEq, Repr

namespace Engine

variable {σ φ : Type} [Deductive σ φ]

/-- Changes the statistics if they are collected. -/
def record (engine : Engine) (change : DerivationStats → DerivationStats) : Engine :=
  if engine.collecting then { engine with stats := change engine.stats } else engine

/-- Changes a fact in a direction. -/
def change (direction : Direction) (store : σ) (fact : φ) : σ × Bool :=
  match direction with
  | .justify => Deductive.justify store fact
  | .unjustify => Deductive.unjustify store fact

/-- Takes waiting facts until one of them changes its truth. Answers that fact and those that still
wait. -/
def settle (direction : Direction) : Engine → σ → List φ → Engine × σ × Option (φ × List φ)
  | engine, store, [] => (engine, store, none)
  | engine, store, fact :: waiting =>
    let engine := engine.record (·.addStep direction)
    match change direction store fact with
    | (store, true) => (engine, store, some (fact, waiting))
    | (store, false) => settle direction engine store waiting

/-- Runs in one direction until nothing waits, through at most `budget` changes of truth. Answers
what still waits, which is nothing if the budget was more than the store's bound. -/
def run (direction : Direction) : Nat → Engine → σ → List φ → Engine × σ × List φ
  | 0, engine, store, waiting => (engine, store, waiting)
  | budget + 1, engine, store, waiting =>
    match settle direction engine store waiting with
    | (engine, store, none) => (engine, store, [])
    | (engine, store, some (fact, waiting)) =>
      let consequences := Deductive.consequences store fact
      run direction budget (engine.record (·.addTransition consequences.length)) store
        (consequences ++ waiting)

/-- Changes a fact in a direction, and all that depends on it. -/
def propagate (direction : Direction) (engine : Engine) (store : σ) (fact : φ) : Engine × σ :=
  let (engine, store, _) := run direction (Deductive.bound store + 1) engine store [fact]
  (engine, store)

/-- Makes a fact true. The other sense of a combined fact is made false first. -/
def justify (engine : Engine) (store : σ) (fact : φ) : Engine × σ :=
  let other := if Deductive.kind store fact = .combined then Deductive.counterpart? store fact
    else none
  match other.filter (Deductive.holds store) with
  | some other =>
    let (engine, store) := propagate .unjustify engine store other
    propagate .justify engine store fact
  | none => propagate .justify engine store fact

/-- Makes a fact false. -/
def unjustify (engine : Engine) (store : σ) (fact : φ) : Engine × σ :=
  propagate .unjustify engine store fact

/-- Makes every one of the facts false that holds when its turn comes, deductions apart. -/
def forceFalse (engine : Engine) (store : σ) (facts : List φ) : Engine × σ :=
  facts.foldl (fun (engine, store) fact =>
    if Deductive.kind store fact ≠ .deduction ∧ Deductive.holds store fact then
      propagate .unjustify engine store fact
    else (engine, store)) (engine, store)

/-- The engine with its statistics set back. -/
def resetStats (engine : Engine) : Engine :=
  { engine with stats := {} }

end Engine

end LiveProse
