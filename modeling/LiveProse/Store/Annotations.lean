import LiveProse.Store.Bank

/-!
The facts that hold at one place. A fact of positive sense holds while it is in the bank. A fact of
negative sense holds while its marker is absent, so those that were justified are remembered by
themselves: they have to be retracted when the place goes away.
-/

namespace LiveProse

structure Annotations (α : Type) where
  positive : Bank α := {}
  markers : Bank α := {}
  /-- The facts of negative sense that were justified, each of them once. -/
  negations : List α := []
deriving Repr

namespace Annotations

variable {α : Type} [DecidableEq α]

def has (notes : Annotations α) (note : α) : Bool :=
  notes.positive.contains note

/-- Adds a fact of positive sense and says whether it did not hold before. -/
def add (notes : Annotations α) (note : α) : Annotations α × Bool :=
  let (positive, created) := notes.positive.acquire note
  ({ notes with positive }, created)

/-- Takes a fact of positive sense away once and says whether that made an end of it. -/
def remove (notes : Annotations α) (note : α) : Annotations α × Bool :=
  let (positive, left) := notes.positive.release? note
  ({ notes with positive }, left = some 0)

/-- The facts of positive sense of a kind. -/
def ofKind {κ : Type} [DecidableEq κ] (notes : Annotations α) (kind : α → κ) (wanted : κ) :
    List α :=
  notes.positive.ofKind kind wanted

def holdsNegation (notes : Annotations α) (note : α) : Bool :=
  !notes.markers.contains note

/-- Takes the marker of a fact away and says whether that made the fact hold. -/
def justifyNegation (notes : Annotations α) (note : α) : Annotations α × Bool :=
  let (markers, left) := notes.markers.release? note
  ({ notes with markers, negations := notes.negations.insert note }, left = some 0)

/-- Puts a marker on a fact and says whether the fact held before. -/
def unjustifyNegation (notes : Annotations α) (note : α) : Annotations α × Bool :=
  if notes.markers.contains note then (notes, false)
  else
    ({ notes with
        markers := (notes.markers.acquire note).1
        negations := notes.negations.erase note }, true)

/-- Puts a marker on a fact, whatever it was, and forgets that it was justified. -/
def withhold (notes : Annotations α) (note : α) : Annotations α :=
  { notes with
    markers := if notes.markers.contains note then notes.markers
      else (notes.markers.acquire note).1
    negations := notes.negations.erase note }

/-- Every fact that was justified here. -/
def justified (notes : Annotations α) : List α :=
  notes.positive.toList ++ notes.negations

/-- Whether no fact of positive sense holds. -/
def isEmpty (notes : Annotations α) : Bool :=
  notes.positive.isEmpty

end Annotations

end LiveProse
