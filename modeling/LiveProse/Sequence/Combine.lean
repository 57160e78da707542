/-!
What a sequence sums its elements with, and three simple ways of summing.
-/

namespace LiveProse

/-- A combination with a neutral element. `combine a b` means `a` followed by `b`. -/
class Combine (α : Type) where
  neutral : α
  combine : α → α → α
  /-- Whether an inserted element may be combined into a cached sum at its end, wherever in the
  sum it stands. -/
  commutative : Bool := false

/-- Elements whose running sums can be searched. -/
class Combine.Ordered (α : Type) extends Combine α where
  /-- Strictly less. Running sums never get less. -/
  precedes : α → α → Bool

/-- The laws that make cached sums independent of how they are put together. -/
class LawfulCombine (α : Type) [Combine α] : Prop where
  neutral_combine (a : α) : Combine.combine Combine.neutral a = a
  combine_neutral (a : α) : Combine.combine a Combine.neutral = a
  combine_assoc (a b c : α) :
    Combine.combine (Combine.combine a b) c = Combine.combine a (Combine.combine b c)
  combine_comm (a b : α) :
    Combine.commutative α = true → Combine.combine a b = Combine.combine b a

open Combine

/-- The elements in order, combined from the left. -/
def combineAll {α : Type} [Combine α] (elements : List α) : α :=
  elements.foldl combine neutral

/-- A number that adds up. -/
structure Tally where
  value : Nat
deriving DecidableEq, Repr

instance : Combine.Ordered Tally where
  neutral := ⟨0⟩
  combine a b := ⟨a.value + b.value⟩
  commutative := true
  precedes a b := a.value < b.value

instance : LawfulCombine Tally where
  neutral_combine a := congrArg Tally.mk (Nat.zero_add a.value)
  combine_neutral a := congrArg Tally.mk (Nat.add_zero a.value)
  combine_assoc a b c := congrArg Tally.mk (Nat.add_assoc a.value b.value c.value)
  combine_comm a b _ := congrArg Tally.mk (Nat.add_comm a.value b.value)

/-- A number of which the greatest counts. -/
structure Peak where
  value : Nat
deriving DecidableEq, Repr

instance : Combine.Ordered Peak where
  neutral := ⟨0⟩
  combine a b := ⟨max a.value b.value⟩
  commutative := true
  precedes a b := a.value < b.value

instance : LawfulCombine Peak where
  neutral_combine a := congrArg Peak.mk (Nat.zero_max a.value)
  combine_neutral a := congrArg Peak.mk (Nat.max_zero a.value)
  combine_assoc a b c := congrArg Peak.mk (Nat.max_assoc a.value b.value c.value)
  combine_comm a b _ := congrArg Peak.mk (Nat.max_comm a.value b.value)

/-- A list that is joined end to end and ordered by length. -/
structure Joined (β : Type) where
  items : List β
deriving DecidableEq, Repr

instance {β : Type} : Combine.Ordered (Joined β) where
  neutral := ⟨[]⟩
  combine a b := ⟨a.items ++ b.items⟩
  precedes a b := a.items.length < b.items.length

instance {β : Type} : LawfulCombine (Joined β) where
  neutral_combine a := congrArg Joined.mk (List.nil_append a.items)
  combine_neutral a := congrArg Joined.mk (List.append_nil a.items)
  combine_assoc a b c := congrArg Joined.mk (List.append_assoc a.items b.items c.items)
  combine_comm _ _ h := Bool.noConfusion h

end LiveProse
