/-!
Indices that file values under keys. A value is filed under a key at most once, and a key is there
as long as something is filed under it.
-/

namespace LiveProse

/-- Pairs of a key and a value, each of them once. -/
structure PairIndex (κ ν : Type) where
  pairs : List (κ × ν) := []
deriving Repr

namespace PairIndex

variable {κ ν : Type} [DecidableEq κ] [DecidableEq ν]

def contains (index : PairIndex κ ν) (key : κ) (value : ν) : Bool :=
  index.pairs.contains (key, value)

/-- Files a value under a key. -/
def insert (index : PairIndex κ ν) (key : κ) (value : ν) : PairIndex κ ν :=
  if index.contains key value then index else ⟨(key, value) :: index.pairs⟩

/-- Takes a value away from a key. -/
def remove (index : PairIndex κ ν) (key : κ) (value : ν) : PairIndex κ ν :=
  ⟨index.pairs.erase (key, value)⟩

/-- The values under a key, in no particular order. -/
def get (index : PairIndex κ ν) (key : κ) : List ν :=
  index.pairs.filterMap fun (k, value) => if k = key then some value else none

/-- The keys that something is filed under, each of them once. -/
def keys (index : PairIndex κ ν) : List κ :=
  (index.pairs.map (·.1)).eraseDups

def count (index : PairIndex κ ν) (key : κ) : Nat :=
  (index.get key).length

/-- The number of pairs. -/
def size (index : PairIndex κ ν) : Nat :=
  index.pairs.length

def isEmpty (index : PairIndex κ ν) : Bool :=
  index.pairs.isEmpty

omit [DecidableEq ν] in
theorem mem_get {index : PairIndex κ ν} {key : κ} {value : ν} :
    value ∈ index.get key ↔ (key, value) ∈ index.pairs := by
  simp only [get, List.mem_filterMap, Option.ite_none_right_eq_some, Option.some.injEq, Prod.exists]
  exact ⟨fun ⟨_, _, h, hk, hv⟩ => hk ▸ hv ▸ h, fun h => ⟨key, value, h, rfl, rfl⟩⟩

end PairIndex

end LiveProse
