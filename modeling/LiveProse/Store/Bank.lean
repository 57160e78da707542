/-!
Banks keep values with the number of times each was acquired and not yet released. A value is in the
bank as long as that number is not zero.
-/

namespace LiveProse

/-- Values with repetition. How often a value occurs is its count. -/
structure Bank (α : Type) where
  items : List α := []
deriving Repr

namespace Bank

variable {α : Type} [DecidableEq α]

def count (bank : Bank α) (value : α) : Nat :=
  bank.items.count value

def contains (bank : Bank α) (value : α) : Bool :=
  bank.items.contains value

/-- Acquires a value once more and says whether it was not there before. -/
def acquire (bank : Bank α) (value : α) : Bank α × Bool :=
  (⟨value :: bank.items⟩, !bank.contains value)

/-- Releases a value once, if it is there. -/
def release (bank : Bank α) (value : α) : Bank α :=
  ⟨bank.items.erase value⟩

/-- Releases a value once and says how often it is still there, unless it was not there at all. -/
def release? (bank : Bank α) (value : α) : Bank α × Option Nat :=
  if bank.contains value then
    let rest := bank.release value
    (rest, some (rest.count value))
  else (bank, none)

/-- The values, each of them once. -/
def toList (bank : Bank α) : List α :=
  bank.items.eraseDups

/-- The number of different values. -/
def size (bank : Bank α) : Nat :=
  bank.toList.length

def isEmpty (bank : Bank α) : Bool :=
  bank.items.isEmpty

/-- The values of a kind, each of them once. -/
def ofKind {κ : Type} [DecidableEq κ] (bank : Bank α) (kind : α → κ) (wanted : κ) : List α :=
  bank.toList.filter fun value => kind value = wanted

@[simp] theorem count_acquire (bank : Bank α) (value other : α) :
    (bank.acquire value).1.count other = bank.count other + if value = other then 1 else 0 := by
  simp [acquire, count, List.count_cons]

@[simp] theorem count_release (bank : Bank α) (value other : α) :
    (bank.release value).count other = bank.count other - if value = other then 1 else 0 := by
  simp [release, count, List.count_erase]

theorem contains_iff_count_pos (bank : Bank α) (value : α) :
    bank.contains value = true ↔ 0 < bank.count value := by
  simp [contains, count, List.count_pos_iff]

end Bank

end LiveProse
