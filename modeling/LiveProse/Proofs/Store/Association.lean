import Mathlib.Data.List.Nodup

/-! Association lists whose keys are distinct: looking up a key is finding its pair. -/

namespace LiveProse

variable {κ ν : Type} [DecidableEq κ]

theorem lookup_eq_some_iff_mem {pairs : List (κ × ν)} (h : (pairs.map Prod.fst).Nodup) {key : κ}
    {value : ν} : pairs.lookup key = some value ↔ (key, value) ∈ pairs := by
  induction pairs with
  | nil => simp
  | cons pair rest ih =>
    obtain ⟨other, old⟩ := pair
    rw [List.map_cons, List.nodup_cons] at h
    by_cases hkey : key = other
    · subst hkey
      have hrest : (key, value) ∉ rest := fun hmem => h.1 (List.mem_map.2 ⟨_, hmem, rfl⟩)
      simp [hrest, eq_comm]
    · have : (key == other) = false := by simpa using hkey
      simp [List.lookup_cons, this, ih h.2, hkey]

theorem lookup_isSome_iff {pairs : List (κ × ν)} {key : κ} :
    (pairs.lookup key).isSome = true ↔ key ∈ pairs.map Prod.fst := by
  induction pairs with
  | nil => simp
  | cons pair rest ih =>
    obtain ⟨other, old⟩ := pair
    by_cases hkey : key = other
    · simp [hkey]
    · have : (key == other) = false := by simpa using hkey
      simp only [List.lookup_cons, this, ih, List.map_cons, List.mem_cons, hkey, false_or]

theorem lookup_filter (p : κ → Bool) (pairs : List (κ × ν)) (key : κ) :
    (pairs.filter fun (other, _) => p other).lookup key = if p key then pairs.lookup key else none := by
  induction pairs with
  | nil => simp
  | cons pair rest ih =>
    obtain ⟨other, value⟩ := pair
    rw [List.filter_cons]
    by_cases hkey : key = other
    · subst hkey
      split_ifs with hp
      · simp
      · rw [ih, if_neg hp]
    · have hne : (key == other) = false := by simpa using hkey
      split_ifs with hother hp hp <;> simp [List.lookup_cons, hne, ih, hp]

end LiveProse
