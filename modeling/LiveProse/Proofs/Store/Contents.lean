import LiveProse.Store.Annotations
import LiveProse.Store.PairIndex
import Mathlib.Data.List.Nodup

/-! What indices and the facts at a place contain after each change. -/

namespace LiveProse

theorem nodup_eraseDups {α : Type} [DecidableEq α] : ∀ l : List α, l.eraseDups.Nodup
  | [] => by simp
  | a :: l => by
    rw [List.eraseDups_cons, List.nodup_cons]
    exact ⟨by simp, nodup_eraseDups _⟩
termination_by l => l.length
decreasing_by exact Nat.lt_succ_of_le (List.length_filter_le _ _)

namespace PairIndex

variable {κ ν α : Type} [DecidableEq κ] [DecidableEq ν] {index : PairIndex κ ν}

@[simp] theorem mem_insert {key : κ} {value : ν} {pair : κ × ν} :
    pair ∈ (index.insert key value).pairs ↔ pair = (key, value) ∨ pair ∈ index.pairs := by
  rw [insert]
  split_ifs with h
  · refine ⟨.inr, ?_⟩
    rintro (rfl | hmem)
    · exact List.contains_iff_mem.1 h
    · exact hmem
  · exact List.mem_cons

theorem nodup_insert (h : index.pairs.Nodup) (key : κ) (value : ν) :
    (index.insert key value).pairs.Nodup := by
  rw [insert]
  split_ifs with hmem
  · exact h
  · exact List.nodup_cons.2 ⟨fun hin => hmem (List.contains_iff_mem.2 hin), h⟩

theorem mem_remove (h : index.pairs.Nodup) {key : κ} {value : ν} {pair : κ × ν} :
    pair ∈ (index.remove key value).pairs ↔ pair ≠ (key, value) ∧ pair ∈ index.pairs :=
  h.mem_erase_iff

theorem nodup_remove (h : index.pairs.Nodup) (key : κ) (value : ν) :
    (index.remove key value).pairs.Nodup :=
  h.erase _

theorem mem_insertAll (f : α → κ) (g : α → ν) (xs : List α) {pair : κ × ν} :
    pair ∈ (xs.foldl (fun index x => index.insert (f x) (g x)) index).pairs ↔
      (∃ x ∈ xs, pair = (f x, g x)) ∨ pair ∈ index.pairs := by
  induction xs generalizing index with
  | nil => simp
  | cons x xs ih =>
    rw [List.foldl_cons, ih, mem_insert]
    simp only [List.mem_cons, exists_eq_or_imp]
    constructor
    · rintro (h | h | h)
      · exact .inl (.inr h)
      · exact .inl (.inl h)
      · exact .inr h
    · rintro ((h | h) | h)
      · exact .inr (.inl h)
      · exact .inl h
      · exact .inr (.inr h)

theorem nodup_insertAll (f : α → κ) (g : α → ν) (xs : List α) (h : index.pairs.Nodup) :
    (xs.foldl (fun index x => index.insert (f x) (g x)) index).pairs.Nodup := by
  induction xs generalizing index with
  | nil => exact h
  | cons x xs ih => exact ih (nodup_insert h _ _)

theorem nodup_removeAll (f : α → κ) (g : α → ν) (xs : List α) (h : index.pairs.Nodup) :
    (xs.foldl (fun index x => index.remove (f x) (g x)) index).pairs.Nodup := by
  induction xs generalizing index with
  | nil => exact h
  | cons x xs ih => exact ih (nodup_remove h _ _)

theorem mem_removeAll (f : α → κ) (g : α → ν) (xs : List α) (h : index.pairs.Nodup)
    {pair : κ × ν} :
    pair ∈ (xs.foldl (fun index x => index.remove (f x) (g x)) index).pairs ↔
      (∀ x ∈ xs, pair ≠ (f x, g x)) ∧ pair ∈ index.pairs := by
  induction xs generalizing index with
  | nil => simp
  | cons x xs ih =>
    rw [List.foldl_cons, ih (nodup_remove h _ _), mem_remove h]
    simp only [List.mem_cons, forall_eq_or_imp]
    tauto

omit [DecidableEq ν] in
theorem nodup_get (h : index.pairs.Nodup) (key : κ) : (index.get key).Nodup := by
  refine h.filterMap ?_
  rintro ⟨k, v⟩ ⟨k', v'⟩ w hw hw'
  simp only [Option.mem_def, Option.ite_none_right_eq_some, Option.some.injEq] at hw hw'
  rw [hw.1, hw'.1, hw.2, hw'.2]

end PairIndex

namespace Bank

variable {α : Type} [DecidableEq α] {bank : Bank α} {value : α}

@[simp] theorem mem_toList : value ∈ bank.toList ↔ bank.contains value = true := by
  simp [toList, contains]

theorem nodup_toList (bank : Bank α) : bank.toList.Nodup :=
  nodup_eraseDups _

@[simp] theorem contains_acquire {other : α} :
    (bank.acquire value).1.contains other = true ↔ other = value ∨ bank.contains other = true := by
  simp [acquire, contains]

/-- Releasing a value that is there ends its stay if it was there once. -/
theorem release?_eq_zero : (bank.release? value).2 = some 0 ↔ bank.count value = 1 := by
  rw [release?]
  split_ifs with h
  · have hpos := (bank.contains_iff_count_pos value).1 h
    simp only [Option.some.injEq, count_release, if_true]
    omega
  · have hzero : ¬0 < bank.count value := fun hpos => h ((bank.contains_iff_count_pos value).2 hpos)
    simp only [false_iff]
    omega

theorem count_release? {other : α} :
    (bank.release? value).1.count other = bank.count other - if value = other then 1 else 0 := by
  rw [release?]
  split_ifs with h heq heq
  · rw [count_release, if_pos heq]
  · rw [count_release, if_neg heq]
  · subst heq
    have hzero : ¬0 < bank.count value := fun hpos => h ((bank.contains_iff_count_pos value).2 hpos)
    change bank.count value = _
    omega
  · rfl

theorem count_acquire_of_ne {other : α} (h : other ≠ value) :
    (bank.acquire value).1.count other = bank.count other := by
  rw [count_acquire, if_neg (Ne.symm h), Nat.add_zero]

theorem count_release?_of_ne {other : α} (h : other ≠ value) :
    (bank.release? value).1.count other = bank.count other := by
  rw [count_release?, if_neg (Ne.symm h), Nat.sub_zero]

theorem contains_acquire_of_contains {other : α} (h : bank.contains value = true) :
    (bank.acquire value).1.contains other = bank.contains other := by
  rw [Bool.eq_iff_iff, contains_acquire, or_iff_right_of_imp]
  rintro rfl
  exact h

theorem contains_release?_iff {other : α} : (bank.release? value).1.contains other = true ↔
    if other = value then 1 < bank.count value else bank.contains other = true := by
  rw [contains_iff_count_pos, count_release?]
  split_ifs with hvalue hother hother
  · rw [hother]
    omega
  · exact absurd hvalue.symm hother
  · exact absurd hother.symm hvalue
  · rw [Nat.sub_zero, contains_iff_count_pos]

/-- Releasing a value for the last time ends its stay, and no other. -/
theorem contains_release?_of_last {other : α} (hlast : (bank.release? value).2 = some 0) :
    (bank.release? value).1.contains other = true ↔ other ≠ value ∧ bank.contains other = true := by
  rw [contains_release?_iff]
  split_ifs with hother
  · simp [hother, release?_eq_zero.1 hlast]
  · simp [hother]

/-- A value that was there more than once stays. -/
theorem contains_release?_of_more {other : α} (hcount : 0 < bank.count value)
    (hmore : (bank.release? value).2 ≠ some 0) :
    (bank.release? value).1.contains other = bank.contains other := by
  have hne : bank.count value ≠ 1 := fun hone => hmore (release?_eq_zero.2 hone)
  rw [Bool.eq_iff_iff, contains_release?_iff]
  split_ifs with hother
  · rw [hother]
    exact iff_of_true (by omega) ((bank.contains_iff_count_pos value).2 hcount)
  · rfl

end Bank

end LiveProse
