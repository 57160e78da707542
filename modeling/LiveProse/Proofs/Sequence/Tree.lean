import LiveProse.Sequence.SumTree
import Mathlib.Tactic

/-! Trees as lists. Every operation on a tree is one on the list of its leaves, rotations change
nothing that can be seen, and each cached sum says of the leaves to its left whatever a sum may say:
`Summary` lists what such a property has to respect. -/

namespace LiveProse

open Combine

/-- A property that ties a sum to the elements it was put together from. -/
structure Summary (α : Type) [Combine α] where
  Holds : α → List α → Prop
  neutral : Holds Combine.neutral []
  single (value : α) : Holds value [value]
  combine {a b : α} {xs ys : List α} : Holds a xs → Holds b ys → Holds (combine a b) (xs ++ ys)
  /-- Where the combination commutes, an element may be combined at the end of a sum. -/
  insert {a : α} {xs ys : List α} (value : α) : commutative α = true →
    Holds a (xs ++ ys) → Holds (Combine.combine a value) (xs ++ value :: ys)

namespace SumTree

variable {α : Type}

/-- The elements from left to right. -/
def values (tree : SumTree α) : List α := tree.entries.map (·.2)

@[simp] theorem values_leaf (name : Handle) (value : α) : (leaf name value).values = [value] := rfl

@[simp] theorem values_joint (name : Handle) (sum : α) (size : Nat) (left right : SumTree α) :
    (joint name sum size left right).values = left.values ++ right.values := by
  simp [values, entries]

@[simp] theorem length_values (tree : SumTree α) : tree.values.length = tree.entries.length := by
  simp [values]

theorem entries_ne_nil (tree : SumTree α) : tree.entries ≠ [] := by
  induction tree with
  | leaf name value => simp [entries]
  | joint name sum size left right ihl _ => simp [entries, ihl]

theorem length_entries_pos (tree : SumTree α) : 0 < tree.entries.length :=
  List.length_pos_iff.2 tree.entries_ne_nil

/-- Every joint counts its leaves. -/
def Sized : SumTree α → Prop
  | leaf _ _ => True
  | joint _ _ size left right =>
    size = left.entries.length + right.entries.length ∧ left.Sized ∧ right.Sized

theorem Sized.size_eq {tree : SumTree α} (h : tree.Sized) : tree.size = tree.entries.length := by
  cases tree with
  | leaf name value => rfl
  | joint name sum count left right => simp [size, entries, h.1]

/-! ### Reading -/

theorem get?_eq_lookup (tree : SumTree α) (handle : Handle) :
    tree.get? handle = tree.entries.lookup handle := by
  induction tree with
  | leaf name value =>
    by_cases h : name = handle
    · simp [get?, entries, h]
    · have : (handle == name) = false := by simpa using fun h' => h h'.symm
      simp [get?, entries, h, List.lookup_cons, this]
  | joint name sum size left right ihl ihr =>
    simp [get?, entries, ihl, ihr, List.lookup_append]

theorem rank?_eq_findIdx? {tree : SumTree α} (h : tree.Sized) (handle : Handle) :
    tree.rank? handle = tree.entries.findIdx? (·.1 = handle) := by
  induction tree with
  | leaf name value => simp [rank?, entries, List.findIdx?_cons]
  | joint name sum size left right ihl ihr =>
    obtain ⟨-, hl, hr⟩ := h
    simp only [rank?, entries, ihl hl, ihr hr, hl.size_eq, List.findIdx?_append]
    simp only [Nat.add_comm]

theorem nth?_eq_getElem? {tree : SumTree α} (h : tree.Sized) (rank : Nat) :
    tree.nth? rank = (tree.entries[rank]?).map (·.1) := by
  induction tree generalizing rank with
  | leaf name value => cases rank <;> simp [nth?, entries]
  | joint name sum size left right ihl ihr =>
    obtain ⟨-, hl, hr⟩ := h
    simp only [nth?, entries, hl.size_eq]
    split
    · rename_i hlt
      rw [ihl hl, List.getElem?_append_left hlt]
    · rename_i hge
      rw [ihr hr, List.getElem?_append_right (by omega)]

theorem leftmost_eq_head? (tree : SumTree α) :
    some tree.leftmost = tree.entries.head?.map (·.1) := by
  induction tree with
  | leaf name value => rfl
  | joint name sum size left right ihl _ =>
    rw [leftmost, entries, List.head?_append_of_ne_nil _ left.entries_ne_nil, ihl]

theorem rightmost_eq_getLast? (tree : SumTree α) :
    some tree.rightmost = tree.entries.getLast?.map (·.1) := by
  induction tree with
  | leaf name value => rfl
  | joint name sum size left right _ ihr =>
    rw [rightmost, entries, List.getLast?_append_of_ne_nil _ right.entries_ne_nil, ihr]

/-- Walking up to the first joint on whose left side a leaf is comes to the next leaf in order. -/
theorem next?_eq_findIdx? (tree : SumTree α) (handle : Handle) :
    tree.next? handle = (tree.entries.findIdx? (·.1 = handle)).map
      fun rank => (tree.entries[rank + 1]?).map (·.1) := by
  induction tree with
  | leaf name value =>
    by_cases h : name = handle <;> simp [next?, entries, List.findIdx?_cons, h]
  | joint name sum size left right ihl ihr =>
    rw [next?, entries, ihl, ihr, List.findIdx?_append]
    cases hfind : left.entries.findIdx? (·.1 = handle) with
    | none =>
      cases right.entries.findIdx? (·.1 = handle) with
      | none => rfl
      | some rank =>
        have hpast : left.entries.length ≤ rank + left.entries.length + 1 := by omega
        have hrank : rank + left.entries.length + 1 - left.entries.length = rank + 1 := by omega
        simp only [Option.map_some, Option.none_or, List.getElem?_append_right hpast, hrank]
        rfl
    | some rank =>
      have hrank : rank < left.entries.length := (List.findIdx?_eq_some_iff_getElem.1 hfind).1
      rcases Nat.lt_or_ge (rank + 1) left.entries.length with hinside | hlast
      · simp [List.getElem?_append_left hinside, List.getElem?_eq_getElem hinside]
      · have hzero : rank + 1 - left.entries.length = 0 := by omega
        have hfirst := right.leftmost_eq_head?
        rw [List.head?_eq_getElem?] at hfirst
        simp [List.getElem?_append_right hlast, List.getElem?_eq_none hlast, hzero, hfirst]

/-- The way up to the first joint on whose right side a leaf is leads to the leaf before it. -/
theorem previous?_eq_findIdx? (tree : SumTree α) (handle : Handle) :
    tree.previous? handle = (tree.entries.findIdx? (·.1 = handle)).map
      fun rank => if rank = 0 then none else (tree.entries[rank - 1]?).map (·.1) := by
  induction tree with
  | leaf name value =>
    by_cases h : name = handle <;> simp [previous?, entries, List.findIdx?_cons, h]
  | joint name sum size left right ihl ihr =>
    rw [previous?, entries, ihl, ihr, List.findIdx?_append]
    cases hfind : left.entries.findIdx? (·.1 = handle) with
    | none =>
      cases hfind' : right.entries.findIdx? (·.1 = handle) with
      | none => rfl
      | some rank =>
        have hpos := left.length_entries_pos
        cases rank with
        | zero =>
          have hlast := left.rightmost_eq_getLast?
          have hinside : left.entries.length - 1 < left.entries.length := by omega
          rw [List.getLast?_eq_getElem?] at hlast
          simp [List.getElem?_append_left hinside, hlast, hpos.ne']
        | succ rank =>
          have hpast : left.entries.length ≤ rank + left.entries.length := by omega
          have hrank : rank + left.entries.length - left.entries.length = rank := by omega
          have hpred : rank + 1 + left.entries.length - 1 = rank + left.entries.length := by omega
          have hlt : rank < right.entries.length :=
            (List.findIdx?_eq_some_iff_getElem.1 hfind').1.le
          simp [hpred, List.getElem?_append_right hpast, List.getElem?_eq_getElem hlt, hrank]
    | some rank =>
      have hrank : rank < left.entries.length := (List.findIdx?_eq_some_iff_getElem.1 hfind).1
      have hinside : rank - 1 < left.entries.length := by omega
      simp [List.getElem?_append_left hinside]

/-! ### Rotations -/

section Sums

variable [Combine α]

@[simp] theorem entries_rotateRight (tree : SumTree α) : tree.rotateRight.entries = tree.entries := by
  unfold rotateRight
  split <;> simp [entries]

@[simp] theorem entries_rotateLeft (tree : SumTree α) : tree.rotateLeft.entries = tree.entries := by
  unfold rotateLeft
  split <;> simp [entries]

@[simp] theorem entries_rebalance (tree : SumTree α) : tree.rebalance.entries = tree.entries := by
  unfold rebalance
  split
  · rfl
  · split_ifs
    · split
      · rfl
      · split_ifs <;> simp only [entries_rotateRight, entries, entries_rotateLeft]
    · split
      · rfl
      · split_ifs <;> simp only [entries_rotateRight, entries, entries_rotateLeft]
    · rfl

@[simp] theorem values_rotateRight (tree : SumTree α) : tree.rotateRight.values = tree.values := by
  simp [values]

@[simp] theorem values_rotateLeft (tree : SumTree α) : tree.rotateLeft.values = tree.values := by
  simp [values]

@[simp] theorem values_rebalance (tree : SumTree α) : tree.rebalance.values = tree.values := by
  simp [values]

/-! ### Caches -/

variable (S : Summary α)

/-- Every joint counts its leaves, and its cached sum is one of the elements to its left. -/
def Cached : SumTree α → Prop
  | leaf _ _ => True
  | joint _ sum size left right =>
    size = left.entries.length + right.entries.length ∧ S.Holds sum left.values ∧
      left.Cached ∧ right.Cached

variable {S}

theorem Cached.sized {tree : SumTree α} (h : tree.Cached S) : tree.Sized := by
  induction tree with
  | leaf name value => trivial
  | joint name sum size left right ihl ihr => exact ⟨h.1, ihl h.2.2.1, ihr h.2.2.2⟩

theorem Cached.sumFrom {tree : SumTree α} (h : tree.Cached S) {sum : α} {before : List α}
    (hsum : S.Holds sum before) : S.Holds (tree.sumFrom sum) (before ++ tree.values) := by
  induction tree generalizing sum before with
  | leaf name value => exact S.combine hsum (S.single value)
  | joint name left size l r _ ihr =>
    obtain ⟨-, hleft, -, hr⟩ := h
    have := ihr hr (S.combine hsum hleft)
    simpa [SumTree.sumFrom] using this

theorem Cached.total {tree : SumTree α} (h : tree.Cached S) : S.Holds tree.total tree.values :=
  h.sumFrom S.neutral

theorem Cached.sumBefore {tree : SumTree α} (h : tree.Cached S) {rank : Nat}
    (hrank : rank < tree.entries.length) :
    S.Holds (tree.sumBefore rank) (tree.values.take rank) := by
  induction tree generalizing rank with
  | leaf name value =>
    obtain rfl : rank = 0 := by simpa [entries] using hrank
    exact S.neutral
  | joint name sum size left right ihl ihr =>
    obtain ⟨-, hsum, hl, hr⟩ := h
    simp only [SumTree.sumBefore, values_joint, hl.sized.size_eq]
    split
    · rename_i hlt
      rw [List.take_append_of_le_length (by simpa using hlt.le)]
      exact ihl hl hlt
    · rename_i hge
      have hlen : rank - left.entries.length < right.entries.length := by
        simp only [entries, List.length_append] at hrank
        omega
      rw [List.take_append, List.take_of_length_le (by simpa using hge)]
      simpa using S.combine hsum (ihr hr hlen)

theorem Cached.rotateRight {tree : SumTree α} (h : tree.Cached S) : tree.rotateRight.Cached S := by
  unfold SumTree.rotateRight
  split
  · obtain ⟨hsize, -, ⟨-, hsum, houter, hinner⟩, hright⟩ := h
    refine ⟨?_, hsum, houter, ?_, hinner.total, hinner, hright⟩
    · simpa [entries, Nat.add_assoc] using hsize
    · rw [hinner.sized.size_eq, hright.sized.size_eq]
  · exact h

theorem Cached.rotateLeft {tree : SumTree α} (h : tree.Cached S) : tree.rotateLeft.Cached S := by
  unfold SumTree.rotateLeft
  split
  · obtain ⟨hsize, hsum, hleft, -, hinner, hmiddle, houter⟩ := h
    refine ⟨?_, ?_, ⟨?_, hsum, hleft, hmiddle⟩, houter⟩
    · simpa [entries, Nat.add_assoc] using hsize
    · simpa using S.combine hsum hinner
    · rw [hleft.sized.size_eq, hmiddle.sized.size_eq]
  · exact h

theorem Cached.rebalance {tree : SumTree α} (h : tree.Cached S) : tree.rebalance.Cached S := by
  unfold SumTree.rebalance
  split
  · trivial
  · obtain ⟨hsize, hsum, hleft, hright⟩ := h
    split_ifs
    · split
      · exact ⟨hsize, hsum, hleft, hright⟩
      · split_ifs
        · refine Cached.rotateRight ⟨?_, ?_, hleft.rotateLeft, hright⟩
          · rwa [entries_rotateLeft]
          · rwa [values_rotateLeft]
        · exact Cached.rotateRight ⟨hsize, hsum, hleft, hright⟩
    · split
      · exact ⟨hsize, hsum, hleft, hright⟩
      · split_ifs
        · refine Cached.rotateLeft ⟨?_, hsum, hleft, hright.rotateRight⟩
          rwa [entries_rotateRight]
        · exact Cached.rotateLeft ⟨hsize, hsum, hleft, hright⟩
    · exact ⟨hsize, hsum, hleft, hright⟩

/-! ### Insertion -/

theorem entries_insert {tree : SumTree α} (h : tree.Sized) (name fork : Handle) (value : α)
    (rank : Nat) : (tree.insert name fork value rank).entries =
      tree.entries.take rank ++ (name, value) :: tree.entries.drop rank := by
  induction tree generalizing rank with
  | leaf other element => cases rank <;> simp [insert, entries]
  | joint here sum size left right ihl ihr =>
    obtain ⟨-, hl, hr⟩ := h
    simp only [insert, hl.size_eq]
    split
    · rename_i hlt
      rw [entries_rebalance, entries, ihl hl, entries, List.take_append_of_le_length hlt.le,
        List.drop_append_of_le_length hlt.le]
      simp
    · rename_i hge
      have hle : left.entries.length ≤ rank := by omega
      rw [entries_rebalance, entries, ihr hr, entries, List.take_append, List.drop_append,
        List.take_of_length_le hle, List.drop_of_length_le hle]
      simp

theorem Cached.insert {tree : SumTree α} (h : tree.Cached S) (name fork : Handle) (value : α)
    (rank : Nat) : (tree.insert name fork value rank).Cached S := by
  induction tree generalizing rank with
  | leaf other element =>
    simp only [SumTree.insert]
    split
    · exact ⟨rfl, S.single value, trivial, trivial⟩
    · exact ⟨rfl, S.single element, trivial, trivial⟩
  | joint here sum size left right ihl ihr =>
    obtain ⟨hsize, hsum, hl, hr⟩ := h
    simp only [SumTree.insert, hl.sized.size_eq]
    have hentries := entries_insert hl.sized name fork value rank
    split
    · refine Cached.rebalance ⟨?_, ?_, ihl hl rank, hr⟩
      · rw [hentries, hsize]
        simp
        omega
      · split
        · rename_i hcomm
          rw [values, hentries, List.map_append, List.map_cons]
          refine S.insert value hcomm ?_
          rwa [← List.map_append, List.take_append_drop]
        · exact (ihl hl rank).total
    · refine Cached.rebalance ⟨?_, hsum, hl, ihr hr _⟩
      rw [entries_insert hr.sized, hsize]
      simp
      omega

/-! ### Removal -/

theorem entries_erase {tree : SumTree α} (h : tree.Sized) {rank : Nat}
    (hrank : rank < tree.entries.length) (htwo : 1 < tree.entries.length) :
    (tree.erase rank).entries = tree.entries.eraseIdx rank := by
  induction tree generalizing rank with
  | leaf name value => simp [entries] at htwo
  | joint here sum size left right ihl ihr =>
    obtain ⟨-, hl, hr⟩ := h
    unfold erase
    rw [hl.size_eq]
    simp only [entries, List.length_append] at hrank ⊢
    split
    · rename_i hlt
      rw [List.eraseIdx_append_of_lt_length hlt]
      cases left with
      | leaf name value =>
        obtain rfl : rank = 0 := by simpa [entries] using hlt
        simp [entries]
      | joint n s k l r =>
        have := l.length_entries_pos
        have := r.length_entries_pos
        rw [entries_rebalance, entries, ihl hl hlt (by simp only [entries, List.length_append]; omega)]
    · rename_i hge
      rw [List.eraseIdx_append_of_length_le (by omega)]
      cases right with
      | leaf name value =>
        have : rank - left.entries.length = 0 := by
          simp only [entries, List.length_singleton] at hrank
          omega
        simp [entries, this]
      | joint n s k l r =>
        have := l.length_entries_pos
        have := r.length_entries_pos
        rw [entries_rebalance, entries, ihr hr (by omega) (by simp only [entries, List.length_append]; omega)]

theorem Cached.erase {tree : SumTree α} (h : tree.Cached S) {rank : Nat}
    (hrank : rank < tree.entries.length) : (tree.erase rank).Cached S := by
  induction tree generalizing rank with
  | leaf name value => trivial
  | joint here sum size left right ihl ihr =>
    obtain ⟨hsize, hsum, hl, hr⟩ := h
    simp only [entries, List.length_append] at hrank
    unfold SumTree.erase
    rw [hl.sized.size_eq]
    split
    · rename_i hlt
      cases left with
      | leaf name value => exact hr
      | joint n s k l r =>
        have := l.length_entries_pos
        have := r.length_entries_pos
        have hcached := ihl hl hlt
        refine Cached.rebalance ⟨?_, hcached.total, hcached, hr⟩
        rw [entries_erase hl.sized hlt (by simp only [entries, List.length_append]; omega),
          List.length_eraseIdx_of_lt hlt, hsize]
        omega
    · rename_i hge
      cases right with
      | leaf name value => exact hl
      | joint n s k l r =>
        have := l.length_entries_pos
        have := r.length_entries_pos
        have hlt : rank - left.entries.length < (joint n s k l r).entries.length := by omega
        refine Cached.rebalance ⟨?_, hsum, hl, ihr hr hlt⟩
        rw [entries_erase hr.sized hlt (by simp only [entries, List.length_append]; omega),
          List.length_eraseIdx_of_lt hlt, hsize]
        omega

end Sums

end SumTree

end LiveProse
