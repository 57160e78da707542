import LiveProse.Proofs.Sequence.Listings

/-!
Sums of a sequence. Where the combination is associative with a neutral element, every cached sum is
that of the elements to its left in their order, whatever insertions, removals and rotations came
before. The sum before a position and the sum between two are then sums of the listing, and an
inserted element may be combined into the caches above it wherever the combination commutes.
-/

namespace LiveProse

open Combine

variable {α : Type} [Combine α]

/-! ### Sums of lists -/

/-- What lies between two places lies before or after any place between them. -/
theorem drop_take_append {β : Type} {items : List β} {i j k : Nat} (hij : i ≤ j) (hjk : j ≤ k) :
    (items.take j).drop i ++ (items.take k).drop j = (items.take k).drop i := by
  have hfront : (items.take k).take j = items.take j := by rw [List.take_take, Nat.min_eq_left hjk]
  calc (items.take j).drop i ++ (items.take k).drop j
    _ = ((items.take k).drop i).take (j - i) ++ ((items.take k).drop i).drop (j - i) := by
      rw [← hfront, List.drop_take, List.drop_drop, Nat.add_sub_cancel' hij]
    _ = (items.take k).drop i := List.take_append_drop _ _

section Lists

variable [LawfulCombine α]

theorem foldl_combine (a : α) (xs : List α) : xs.foldl combine a = combine a (combineAll xs) := by
  induction xs generalizing a with
  | nil => exact (LawfulCombine.combine_neutral a).symm
  | cons x xs ih =>
    calc (x :: xs).foldl combine a
      _ = combine (combine a x) (combineAll xs) := ih _
      _ = combine a (combine (combine neutral x) (combineAll xs)) := by
        rw [LawfulCombine.combine_assoc, LawfulCombine.neutral_combine]
      _ = combine a (combineAll (x :: xs)) := congrArg _ (ih _).symm

theorem combineAll_append (xs ys : List α) :
    combineAll (xs ++ ys) = combine (combineAll xs) (combineAll ys) := by
  rw [combineAll, List.foldl_append, foldl_combine]
  rfl

theorem combineAll_singleton (x : α) : combineAll [x] = x := LawfulCombine.neutral_combine x

theorem combineAll_cons (x : α) (xs : List α) : combineAll (x :: xs) = combine x (combineAll xs) := by
  rw [← List.singleton_append, combineAll_append, combineAll_singleton]

variable (α)

/-- A sum is that of its elements in order. -/
def Summary.sum : Summary α where
  Holds a xs := a = combineAll xs
  neutral := rfl
  single value := (combineAll_singleton value).symm
  combine ha hb := by rw [ha, hb, combineAll_append]
  insert {a xs ys} value hcomm ha := by
    calc Combine.combine a value
      _ = Combine.combine (combineAll xs) (Combine.combine (combineAll ys) value) := by
        rw [ha, combineAll_append, LawfulCombine.combine_assoc]
      _ = Combine.combine (combineAll xs) (Combine.combine value (combineAll ys)) := by
        rw [LawfulCombine.combine_comm _ value hcomm]
      _ = combineAll (xs ++ value :: ys) := by rw [combineAll_append, combineAll_cons]

end Lists

/-! ### Sums between two places -/

namespace SumTree

variable {S : Summary α}

/-- Below a joint that parts the places, its cached sum stands for the left side where all of that
counts, and the right side is summed up as a whole where it counts as a whole. -/
theorem Cached.sumBetween {tree : SumTree α} (h : tree.Cached S) {lo hi : Nat} (hlt : lo < hi)
    (hhi : hi ≤ tree.entries.length) :
    S.Holds (tree.sumBetween lo hi) ((tree.values.take hi).drop lo) := by
  induction tree generalizing lo hi with
  | leaf name value =>
    obtain rfl : hi = 1 := le_antisymm hhi (Nat.one_le_of_lt hlt)
    obtain rfl : lo = 0 := Nat.lt_one_iff.1 hlt
    exact S.single value
  | joint name sum size left right ihl ihr =>
    obtain ⟨-, hsum, hl, hr⟩ := h
    have hsize : left.values.length = left.entries.length := left.length_values
    simp only [entries, List.length_append] at hhi
    simp only [SumTree.sumBetween, values_joint, hl.sized.size_eq, hr.sized.size_eq]
    split
    · rename_i hleft
      rw [List.take_append_of_le_length (hsize ▸ hleft)]
      exact ihl hl hlt hleft
    rename_i hpast
    rw [List.take_append, List.take_of_length_le (by omega), hsize]
    split
    · rename_i hright
      rw [List.drop_append, List.drop_of_length_le (by omega), List.nil_append, hsize]
      exact ihr hr (by omega) (by omega)
    rename_i hparted
    rw [List.drop_append_of_le_length (by omega)]
    refine S.combine ?_ ?_
    · split
      · rename_i hzero
        rwa [hzero, List.drop_zero]
      · have hbefore := ihl hl (show lo < left.entries.length by omega) le_rfl
        rwa [List.take_of_length_le hsize.le] at hbefore
    · split
      · rename_i hall
        rw [hall, List.take_of_length_le (right.length_values.le)]
        exact hr.total
      · exact ihr hr (show 0 < hi - left.entries.length by omega) (by omega)

end SumTree

/-! ### The shortcut -/

variable (α) in
/-- The same combination, of which it is not said that it commutes. An insertion then sums up every
changed side anew. -/
@[reducible] def Combine.resumming : Combine α := { ‹Combine α› with commutative := false }

namespace SumTree

theorem sumFrom_resumming (sum : α) (tree : SumTree α) :
    @sumFrom α (.resumming α) sum tree = tree.sumFrom sum := by
  induction tree generalizing sum with
  | leaf name value => rfl
  | joint name left size l r _ ihr => exact ihr _

theorem total_resumming (tree : SumTree α) : @total α (.resumming α) tree = tree.total :=
  sumFrom_resumming _ tree

theorem rotateRight_resumming (tree : SumTree α) :
    @rotateRight α (.resumming α) tree = tree.rotateRight := by
  unfold rotateRight
  split
  · rw [total_resumming]
  · rfl

theorem rotateLeft_resumming (tree : SumTree α) :
    @rotateLeft α (.resumming α) tree = tree.rotateLeft := rfl

theorem rebalance_resumming (tree : SumTree α) :
    @rebalance α (.resumming α) tree = tree.rebalance := by
  unfold rebalance
  simp only [rotateRight_resumming, rotateLeft_resumming]

/-- Combined into the sum of a side, an element makes it the sum of the side with the element. -/
theorem total_insert [LawfulCombine α] {tree : SumTree α} (h : tree.Cached (.sum α))
    (hcomm : commutative α = true) {sum : α} (hsum : (Summary.sum α).Holds sum tree.values)
    (name fork : Handle) (value : α) (rank : Nat) :
    (tree.insert name fork value rank).total = combine sum value := by
  have hvalues : (tree.insert name fork value rank).values =
      tree.values.take rank ++ value :: tree.values.drop rank := by
    rw [values, entries_insert h.sized, values, List.map_append, List.map_cons, List.map_take,
      List.map_drop]
  rw [← List.take_append_drop rank tree.values] at hsum
  calc (tree.insert name fork value rank).total
    _ = combineAll (tree.values.take rank ++ value :: tree.values.drop rank) :=
      hvalues ▸ (h.insert name fork value rank).total
    _ = combine sum value := ((Summary.sum α).insert value hcomm hsum).symm

/-- Combining the element into the caches above it and summing up anew are the same. -/
theorem insert_resumming [LawfulCombine α] {tree : SumTree α} (h : tree.Cached (.sum α))
    (name fork : Handle) (value : α) (rank : Nat) :
    @insert α (.resumming α) name fork value tree rank = tree.insert name fork value rank := by
  induction tree generalizing rank with
  | leaf other element => rfl
  | joint here sum size left right ihl ihr =>
    obtain ⟨-, hsum, hl, hr⟩ := h
    simp only [insert, rebalance_resumming, ihl hl, ihr hr, total_resumming]
    split
    · by_cases hcomm : commutative α = true
      · rw [if_pos hcomm, total_insert hl hcomm hsum]
        rfl
      · rw [if_neg hcomm]
        rfl
    · rfl

theorem erase_resumming (tree : SumTree α) (rank : Nat) :
    @erase α (.resumming α) tree rank = tree.erase rank := by
  induction tree generalizing rank with
  | leaf name value => rfl
  | joint here sum size left right ihl ihr =>
    unfold erase
    split
    · cases left with
      | leaf name value => rfl
      | joint n s k l r => simp only [rebalance_resumming, total_resumming, ihl]
    · cases right with
      | leaf name value => rfl
      | joint n s k l r => simp only [rebalance_resumming, ihr]

end SumTree

namespace Sequence

variable {S : Summary α} {sequence : Sequence α} {listing : Listing α}

theorem Sound.sumBetween (h : sequence.Sound S) {source target : Cursor}
    (hlt : sequence.rank source < sequence.rank target)
    (hle : sequence.rank target ≤ sequence.entries.length) :
    S.Holds (sequence.sumBetween source target)
      ((sequence.toList.take (sequence.rank target)).drop (sequence.rank source)) := by
  cases hroot : sequence.root with
  | none =>
    rw [entries_none hroot, List.length_nil] at hle
    omega
  | some tree =>
    rw [entries_some hroot] at hle
    simp only [Sequence.sumBetween, hroot, if_pos hlt]
    rw [toList, entries_some hroot]
    exact (h.cached tree hroot).sumBetween hlt hle

theorem insert_resumming [LawfulCombine α] (h : sequence.Sound (.sum α)) (cursor : Cursor)
    (value : α) : @insert α (.resumming α) sequence cursor value = sequence.insert cursor value := by
  unfold insert
  cases hroot : sequence.root with
  | none => rfl
  | some tree => simp only [SumTree.insert_resumming (h.cached tree hroot)]

theorem erase_resumming (sequence : Sequence α) (cursor : Cursor) :
    @erase α (.resumming α) sequence cursor = sequence.erase cursor := by
  unfold erase
  simp only [SumTree.erase_resumming]

/-- Every sum that the sequence answers or keeps is that of elements of the listing in order. -/
structure Sums (sequence : Sequence α) (listing : Listing α) [LawfulCombine α] : Prop where
  cached : ∀ tree, sequence.root = some tree → tree.Cached (.sum α)
  total : sequence.total = combineAll (listing.map (·.2))
  sumBefore : ∀ cursor, listing.Live cursor →
    sequence.sumBefore cursor = combineAll ((listing.map (·.2)).take (listing.place cursor))
  sumBetween : ∀ source target, listing.Live source → listing.Live target →
    sequence.sumBetween source target = combineAll
      (((listing.map (·.2)).take (listing.place target)).drop (listing.place source))
  neutral : ∀ source target, listing.Live source → listing.Live target →
    listing.place target ≤ listing.place source → sequence.sumBetween source target = neutral
  splits : ∀ i j k, i ≤ j → j ≤ k → sequence.sumBetween (sequence.nth i) (sequence.nth k) =
    combine (sequence.sumBetween (sequence.nth i) (sequence.nth j))
      (sequence.sumBetween (sequence.nth j) (sequence.nth k))
  /-- Nothing would be different if the combination were not known to commute. -/
  shortcut : ∀ cursor value,
    @Sequence.insert α (.resumming α) sequence cursor value = sequence.insert cursor value

variable [LawfulCombine α]

/-- There are no elements between two positions unless the second comes after the first. -/
theorem Sound.sumBetween_rank (h : sequence.Sound (.sum α)) {source target : Cursor}
    (hle : sequence.rank target ≤ sequence.entries.length) :
    sequence.sumBetween source target = combineAll
      ((sequence.toList.take (sequence.rank target)).drop (sequence.rank source)) := by
  rcases Nat.lt_or_ge (sequence.rank source) (sequence.rank target) with hlt | hge
  · exact h.sumBetween hlt hle
  · have hneutral : sequence.sumBetween source target = neutral := by
      unfold Sequence.sumBetween
      split
      · exact if_neg (Nat.not_lt.2 hge)
      · rfl
    rw [hneutral, List.drop_of_length_le ((List.length_take_le _ _).trans hge)]
    rfl

theorem Sound.sumBetween_nth (h : sequence.Sound (.sum α)) (i k : Nat) :
    sequence.sumBetween (sequence.nth i) (sequence.nth k) =
      combineAll ((sequence.toList.take k).drop i) := by
  have hlength := sequence.length_toList
  rw [h.sumBetween_rank (by rw [h.rank_nth_min]; exact Nat.min_le_right _ _), h.rank_nth_min,
    h.rank_nth_min, ← hlength, List.take_eq_take_min.symm]
  rcases Nat.le_total i sequence.toList.length with hle | hge
  · rw [Nat.min_eq_left hle]
  · have hshort : (sequence.toList.take k).length ≤ sequence.toList.length := List.length_take_le' _ _
    rw [Nat.min_eq_right hge, List.drop_of_length_le hshort, List.drop_of_length_le (hshort.trans hge)]

theorem Sound.sums (h : sequence.Sound (.sum α)) : sequence.Sums sequence.entries where
  cached := h.cached
  total := h.total
  sumBefore cursor hlive := by
    conv_lhs => rw [← h.nth_place hlive]
    exact h.sumBefore (Listing.place_le _ _)
  sumBetween source target hsource htarget := by
    have hplace := h.rank_place htarget
    rw [h.sumBetween_rank (hplace ▸ Listing.place_le _ _), hplace, h.rank_place hsource]
    rfl
  neutral source target hsource htarget hle := by
    have hplace := h.rank_place htarget
    rw [h.sumBetween_rank (hplace ▸ Listing.place_le _ _), hplace, h.rank_place hsource,
      List.drop_of_length_le ((List.length_take_le _ _).trans hle)]
    rfl
  splits i j k hij hjk := by
    rw [h.sumBetween_nth, h.sumBetween_nth, h.sumBetween_nth, ← combineAll_append,
      drop_take_append hij hjk]
  shortcut := insert_resumming h

end Sequence

namespace History

variable [LawfulCombine α] {sequence : Sequence α} {listing : Listing α}

/-- A history without the shortcut leads to the same sequence. -/
theorem resumming (h : History sequence listing) : @History α (.resumming α) sequence listing := by
  induction h with
  | empty => exact @History.empty α (.resumming α)
  | @insert sequence listing cursor value h hlive ih =>
    have hinsert := Sequence.insert_resumming (h.sound (.sum α)).1 cursor value
    exact hinsert ▸ @History.insert α (.resumming α) sequence listing cursor value ih hlive
  | @erase sequence listing cursor h hlive ih =>
    have herase := Sequence.erase_resumming sequence cursor
    exact herase ▸ @History.erase α (.resumming α) sequence listing cursor ih hlive
  | clear h ih => exact @History.clear α (.resumming α) _ _ ih

/-- After whatever insertions, removals and clearings, all sums are those of the listing that the same
changes lead to, and the same sequence with the same sums is reached where every changed side is
summed up anew. -/
theorem sums_exact (h : History sequence listing) :
    sequence.Sums listing ∧ @History α (.resumming α) sequence listing := by
  obtain ⟨hsound, rfl⟩ := h.sound (.sum α)
  exact ⟨hsound.sums, h.resumming⟩

theorem sums_exact_taken : History taken [(⟨1, 0⟩, ⟨5⟩), (⟨3, 0⟩, ⟨6⟩)] ∧
    taken.Sums [(⟨1, 0⟩, ⟨5⟩), (⟨3, 0⟩, ⟨6⟩)] ∧
      @History Tally (.resumming Tally) taken [(⟨1, 0⟩, ⟨5⟩), (⟨3, 0⟩, ⟨6⟩)] :=
  ⟨history_taken, history_taken.sums_exact⟩

end History

end LiveProse
