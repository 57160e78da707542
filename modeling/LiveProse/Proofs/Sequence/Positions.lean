import LiveProse.Proofs.Sequence.Names
import LiveProse.Proofs.Store.Association

/-! Sequences as lists. A position is a rank, reading at a position is reading the list there, an
insertion and a removal change the list in one place, and the sum before a position is one of the
elements before it. -/

namespace LiveProse.Sequence

open Combine

variable {α : Type} [Combine α] {S : Summary α} {sequence : Sequence α}

/-- The invariant of sequences: names are in order, and so are the caches. -/
structure Sound (S : Summary α) (sequence : Sequence α) : Prop where
  named : sequence.Named
  cached : ∀ tree, sequence.root = some tree → tree.Cached S

theorem Sound.empty : Sound S Sequence.empty := ⟨.empty, by simp [Sequence.empty]⟩

section Lists

omit [Combine α]

@[simp] theorem length_toList (sequence : Sequence α) :
    sequence.toList.length = sequence.entries.length := by simp [toList]

@[simp] theorem length_handles (sequence : Sequence α) :
    sequence.handles.length = sequence.entries.length := by simp [handles]

theorem entries_some {tree : SumTree α} (h : sequence.root = some tree) :
    sequence.entries = tree.entries := by simp [entries, h]

theorem entries_none (h : sequence.root = none) : sequence.entries = [] := by simp [entries, h]

theorem get?_eq_lookup (sequence : Sequence α) (handle : Handle) :
    sequence.get? handle = sequence.entries.lookup handle := by
  cases hroot : sequence.root with
  | none => simp [get?, entries, hroot]
  | some tree => simp [get?, entries, hroot, SumTree.get?_eq_lookup]

end Lists

/-! ### Reading -/

theorem Sound.length_eq (h : sequence.Sound S) : sequence.length = sequence.entries.length := by
  cases hroot : sequence.root with
  | none => simp [length, entries, hroot]
  | some tree => simp [length, entries, hroot, (h.cached tree hroot).sized.size_eq]

theorem Sound.nth_eq (h : sequence.Sound S) (rank : Nat) :
    sequence.nth rank = sequence.handles[rank]? := by
  cases hroot : sequence.root with
  | none => simp [nth, handles, entries, hroot]
  | some tree =>
    simp [nth, handles, entries, hroot, SumTree.nth?_eq_getElem? (h.cached tree hroot).sized]

theorem Sound.rank_none (h : sequence.Sound S) : sequence.rank none = sequence.entries.length := by
  simp [rank, h.length_eq]

/-- No earlier entry has the handle of a later one. -/
theorem Sound.findIdx?_handles (h : sequence.Sound S) {rank : Nat}
    (hrank : rank < sequence.handles.length) :
    sequence.entries.findIdx? (·.1 = sequence.handles[rank]) = some rank := by
  have hlt : rank < sequence.entries.length := by simpa using hrank
  rw [List.findIdx?_eq_some_iff_getElem]
  refine ⟨hlt, by simp [handles], fun j hj => ?_⟩
  have hj' : j < sequence.handles.length := hj.trans hrank
  have hne : sequence.handles[j] = sequence.handles[rank] ↔ j = rank :=
    h.named.nodup_handles.getElem_inj_iff
  simp only [handles, List.getElem_map] at hne ⊢
  simpa [hne] using hj.ne

/-- The position with `rank` elements before it has that rank. -/
theorem Sound.rank_nth (h : sequence.Sound S) {rank : Nat} (hrank : rank ≤ sequence.entries.length) :
    sequence.rank (sequence.nth rank) = rank := by
  rcases Nat.lt_or_ge rank sequence.entries.length with hlt | hge
  · have hhandles : rank < sequence.handles.length := by simpa using hlt
    have hfind := h.findIdx?_handles hhandles
    rw [h.nth_eq, List.getElem?_eq_getElem hhandles]
    cases hroot : sequence.root with
    | none => simp [entries_none hroot] at hlt
    | some tree =>
      rw [entries_some hroot] at hfind
      simp [Sequence.rank, hroot, SumTree.rank?_eq_findIdx? (h.cached tree hroot).sized, hfind]
  · obtain rfl : rank = sequence.entries.length := by omega
    rw [h.nth_eq, List.getElem?_eq_none (by simp), h.rank_none]

/-- A live handle is the position of its index among the handles. -/
theorem Sound.nth_of_mem (h : sequence.Sound S) {handle : Handle} (hmem : handle ∈ sequence.handles) :
    some handle = sequence.nth (sequence.handles.idxOf handle) := by
  have hlt := List.idxOf_lt_length_of_mem hmem
  rw [h.nth_eq, List.getElem?_eq_getElem hlt, List.getElem_idxOf]

/-- The element at a position. -/
theorem Sound.at?_nth (h : sequence.Sound S) (rank : Nat) :
    sequence.at? (sequence.nth rank) = sequence.toList[rank]? := by
  rw [h.nth_eq, at?]
  rcases Nat.lt_or_ge rank sequence.entries.length with hlt | hge
  · have hhandles : rank < sequence.handles.length := by simpa using hlt
    rw [List.getElem?_eq_getElem hhandles, List.getElem?_eq_getElem (by simpa using hlt),
      Option.bind_some, get?_eq_lookup]
    have hlist : rank < sequence.toList.length := by simpa using hlt
    have hmem : (sequence.handles[rank], sequence.toList[rank]) ∈ sequence.entries := by
      simp only [handles, toList, List.getElem_map]
      exact List.getElem_mem hlt
    exact (lookup_eq_some_iff_mem h.named.nodup_handles).2 hmem
  · rw [List.getElem?_eq_none (by simpa using hge), List.getElem?_eq_none (by simpa using hge)]
    rfl

theorem Sound.next_nth (h : sequence.Sound S) {rank : Nat} (hrank : rank < sequence.entries.length) :
    sequence.next (sequence.nth rank) = sequence.nth (rank + 1) := by
  have hhandles : rank < sequence.handles.length := by simpa using hrank
  have hfind := h.findIdx?_handles hhandles
  rw [h.nth_eq, h.nth_eq, List.getElem?_eq_getElem hhandles]
  cases hroot : sequence.root with
  | none => simp [entries_none hroot] at hrank
  | some tree =>
    have hnext := tree.next?_eq_findIdx? sequence.handles[rank]
    rw [← entries_some hroot, hfind, Option.map_some] at hnext
    rw [next, hroot, Option.bind_some, Option.bind_some, hnext, Option.join_some, handles,
      List.getElem?_map]

theorem Sound.first_eq (h : sequence.Sound S) : sequence.first = sequence.nth 0 := by
  rw [h.nth_eq, ← List.head?_eq_getElem?, handles, List.head?_map]
  cases hroot : sequence.root with
  | none => rw [entries_none hroot, first, hroot]; rfl
  | some tree => rw [entries_some hroot, first, hroot, ← tree.leftmost_eq_head?]; rfl

theorem Sound.last_eq (h : sequence.Sound S) :
    sequence.last = sequence.nth (sequence.entries.length - 1) := by
  rw [h.nth_eq, ← sequence.length_handles, ← List.getLast?_eq_getElem?, handles, List.getLast?_map]
  cases hroot : sequence.root with
  | none => rw [entries_none hroot, last, hroot]; rfl
  | some tree => rw [entries_some hroot, last, hroot, ← tree.rightmost_eq_getLast?]; rfl

/-- The first element is its own predecessor. -/
theorem Sound.previous_nth (h : sequence.Sound S) {rank : Nat}
    (hrank : rank ≤ sequence.entries.length) :
    sequence.previous (sequence.nth rank) = sequence.nth (rank - 1) := by
  rcases Nat.lt_or_ge rank sequence.entries.length with hlt | hge
  · have hhandles : rank < sequence.handles.length := by simpa using hlt
    have hfind := h.findIdx?_handles hhandles
    rw [h.nth_eq, h.nth_eq, List.getElem?_eq_getElem hhandles]
    cases hroot : sequence.root with
    | none => simp [entries_none hroot] at hlt
    | some tree =>
      have hprevious := tree.previous?_eq_findIdx? sequence.handles[rank]
      rw [← entries_some hroot, hfind, Option.map_some] at hprevious
      simp only [previous, hroot, Option.bind_some, hprevious, Option.join_some]
      cases rank with
      | zero => rw [if_pos rfl, Option.none_or, Nat.zero_sub, List.getElem?_eq_getElem hhandles]
      | succ rank =>
        have hbefore : rank < sequence.entries.length := by omega
        have hhandle : sequence.handles[rank]? = some sequence.entries[rank].1 := by
          rw [handles, List.getElem?_map, List.getElem?_eq_getElem hbefore, Option.map_some]
        rw [if_neg (Nat.succ_ne_zero rank), Nat.add_sub_cancel, List.getElem?_eq_getElem hbefore,
          Option.map_some, Option.some_or, hhandle]
  · obtain rfl : rank = sequence.entries.length := by omega
    rw [h.nth_eq, List.getElem?_eq_none (by simp), previous, h.last_eq]

/-! ### Sums -/

theorem Sound.total (h : sequence.Sound S) : S.Holds sequence.total sequence.toList := by
  cases hroot : sequence.root with
  | none => simpa [Sequence.total, toList, entries, hroot] using S.neutral
  | some tree =>
    rw [Sequence.total, toList, entries_some hroot, hroot]
    exact (h.cached tree hroot).total

theorem Sound.sumBefore (h : sequence.Sound S) {rank : Nat} (hrank : rank ≤ sequence.entries.length) :
    S.Holds (sequence.sumBefore (sequence.nth rank)) (sequence.toList.take rank) := by
  rcases Nat.lt_or_ge rank sequence.entries.length with hlt | hge
  · have hhandles : rank < sequence.handles.length := by simpa using hlt
    cases hroot : sequence.root with
    | none => simp [entries_none hroot] at hlt
    | some tree =>
      have hsome : sequence.nth rank = some sequence.handles[rank] := by
        rw [h.nth_eq, List.getElem?_eq_getElem hhandles]
      have hsum := (h.cached tree hroot).sumBefore
        (show rank < tree.entries.length by rwa [← entries_some hroot])
      have hrank' := h.rank_nth hrank
      rw [hsome] at hrank' ⊢
      simp only [Sequence.sumBefore, hroot, hrank']
      rw [toList, entries_some hroot]
      exact hsum
  · obtain rfl : rank = sequence.entries.length := by omega
    have hnone : sequence.nth sequence.entries.length = none := by
      rw [h.nth_eq, List.getElem?_eq_none (by simp)]
    have htake : sequence.toList.take sequence.entries.length = sequence.toList :=
      List.take_of_length_le (by simp)
    simp only [hnone, Sequence.sumBefore, htake]
    exact h.total

/-! ### Insertion -/

theorem entries_insert (h : sequence.Sound S) {rank : Nat} (hrank : rank ≤ sequence.entries.length)
    (value : α) : (sequence.insert (sequence.nth rank) value).1.entries =
      sequence.entries.take rank ++ (sequence.nextName, value) :: sequence.entries.drop rank := by
  cases hroot : sequence.root with
  | none =>
    simp [insert, hroot, entries, SumTree.entries]
  | some tree =>
    have htree := h.cached tree hroot
    simp only [insert, hroot, h.rank_nth hrank]
    rw [entries_some hroot, ← SumTree.entries_insert htree.sized]
    rfl

theorem insert_snd (sequence : Sequence α) (cursor : Cursor) (value : α) :
    (sequence.insert cursor value).2 = sequence.nextName := by
  unfold insert
  cases sequence.root <;> rfl

theorem handles_insert (h : sequence.Sound S) {rank : Nat} (hrank : rank ≤ sequence.entries.length)
    (value : α) : (sequence.insert (sequence.nth rank) value).1.handles =
      sequence.handles.take rank ++ sequence.nextName :: sequence.handles.drop rank := by
  simp [handles, entries_insert h hrank]

theorem toList_insert (h : sequence.Sound S) {rank : Nat} (hrank : rank ≤ sequence.entries.length)
    (value : α) : (sequence.insert (sequence.nth rank) value).1.toList =
      sequence.toList.take rank ++ value :: sequence.toList.drop rank := by
  simp [toList, entries_insert h hrank]

/-- An insertion gives out one name, and one more for the new joint unless the leaf is alone. -/
theorem names_insert (sequence : Sequence α) (cursor : Cursor) (value : α) :
    (sequence.root = none ∧ sequence.jointNames = [] ∧
      (sequence.insert cursor value).1.jointNames = [] ∧
      (sequence.insert cursor value).1.free = sequence.allocate.free ∧
      (sequence.insert cursor value).1.slots = sequence.allocate.slots) ∨
    ((sequence.insert cursor value).1.jointNames.Perm
        (sequence.allocate.nextName :: sequence.jointNames) ∧
      (sequence.insert cursor value).1.free = sequence.allocate.allocate.free ∧
      (sequence.insert cursor value).1.slots = sequence.allocate.allocate.slots) := by
  cases hroot : sequence.root with
  | none => exact .inl ⟨rfl, by simp [insert, hroot, jointNames, SumTree.jointNames]⟩
  | some tree =>
    refine .inr ⟨?_, by simp [insert, hroot]⟩
    have hperm := tree.jointNames_insert sequence.nextName sequence.allocate.nextName value
      (sequence.rank cursor)
    simpa [insert, hroot, jointNames] using hperm

theorem Sound.named_insert (h : sequence.Sound S) {rank : Nat}
    (hrank : rank ≤ sequence.entries.length) (value : α) :
    (sequence.insert (sequence.nth rank) value).1.Named := by
  have hhandles : (sequence.insert (sequence.nth rank) value).1.handles.Perm
      (sequence.nextName :: sequence.handles) := by
    rw [handles_insert h hrank value]
    refine List.perm_middle.trans ?_
    rw [List.take_append_drop]
  rcases names_insert sequence (sequence.nth rank) value with
    ⟨-, hnil, hj, hfree, hslots⟩ | ⟨hj, hfree, hslots⟩
  · have hfits := h.named.allocate
    rw [hnil] at hfits
    have := hfits.perm (hhandles.symm.append_right [])
    rw [Named, hj]
    exact ⟨by rw [hfree]; exact this.nodup, by rw [hfree, hslots]; exact this.bounded⟩
  · have hfits := h.named.allocate.allocate
    have hnames : (sequence.allocate.nextName :: sequence.nextName ::
        (sequence.handles ++ sequence.jointNames)).Perm
          ((sequence.insert (sequence.nth rank) value).1.handles ++
            (sequence.insert (sequence.nth rank) value).1.jointNames) :=
      List.perm_middle.symm.trans (hhandles.symm.append hj.symm)
    have := hfits.perm hnames
    exact ⟨by rw [hfree]; exact this.nodup, by rw [hfree, hslots]; exact this.bounded⟩

theorem Sound.insert (h : sequence.Sound S) {rank : Nat} (hrank : rank ≤ sequence.entries.length)
    (value : α) : (sequence.insert (sequence.nth rank) value).1.Sound S := by
  refine ⟨h.named_insert hrank value, fun tree htree => ?_⟩
  cases hroot : sequence.root with
  | none =>
    obtain rfl : SumTree.leaf sequence.nextName value = tree := by
      simpa [Sequence.insert, hroot] using htree
    trivial
  | some old =>
    have : some (old.insert sequence.nextName sequence.allocate.nextName value
        (sequence.rank (sequence.nth rank))) = some tree := by
      simpa [Sequence.insert, hroot] using htree
    rw [← Option.some.inj this]
    exact (h.cached old hroot).insert _ _ _ _

theorem length_insert (h : sequence.Sound S) {rank : Nat} (hrank : rank ≤ sequence.entries.length)
    (value : α) : (sequence.insert (sequence.nth rank) value).1.entries.length =
      sequence.entries.length + 1 := by
  rw [entries_insert h hrank, List.length_append, List.length_cons, ← Nat.add_assoc,
    ← List.length_append, List.take_append_drop]

theorem take_insert (h : sequence.Sound S) {rank : Nat} (hrank : rank ≤ sequence.entries.length)
    (value : α) : (sequence.insert (sequence.nth rank) value).1.entries.take (rank + 1) =
      sequence.entries.take rank ++ [(sequence.nextName, value)] := by
  have hfront : (sequence.entries.take rank).length = rank := List.length_take_of_le hrank
  rw [entries_insert h hrank, List.take_append, hfront, List.take_of_length_le (by omega),
    Nat.add_sub_cancel_left]
  rfl

theorem drop_insert (h : sequence.Sound S) {rank : Nat} (hrank : rank ≤ sequence.entries.length)
    (value : α) : (sequence.insert (sequence.nth rank) value).1.entries.drop (rank + 1) =
      sequence.entries.drop rank := by
  have hfront : (sequence.entries.take rank).length = rank := List.length_take_of_le hrank
  rw [entries_insert h hrank, List.drop_append, hfront, Nat.add_sub_cancel_left,
    List.drop_eq_nil_of_le (by omega)]
  rfl

/-- An insertion moves the position that it is made at on by one. -/
theorem Sound.nth_insert (h : sequence.Sound S) {rank : Nat} (hrank : rank ≤ sequence.entries.length)
    (value : α) : (sequence.insert (sequence.nth rank) value).1.nth (rank + 1) =
      sequence.nth rank := by
  have hdrop := congrArg (fun entries => (entries.map (·.1)).head?) (drop_insert h hrank value)
  simp only [List.map_drop, List.head?_drop] at hdrop
  exact ((h.insert hrank value).nth_eq _).trans (hdrop.trans (h.nth_eq rank).symm)

/-- What is out of reach for the names to come stays so. -/
theorem Retires.insert {old : List Handle} (h : sequence.Retires old) (cursor : Cursor) (value : α) :
    (sequence.insert cursor value).1.Retires old := by
  have hone := h.allocate
  rcases names_insert sequence cursor value with ⟨-, -, -, hfree, hslots⟩ | ⟨-, hfree, hslots⟩
  · exact ⟨by rw [hfree]; exact hone.free, by rw [hslots]; exact hone.bounded⟩
  · have htwo := hone.allocate
    exact ⟨by rw [hfree]; exact htwo.free, by rw [hslots]; exact htwo.bounded⟩

/-! ### Removal -/

/-- A removal takes one element out, and the position after it is where it was. -/
theorem Sound.erase_nth (h : sequence.Sound S) {rank : Nat} (hrank : rank < sequence.entries.length) :
    (sequence.erase (sequence.nth rank)).1.entries = sequence.entries.eraseIdx rank ∧
      (sequence.erase (sequence.nth rank)).2 = sequence.nth (rank + 1) := by
  have hhandles : rank < sequence.handles.length := by simpa using hrank
  have hsome : sequence.nth rank = some sequence.handles[rank] := by
    rw [h.nth_eq, List.getElem?_eq_getElem hhandles]
  have hnext := h.next_nth hrank
  have hrank' := h.rank_nth hrank.le
  rw [hsome] at hnext hrank' ⊢
  cases hroot : sequence.root with
  | none => simp [entries_none hroot] at hrank
  | some tree =>
    rw [entries_some hroot] at hrank ⊢
    rcases Nat.lt_or_ge 1 tree.entries.length with htwo | hone
    · obtain ⟨above, habove, -⟩ := SumTree.jointNames_erase htwo rank
      simp only [erase, hroot, hrank', habove]
      exact ⟨SumTree.entries_erase (h.cached tree hroot).sized hrank htwo, hnext⟩
    · cases tree with
      | leaf name value =>
        obtain rfl : rank = 0 := by simpa [SumTree.entries] using hrank
        simp [erase, hroot, hnext, SumTree.jointAbove?, entries, SumTree.entries]
      | joint name sum size left right =>
        have := left.length_entries_pos
        have := right.length_entries_pos
        simp only [SumTree.entries, List.length_append] at hone
        omega

/-- What a removal does to the names: that of the leaf and that of the joint above it are given
back. -/
theorem Sound.names_erase (h : sequence.Sound S) {rank : Nat}
    (hrank : rank < sequence.entries.length) (hhandles : rank < sequence.handles.length) :
    (sequence.erase (sequence.nth rank)).1.slots = sequence.slots ∧
    ((sequence.jointNames = [] ∧ (sequence.erase (sequence.nth rank)).1.jointNames = [] ∧
        (sequence.erase (sequence.nth rank)).1.free =
          sequence.handles[rank].renewed :: sequence.free) ∨
      ∃ above, sequence.jointNames.Perm
          (above :: (sequence.erase (sequence.nth rank)).1.jointNames) ∧
        (sequence.erase (sequence.nth rank)).1.free =
          above.renewed :: sequence.handles[rank].renewed :: sequence.free) := by
  have hsome : sequence.nth rank = some sequence.handles[rank] := by
    rw [h.nth_eq, List.getElem?_eq_getElem hhandles]
  have hrank' := h.rank_nth hrank.le
  rw [hsome] at hrank' ⊢
  cases hroot : sequence.root with
  | none => simp [entries_none hroot] at hrank
  | some tree =>
    rw [entries_some hroot] at hrank
    rcases Nat.lt_or_ge 1 tree.entries.length with htwo | hone
    · obtain ⟨above, habove, hperm⟩ := SumTree.jointNames_erase htwo rank
      simp only [erase, hroot, hrank', habove]
      exact ⟨trivial, .inr ⟨above, by simpa [jointNames, hroot] using hperm, rfl⟩⟩
    · cases tree with
      | leaf name value =>
        simp [erase, hroot, SumTree.jointAbove?, jointNames, SumTree.jointNames]
      | joint name sum size left right =>
        have := left.length_entries_pos
        have := right.length_entries_pos
        simp only [SumTree.entries, List.length_append] at hone
        omega

theorem Sound.handles_erase (h : sequence.Sound S) {rank : Nat}
    (hrank : rank < sequence.entries.length) :
    (sequence.erase (sequence.nth rank)).1.handles = sequence.handles.eraseIdx rank := by
  simp [handles, (h.erase_nth hrank).1, List.eraseIdx_map]

theorem Sound.toList_erase (h : sequence.Sound S) {rank : Nat}
    (hrank : rank < sequence.entries.length) :
    (sequence.erase (sequence.nth rank)).1.toList = sequence.toList.eraseIdx rank := by
  simp [toList, (h.erase_nth hrank).1, List.eraseIdx_map]

theorem Sound.named_erase (h : sequence.Sound S) {rank : Nat}
    (hrank : rank < sequence.entries.length) : (sequence.erase (sequence.nth rank)).1.Named := by
  have hhandles : rank < sequence.handles.length := by simpa using hrank
  have hperm : sequence.handles.Perm
      (sequence.handles[rank] :: (sequence.erase (sequence.nth rank)).1.handles) := by
    rw [h.handles_erase hrank]
    exact (List.getElem_cons_eraseIdx_perm hhandles).symm
  obtain ⟨hslots, ⟨hnil, hjoints, hfree⟩ | ⟨above, hjoints, hfree⟩⟩ := h.names_erase hrank hhandles
  · refine h.named.of_slots hslots ?_
    rw [hjoints, hfree, hnil, List.append_nil, List.append_nil]
    refine List.Perm.trans ?_ ((hperm.append_right sequence.free).symm.map _)
    simp
  · refine h.named.of_slots hslots ?_
    rw [hfree]
    refine List.Perm.trans ?_ (((hperm.append hjoints).append_right sequence.free).symm.map _)
    generalize (sequence.erase (sequence.nth rank)).1 = rest
    simp only [List.map_append, List.map_cons, Handle.slot_renewed, List.append_assoc,
      List.cons_append]
    rw [← List.append_assoc]
    refine List.perm_middle.trans ((List.perm_middle.cons _).trans ?_)
    refine (List.Perm.swap _ _ _).trans (List.Perm.cons _ ?_)
    rw [List.append_assoc]
    exact List.perm_middle.symm

theorem Sound.erase (h : sequence.Sound S) {rank : Nat} (hrank : rank < sequence.entries.length) :
    (sequence.erase (sequence.nth rank)).1.Sound S := by
  refine ⟨h.named_erase hrank, fun tree htree => ?_⟩
  have hhandles : rank < sequence.handles.length := by simpa using hrank
  have hsome : sequence.nth rank = some sequence.handles[rank] := by
    rw [h.nth_eq, List.getElem?_eq_getElem hhandles]
  have hrank' := h.rank_nth hrank.le
  rw [hsome] at hrank' htree
  cases hroot : sequence.root with
  | none => simp [entries_none hroot] at hrank
  | some old =>
    rw [entries_some hroot] at hrank
    simp only [Sequence.erase, hroot, hrank'] at htree
    cases habove : old.jointAbove? rank with
    | none => simp [habove] at htree
    | some above =>
      simp only [habove, Option.some.injEq] at htree
      rw [← htree]
      exact (h.cached old hroot).erase hrank

/-- While elements are only taken out, no name of an old one comes back. -/
theorem Shrinks.erase {old : List Handle} (hold : sequence.Shrinks old) (h : sequence.Sound S)
    {rank : Nat} (hrank : rank < sequence.entries.length) :
    (sequence.erase (sequence.nth rank)).1.Shrinks old := by
  have hhandles : rank < sequence.handles.length := by simpa using hrank
  have hmem : sequence.handles[rank] ∈ old := hold.live _ (List.getElem_mem hhandles)
  have hrenewed : sequence.handles[rank].renewed ∉ old := fun hmem' =>
    sequence.handles[rank].renewed_ne
      (List.inj_on_of_nodup_map hold.nodup hmem' hmem (Handle.slot_renewed _))
  have hlive : ∀ name ∈ (sequence.erase (sequence.nth rank)).1.handles, name ∈ old := by
    intro name hname
    rw [h.handles_erase hrank] at hname
    exact hold.live name (List.mem_of_mem_eraseIdx hname)
  obtain ⟨hslots, ⟨hnil, hjoints, hfree⟩ | ⟨above, hjoints, hfree⟩⟩ := h.names_erase hrank hhandles
  · refine ⟨⟨fun name hname => ?_, by rw [hslots]; exact hold.bounded⟩, hlive, by simp [hjoints],
      hold.nodup⟩
    rw [hfree] at hname
    rcases List.mem_cons.1 hname with rfl | hname
    · exact hrenewed
    · exact hold.free name hname
  · refine ⟨⟨fun name hname => ?_, by rw [hslots]; exact hold.bounded⟩, hlive, fun name hname => ?_,
      hold.nodup⟩
    · rw [hfree] at hname
      rcases List.mem_cons.1 hname with rfl | hname
      · -- the joint's slot is no slot of an old element, so neither is its renewed name
        intro hmem'
        refine hold.joints above (hjoints.mem_iff.2 List.mem_cons_self) ?_
        exact List.mem_map.2 ⟨above.renewed, hmem', rfl⟩
      · rcases List.mem_cons.1 hname with rfl | hname
        · exact hrenewed
        · exact hold.free name hname
    · exact hold.joints name (hjoints.mem_iff.2 (List.mem_cons_of_mem _ hname))

end LiveProse.Sequence
