import LiveProse.Proofs.Sequence.Tree
import LiveProse.Sequence.Sequence

/-! Names of vertices. A slot carries one name at a time, whether its vertex is in the tree or its
name waits to be given out again; so a name that is given out is never that of a live element, nor
that of one erased since the last time names were looked at. -/

namespace LiveProse

open Combine

namespace SumTree

variable {α : Type} [Combine α]

omit [Combine α] in
/-- Between leaves there is one joint less than there are leaves. -/
theorem length_jointNames (tree : SumTree α) : tree.jointNames.length + 1 = tree.entries.length := by
  induction tree with
  | leaf name value => rfl
  | joint name sum size left right ihl ihr =>
    simp only [jointNames, entries, List.length_cons, List.length_append]
    omega

theorem jointNames_rotateRight (tree : SumTree α) :
    tree.rotateRight.jointNames.Perm tree.jointNames := by
  unfold rotateRight
  split
  · simp only [jointNames, List.append_assoc, List.cons_append]
    refine (List.perm_middle.cons _).trans ((List.Perm.swap _ _ _).trans ?_)
    exact List.Perm.refl _
  · exact List.Perm.refl _

theorem jointNames_rotateLeft (tree : SumTree α) :
    tree.rotateLeft.jointNames.Perm tree.jointNames := by
  unfold rotateLeft
  split
  · simp only [jointNames, List.append_assoc, List.cons_append]
    refine (List.Perm.swap _ _ _).trans (List.Perm.cons _ ?_)
    exact List.perm_middle.symm
  · exact List.Perm.refl _

omit [Combine α] in
private theorem jointNames_congr (name : Handle) (sum sum' : α) (size size' : Nat)
    {left left' right right' : SumTree α} (hl : left.jointNames.Perm left'.jointNames)
    (hr : right.jointNames.Perm right'.jointNames) :
    (joint name sum size left right).jointNames.Perm
      (joint name sum' size' left' right').jointNames :=
  (hl.append hr).cons _

theorem jointNames_rebalance (tree : SumTree α) :
    tree.rebalance.jointNames.Perm tree.jointNames := by
  unfold rebalance
  split
  · exact List.Perm.refl _
  · split_ifs
    · split
      · exact List.Perm.refl _
      · split_ifs
        · exact (jointNames_rotateRight _).trans
            (jointNames_congr _ _ _ _ _ (jointNames_rotateLeft _) (List.Perm.refl _))
        · exact jointNames_rotateRight _
    · split
      · exact List.Perm.refl _
      · split_ifs
        · exact (jointNames_rotateLeft _).trans
            (jointNames_congr _ _ _ _ _ (List.Perm.refl _) (jointNames_rotateRight _))
        · exact jointNames_rotateLeft _
    · exact List.Perm.refl _

theorem jointNames_insert (tree : SumTree α) (name fork : Handle) (value : α) (rank : Nat) :
    (tree.insert name fork value rank).jointNames.Perm (fork :: tree.jointNames) := by
  induction tree generalizing rank with
  | leaf other element =>
    simp only [insert]
    split <;> simp [jointNames]
  | joint here sum size left right ihl ihr =>
    simp only [insert]
    split
    · refine (jointNames_rebalance _).trans ?_
      simp only [jointNames]
      exact (((ihl rank).append_right _).cons here).trans (List.Perm.swap _ _ _)
    · refine (jointNames_rebalance _).trans ?_
      simp only [jointNames]
      refine (((ihr _).append_left _).cons here).trans ?_
      exact (List.perm_middle.cons _).trans (List.Perm.swap _ _ _)

/-- Removing a leaf removes the joint above it and keeps every other. -/
theorem jointNames_erase {tree : SumTree α} (htwo : 1 < tree.entries.length) (rank : Nat) :
    ∃ above, tree.jointAbove? rank = some above ∧
      tree.jointNames.Perm (above :: (tree.erase rank).jointNames) := by
  induction tree generalizing rank with
  | leaf name value => simp [entries] at htwo
  | joint here sum size left right ihl ihr =>
    unfold erase jointAbove?
    split
    · cases left with
      | leaf name value => exact ⟨here, by simp [jointAbove?], by simp [jointNames]⟩
      | joint n s k l r =>
        have := l.length_entries_pos
        have := r.length_entries_pos
        obtain ⟨above, habove, hperm⟩ := ihl (by simp only [entries, List.length_append]; omega) rank
        refine ⟨above, by rw [habove]; rfl, ?_⟩
        refine List.Perm.trans ?_ ((jointNames_rebalance _).symm.cons above)
        simp only [jointNames] at hperm ⊢
        exact ((hperm.append_right right.jointNames).cons here).trans (List.Perm.swap _ _ _)
    · cases right with
      | leaf name value => exact ⟨here, by simp [jointAbove?], by simp [jointNames]⟩
      | joint n s k l r =>
        have := l.length_entries_pos
        have := r.length_entries_pos
        obtain ⟨above, habove, hperm⟩ :=
          ihr (by simp only [entries, List.length_append]; omega) (rank - left.size)
        refine ⟨above, by rw [habove]; rfl, ?_⟩
        refine List.Perm.trans ?_ ((jointNames_rebalance _).symm.cons above)
        simp only [jointNames] at hperm ⊢
        refine ((hperm.append_left left.jointNames).cons here).trans ?_
        exact (List.perm_middle.cons _).trans (List.Perm.swap _ _ _)

end SumTree

theorem Handle.renewed_ne (handle : Handle) : handle.renewed ≠ handle := by
  intro h
  have hgen : handle.generation + 1 = handle.generation := congrArg Handle.generation h
  have hnat := congrArg UInt32.toNat hgen
  rw [UInt32.toNat_add] at hnat
  have := handle.generation.toNat_lt
  simp only [UInt32.toNat_one] at hnat
  omega

@[simp] theorem Handle.slot_renewed (handle : Handle) : handle.renewed.slot = handle.slot := rfl

namespace Sequence

variable {α : Type}

/-- The names of the joints of the tree. -/
def jointNames (sequence : Sequence α) : List Handle :=
  (sequence.root.map SumTree.jointNames).getD []

/-- Names in use next to those that wait to be given out: a slot carries one of them, and no slot is
in use that was not made. -/
structure Fits (used : List Handle) (sequence : Sequence α) : Prop where
  nodup : ((used ++ sequence.free).map Handle.slot).Nodup
  bounded : ∀ name ∈ used ++ sequence.free, name.slot < sequence.slots

/-- The names of the vertices fit. -/
def Named (sequence : Sequence α) : Prop :=
  sequence.Fits (sequence.handles ++ sequence.jointNames)

/-- The names `old` are not those of any vertex to come. -/
structure Retires (old : List Handle) (sequence : Sequence α) : Prop where
  free : ∀ name ∈ sequence.free, name ∉ old
  bounded : ∀ name ∈ old, name.slot < sequence.slots

/-- Nothing but elements named in `old` is left, and no joint has taken one of their slots. So names
that are given back do not come from `old` either. -/
structure Shrinks (old : List Handle) (sequence : Sequence α) : Prop extends
    Retires old sequence where
  live : ∀ name ∈ sequence.handles, name ∈ old
  joints : ∀ name ∈ sequence.jointNames, name.slot ∉ old.map Handle.slot
  nodup : (old.map Handle.slot).Nodup

/-- Only the slots matter. -/
theorem Fits.of_slots {sequence sequence' : Sequence α} {used used' : List Handle}
    (h : sequence.Fits used) (hslots : sequence'.slots = sequence.slots)
    (hperm : ((used' ++ sequence'.free).map Handle.slot).Perm
      ((used ++ sequence.free).map Handle.slot)) : sequence'.Fits used' := by
  refine ⟨hperm.nodup_iff.2 h.nodup, fun name hname => ?_⟩
  obtain ⟨other, hother, hslot⟩ := List.mem_map.1 (hperm.mem_iff.1 (List.mem_map_of_mem hname))
  rw [hslots, ← hslot]
  exact h.bounded other hother

theorem Fits.perm {sequence : Sequence α} {used used' : List Handle} (h : sequence.Fits used)
    (hperm : used.Perm used') : sequence.Fits used' :=
  h.of_slots rfl ((hperm.symm.append_right sequence.free).map _)

theorem Fits.nodup_used {sequence : Sequence α} {used : List Handle} (h : sequence.Fits used) :
    (used.map Handle.slot).Nodup := by
  have := h.nodup
  rw [List.map_append] at this
  exact this.of_append_left

theorem Fits.disjoint {sequence : Sequence α} {used : List Handle} (h : sequence.Fits used)
    {name : Handle} (hfree : name ∈ sequence.free) : name.slot ∉ used.map Handle.slot := by
  intro hused
  have hnodup := h.nodup
  rw [List.map_append, List.nodup_append] at hnodup
  exact hnodup.2.2 _ hused _ (List.mem_map_of_mem hfree) rfl

/-- A name that is given out joins the names in use. -/
theorem Fits.allocate {sequence : Sequence α} {used : List Handle} (h : sequence.Fits used) :
    sequence.allocate.Fits (sequence.nextName :: used) := by
  obtain ⟨root, free, slots⟩ := sequence
  obtain ⟨hnodup, hbounded⟩ := h
  cases free with
  | nil =>
    refine ⟨?_, ?_⟩
    · rw [List.cons_append, List.map_cons, List.nodup_cons]
      refine ⟨fun hmem => ?_, hnodup⟩
      obtain ⟨name, hname, hslot⟩ := List.mem_map.1 hmem
      have := hbounded name hname
      simp [nextName] at hslot this
      omega
    · intro name hname
      rcases List.mem_cons.1 hname with rfl | hname
      · simp [nextName, Sequence.allocate]
      · exact Nat.lt_succ_of_lt (hbounded name hname)
  | cons next free =>
    have hperm : (used ++ next :: free).Perm (next :: used ++ free) := List.perm_middle
    exact ⟨(hperm.map _).nodup_iff.1 hnodup, fun name hname => hbounded name (hperm.mem_iff.2 hname)⟩

theorem Named.empty : Named (Sequence.empty : Sequence α) :=
  ⟨List.nodup_nil, by simp [Sequence.empty, handles, entries, jointNames]⟩

theorem Named.nodup_slots {sequence : Sequence α} (h : sequence.Named) :
    (sequence.handles.map Handle.slot).Nodup := by
  have := h.nodup_used
  rw [List.map_append] at this
  exact this.of_append_left

theorem Named.nodup_handles {sequence : Sequence α} (h : sequence.Named) :
    sequence.handles.Nodup := h.nodup_slots.of_map

theorem Named.shrinks {sequence : Sequence α} (h : sequence.Named) :
    Shrinks sequence.handles sequence where
  free name hfree hold := by
    refine h.disjoint hfree ?_
    rw [List.map_append]
    exact List.mem_append_left _ (List.mem_map_of_mem hold)
  bounded name hold := h.bounded name (List.mem_append_left _ (List.mem_append_left _ hold))
  live _ hold := hold
  joints name hjoint hold := by
    have hnodup := h.nodup_used
    rw [List.map_append, List.nodup_append] at hnodup
    exact hnodup.2.2 _ hold _ (List.mem_map_of_mem hjoint) rfl
  nodup := h.nodup_slots

theorem Retires.nextName_not_mem {sequence : Sequence α} {old : List Handle}
    (h : Retires old sequence) : sequence.nextName ∉ old := by
  obtain ⟨root, free, slots⟩ := sequence
  cases free with
  | nil =>
    intro hmem
    exact absurd (h.bounded _ hmem) (by simp [nextName])
  | cons next free => exact h.free next List.mem_cons_self

theorem Named.nextName_not_mem {sequence : Sequence α} (h : sequence.Named) :
    sequence.nextName ∉ sequence.handles :=
  h.shrinks.toRetires.nextName_not_mem

theorem Retires.allocate {sequence : Sequence α} {old : List Handle} (h : Retires old sequence) :
    Retires old sequence.allocate := by
  obtain ⟨root, free, slots⟩ := sequence
  cases free with
  | nil => exact ⟨h.free, fun name hname => Nat.lt_succ_of_lt (h.bounded name hname)⟩
  | cons next free =>
    exact ⟨fun name hname => h.free name (List.mem_cons_of_mem _ hname), h.bounded⟩

end Sequence

end LiveProse
