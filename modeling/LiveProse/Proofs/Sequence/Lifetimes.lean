import LiveProse.Proofs.Sequence.Listings

/-!
Lifetimes of handles. A slot is given back whenever its vertex goes, be it a leaf or a joint, and its
generation counts how often that was. So as long as no slot is given back as often as generations can
count, a handle that is given out is a new one, finds its element until that is erased, and finds
nothing after that, even if the slot becomes a leaf again.
-/

namespace LiveProse

open Combine

/-- What became of a sequence since it was empty. -/
structure Record (α : Type) where
  /-- The handles that were given out, each with its element, last one first. -/
  issued : List (Handle × α) := []
  /-- The handles whose elements were erased. -/
  erased : List Handle := []
  /-- The slots that were given back, each as often as it was. -/
  released : List ℕ := []

/-- The slot of the handle was given back since it had the handle's generation. -/
def Handle.Past (released : List ℕ) (handle : Handle) : Prop :=
  ∃ times < released.count handle.slot, handle.generation = UInt32.ofNat times

theorem Handle.Past.append {released : List ℕ} {handle : Handle} (h : handle.Past released)
    (more : List ℕ) : handle.Past (more ++ released) := by
  obtain ⟨times, hlt, heq⟩ := h
  refine ⟨times, ?_, heq⟩
  rw [List.count_append]
  omega

namespace Sequence

variable {α : Type}

/-- The names of all vertices. -/
def vertices (sequence : Sequence α) : List Handle := sequence.handles ++ sequence.jointNames

/-- The slots of all vertices. -/
def liveSlots (sequence : Sequence α) : List ℕ := sequence.vertices.map Handle.slot

/-- The slots that a removal gives back: that of the joint above the leaf, if there is one, and that of
the leaf. -/
def releasedBy (sequence : Sequence α) (cursor : Cursor) : List ℕ :=
  match cursor, sequence.root with
  | some handle, some tree =>
    ((tree.jointAbove? (sequence.rank cursor)).map Handle.slot).toList ++ [handle.slot]
  | _, _ => []

end Sequence

/-- A sequence that insertions and removals at live positions lead to from the empty one, with the
record of them. Clearing a sequence begins a new record. -/
inductive Life {α : Type} [Combine α] : Sequence α → Record α → Prop where
  | empty : Life Sequence.empty {}
  | insert {sequence : Sequence α} {record : Record α} (cursor : Cursor) (value : α) :
    Life sequence record → Listing.Live sequence.entries cursor →
      Life (sequence.insert cursor value).1
        { record with issued := ((sequence.insert cursor value).2, value) :: record.issued }
  | erase {sequence : Sequence α} {record : Record α} (cursor : Cursor) :
    Life sequence record → Listing.Live sequence.entries cursor →
      Life (sequence.erase cursor).1
        { record with
          erased := cursor.toList ++ record.erased
          released := sequence.releasedBy cursor ++ record.released }
  | clear {sequence : Sequence α} {record : Record α} :
    Life sequence record → Life sequence.clear {}

namespace Sequence

/-! ### Slots and generations -/

section Names

variable {α : Type} {sequence other : Sequence α} {released : List ℕ} {used more : List Handle}

/-- Every slot has one name, and its generation counts how often the slot was given back. -/
structure Accounts (released : List ℕ) (used : List Handle) (sequence : Sequence α) : Prop where
  slots : ((used ++ sequence.free).map Handle.slot).Perm (List.range sequence.slots)
  generation : ∀ name ∈ used ++ sequence.free,
    name.generation = UInt32.ofNat (released.count name.slot)
  made : ∀ slot ∈ released, slot < sequence.slots

theorem Accounts.perm (h : sequence.Accounts released used) (hperm : used.Perm more) :
    sequence.Accounts released more where
  slots := ((hperm.symm.append_right _).map _).trans h.slots
  generation name hname := h.generation name ((hperm.append_right _).mem_iff.2 hname)
  made := h.made

theorem Accounts.congr (h : sequence.Accounts released used) (hfree : other.free = sequence.free)
    (hslots : other.slots = sequence.slots) : other.Accounts released used where
  slots := by rw [hfree, hslots]; exact h.slots
  generation := by rw [hfree]; exact h.generation
  made := by rw [hslots]; exact h.made

theorem Accounts.empty : (Sequence.empty : Sequence α).Accounts [] [] where
  slots := List.Perm.refl _
  generation := by simp [Sequence.empty]
  made := by simp

/-- A name that is given out has the generation of its slot. -/
theorem Accounts.allocate (h : sequence.Accounts released used) :
    sequence.allocate.Accounts released (sequence.nextName :: used) := by
  obtain ⟨root, free, slots⟩ := sequence
  obtain ⟨hslots, hgeneration, hmade⟩ := h
  cases free with
  | nil =>
    refine ⟨?_, fun name hname => ?_, fun slot hslot => Nat.lt_succ_of_lt (hmade slot hslot)⟩
    · have hnew : (List.range (slots + 1)).Perm (slots :: List.range slots) := by
        rw [List.range_succ]
        exact List.perm_append_singleton _ _
      exact (hslots.cons slots).trans hnew.symm
    · rcases List.mem_cons.1 hname with rfl | hname
      · have hzero : released.count slots = 0 :=
          List.count_eq_zero.2 fun hmem => Nat.lt_irrefl _ (hmade slots hmem)
        simp [nextName, hzero]
      · exact hgeneration name hname
  | cons next free =>
    have hperm : (used ++ next :: free).Perm (next :: used ++ free) := List.perm_middle
    exact ⟨(hperm.symm.map _).trans hslots, fun name hname => hgeneration name (hperm.mem_iff.2 hname),
      hmade⟩

theorem Accounts.nodup (h : sequence.Accounts released used) :
    ((used ++ sequence.free).map Handle.slot).Nodup :=
  h.slots.nodup_iff.2 List.nodup_range

/-- A name that is given back is renewed, and the generations of all other slots stay as they are. -/
theorem Accounts.release {name : Handle} (h : sequence.Accounts released (name :: used))
    (hfree : other.free = name.renewed :: sequence.free) (hslots : other.slots = sequence.slots) :
    other.Accounts (name.slot :: released) used := by
  have hmiddle : ((used ++ name.renewed :: sequence.free).map Handle.slot).Perm
      ((name :: used ++ sequence.free).map Handle.slot) := by
    simp only [List.map_append, List.map_cons, Handle.slot_renewed, List.cons_append]
    exact List.perm_middle
  have hhere := h.generation name List.mem_cons_self
  have hnodup := h.nodup
  rw [List.cons_append, List.map_cons, List.nodup_cons] at hnodup
  refine ⟨by rw [hfree, hslots]; exact hmiddle.trans h.slots, fun renewed hmem => ?_,
    fun slot hslot => ?_⟩
  · rw [hfree, List.perm_middle.mem_iff, List.mem_cons] at hmem
    rcases hmem with rfl | hmem
    · rw [Handle.slot_renewed, List.count_cons_self, UInt32.ofNat_add, ← hhere]
      rfl
    · have hne : name.slot ≠ renewed.slot := fun heq =>
        hnodup.1 (heq ▸ List.mem_map_of_mem hmem)
      rw [List.count_cons_of_ne hne]
      exact h.generation renewed (List.mem_cons_of_mem _ hmem)
  · rw [hslots]
    rcases List.mem_cons.1 hslot with rfl | hslot
    · exact List.mem_range.1 (h.slots.mem_iff.1 (List.mem_map_of_mem List.mem_cons_self))
    · exact h.made slot hslot

/-- The name that a slot has now is none that it had before, as long as generations can count. -/
theorem Accounts.not_past (h : sequence.Accounts released used) {name : Handle}
    (hname : name ∈ used ++ sequence.free) (hreleased : released.count name.slot < 2 ^ 32) :
    ¬name.Past released := by
  rintro ⟨times, hlt, heq⟩
  rw [h.generation name hname] at heq
  have hnat := congrArg UInt32.toNat heq
  rw [UInt32.toNat_ofNat', UInt32.toNat_ofNat'] at hnat
  omega

/-- The free names are those of the slots that no vertex has. -/
theorem Accounts.mem_free (h : sequence.Accounts released used) (slot : ℕ) :
    slot ∈ sequence.free.map Handle.slot ↔ slot < sequence.slots ∧ slot ∉ used.map Handle.slot := by
  have hnodup := h.nodup
  have hmem := h.slots.mem_iff (a := slot)
  rw [List.map_append, List.mem_append, List.mem_range] at hmem
  rw [List.map_append, List.nodup_append] at hnodup
  rw [← hmem]
  constructor
  · exact fun hfree => ⟨.inr hfree, fun hused => hnodup.2.2 slot hused slot hfree rfl⟩
  · rintro ⟨hused | hfree, hnot⟩
    · exact absurd hused hnot
    · exact hfree

end Names

/-! ### One change -/

variable {α : Type} [Combine α] {S : Summary α} {sequence : Sequence α} {cursor : Cursor}
variable {released : List ℕ}

/-- What a removal gives back comes in front of the free names. -/
theorem map_slot_free_erase (sequence : Sequence α) (cursor : Cursor) :
    (sequence.erase cursor).1.free.map Handle.slot =
      sequence.releasedBy cursor ++ sequence.free.map Handle.slot := by
  unfold erase releasedBy
  cases cursor with
  | none => rfl
  | some handle =>
    cases hroot : sequence.root with
    | none => rfl
    | some tree => cases habove : tree.jointAbove? (sequence.rank (some handle)) <;> simp [habove]

theorem Accounts.insert (h : sequence.Accounts released sequence.vertices) (hsound : sequence.Sound S)
    (hlive : Listing.Live sequence.entries cursor) (value : α) :
    (sequence.insert cursor value).1.Accounts released (sequence.insert cursor value).1.vertices := by
  have hhandles : (sequence.insert cursor value).1.handles.Perm
      (sequence.nextName :: sequence.handles) := by
    have hinsert := handles_insert hsound (Listing.place_le sequence.entries cursor) value
    rw [hsound.nth_place hlive] at hinsert
    rw [hinsert]
    refine List.perm_middle.trans ?_
    rw [List.take_append_drop]
  rcases names_insert sequence cursor value with ⟨-, hnil, hj, hfree, hslots⟩ | ⟨hj, hfree, hslots⟩
  · refine (h.allocate.perm ?_).congr hfree hslots
    rw [vertices, vertices, hj, hnil, List.append_nil, List.append_nil]
    exact hhandles.symm
  · refine (h.allocate.allocate.perm ?_).congr hfree hslots
    exact List.perm_middle.symm.trans (hhandles.symm.append hj.symm)

theorem Accounts.erase (h : sequence.Accounts released sequence.vertices) (hsound : sequence.Sound S)
    (hlive : Listing.Live sequence.entries cursor) :
    (sequence.erase cursor).1.Accounts (sequence.releasedBy cursor ++ released)
      (sequence.erase cursor).1.vertices := by
  rcases Nat.lt_or_ge (Listing.place sequence.entries cursor) sequence.entries.length with hrank | hge
  · have hhandles : Listing.place sequence.entries cursor < sequence.handles.length := by
      simpa using hrank
    have herase := hsound.handles_erase hrank
    have hperm := (List.getElem_cons_eraseIdx_perm hhandles).symm
    rw [← herase] at hperm
    have hchange := hsound.names_erase hrank hhandles
    rw [hsound.nth_place hlive] at hperm hchange
    generalize sequence.handles[Listing.place sequence.entries cursor] = handle at hperm hchange
    have hslots := map_slot_free_erase sequence cursor
    obtain ⟨hsame, ⟨hnil, hjoints, hfree⟩ | ⟨above, hjoints, hfree⟩⟩ := hchange
    · have hgiven : sequence.releasedBy cursor = [handle.slot] := by
        rw [hfree] at hslots
        exact List.append_cancel_right (hslots.symm : _ = [handle.slot] ++ _)
      rw [hgiven]
      refine Accounts.release (h.perm ?_) hfree hsame
      rw [vertices, vertices, hnil, hjoints, List.append_nil, List.append_nil]
      exact hperm
    · have hgiven : sequence.releasedBy cursor = [above.slot, handle.slot] := by
        rw [hfree] at hslots
        exact List.append_cancel_right (hslots.symm : _ = [above.slot, handle.slot] ++ _)
      rw [hgiven]
      -- the leaf is given back first, and then the joint that was above it
      have hleaf : ({ sequence with free := handle.renewed :: sequence.free } : Sequence α).Accounts
          (handle.slot :: released) (above :: (sequence.erase cursor).1.vertices) := by
        refine Accounts.release (h.perm ?_) rfl rfl
        exact (hperm.append hjoints).trans (List.perm_middle.cons _)
      exact hleaf.release hfree hsame
  · obtain rfl := hsound.eq_none_of_place hlive hge
    exact h

/-! ### Records -/

/-- The record accounts for the slots, the live elements are on it, and whatever is not live was erased
and its slot given back. -/
structure Recorded (sequence : Sequence α) (record : Record α) : Prop where
  accounts : sequence.Accounts record.released sequence.vertices
  known : ∀ entry ∈ sequence.entries, entry ∈ record.issued
  issued : ∀ entry ∈ record.issued, entry ∈ sequence.entries ∨ entry.1 ∈ record.erased
  erased : ∀ handle ∈ record.erased, handle.Past record.released

variable {record : Record α}

theorem Recorded.insert (h : sequence.Recorded record) (hsound : sequence.Sound S)
    (hlive : Listing.Live sequence.entries cursor) (value : α) :
    (sequence.insert cursor value).1.Recorded
      { record with issued := ((sequence.insert cursor value).2, value) :: record.issued } := by
  have hmem (entry : Handle × α) : entry ∈ (sequence.insert cursor value).1.entries ↔
      entry = ((sequence.insert cursor value).2, value) ∨ entry ∈ sequence.entries := by
    rw [hsound.entries_insertIdx hlive, List.mem_insertIdx (Listing.place_le _ _)]
  refine ⟨h.accounts.insert hsound hlive value, fun entry hentry => ?_, fun entry hentry => ?_, h.erased⟩
  · rcases (hmem entry).1 hentry with rfl | hold
    · exact List.mem_cons_self
    · exact List.mem_cons_of_mem _ (h.known entry hold)
  · rcases List.mem_cons.1 hentry with rfl | hold
    · exact .inl ((hmem _).2 (.inl rfl))
    · exact (h.issued entry hold).imp_left fun hin => (hmem entry).2 (.inr hin)

/-- A removal takes out nothing but the element at the position. -/
theorem Sound.mem_entries_erase (h : sequence.Sound S) (hlive : Listing.Live sequence.entries cursor)
    {entry : Handle × α} (hentry : entry ∈ sequence.entries) :
    entry ∈ (sequence.erase cursor).1.entries ∨ cursor = some entry.1 := by
  obtain ⟨-, hentries, -⟩ := h.erase_live hlive
  have hposition := Listing.position_place hlive
  rcases Nat.lt_or_ge (Listing.place sequence.entries cursor) sequence.entries.length with hlt | hge
  · have hperm := List.getElem_cons_eraseIdx_perm hlt
    rcases List.mem_cons.1 (hperm.mem_iff.2 hentry) with rfl | hrest
    · rw [Listing.position, List.getElem?_map, List.getElem?_eq_getElem hlt] at hposition
      exact .inr hposition.symm
    · exact .inl (hentries ▸ hrest)
  · rw [List.eraseIdx_of_length_le hge] at hentries
    exact .inl (hentries ▸ hentry)

omit [Combine α] in
theorem slot_mem_releasedBy {handle : Handle} (h : handle ∈ sequence.handles) :
    handle.slot ∈ sequence.releasedBy (some handle) := by
  cases hroot : sequence.root with
  | none => simp [handles, entries_none hroot] at h
  | some tree => simp [releasedBy, hroot]

theorem Recorded.erase (h : sequence.Recorded record) (hsound : sequence.Sound S)
    (hlive : Listing.Live sequence.entries cursor) :
    (sequence.erase cursor).1.Recorded
      { record with
        erased := cursor.toList ++ record.erased
        released := sequence.releasedBy cursor ++ record.released } := by
  obtain ⟨-, hentries, -⟩ := hsound.erase_live hlive
  refine ⟨h.accounts.erase hsound hlive, fun entry hentry => ?_, fun entry hentry => ?_,
    fun handle hhandle => ?_⟩
  · rw [hentries] at hentry
    exact h.known entry (List.mem_of_mem_eraseIdx hentry)
  · rcases h.issued entry hentry with hin | herased
    · refine (hsound.mem_entries_erase hlive hin).imp_right fun hcursor => ?_
      exact List.mem_append_left _ (by simp [hcursor])
    · exact .inr (List.mem_append_right _ herased)
  · rcases List.mem_append.1 hhandle with hhere | hold
    · obtain rfl : cursor = some handle := Option.mem_toList.1 hhere
      have hused : handle ∈ sequence.handles := hlive handle rfl
      have hgeneration := h.accounts.generation handle
        (List.mem_append_left _ (List.mem_append_left _ hused))
      refine ⟨record.released.count handle.slot, ?_, hgeneration⟩
      have hpos := List.count_pos_iff.2 (slot_mem_releasedBy hused)
      rw [List.count_append]
      omega
    · exact (h.erased handle hold).append _

omit [Combine α] in
theorem Recorded.empty : (Sequence.empty : Sequence α).Recorded {} where
  accounts := .empty
  known := by simp [Sequence.empty, entries]
  issued := by simp
  erased := by simp

/-! ### Counting vertices -/

theorem Sound.length_liveSlots (h : sequence.Sound S) :
    sequence.liveSlots.length = 2 * sequence.length - 1 := by
  rw [liveSlots, List.length_map, vertices, List.length_append, length_handles, h.length_eq]
  cases hroot : sequence.root with
  | none => simp [entries_none hroot, jointNames, hroot]
  | some tree =>
    have hjoints := tree.length_jointNames
    rw [entries_some hroot, jointNames, hroot, Option.map_some, Option.getD_some]
    omega

/-- A handle is as good as its element, and a slot is used again only when no vertex has it. -/
structure Lasting (sequence : Sequence α) (record : Record α) : Prop where
  /-- No handle was given out twice. -/
  distinct : (record.issued.map (·.1)).Nodup
  entries : ∀ entry, entry ∈ sequence.entries ↔ entry ∈ record.issued ∧ entry.1 ∉ record.erased
  resolves : ∀ entry ∈ record.issued, entry.1 ∉ record.erased →
    sequence.contains entry.1 = true ∧ sequence.cursor? entry.1 = some (some entry.1) ∧
      sequence.get? entry.1 = some entry.2
  stale : ∀ handle ∈ record.erased,
    sequence.contains handle = false ∧ sequence.cursor? handle = none ∧ sequence.get? handle = none
  free_nodup : (sequence.free.map Handle.slot).Nodup
  mem_free : ∀ slot, slot ∈ sequence.free.map Handle.slot ↔
    slot < sequence.slots ∧ slot ∉ sequence.liveSlots
  live_nodup : sequence.liveSlots.Nodup
  length_live : sequence.liveSlots.length = 2 * sequence.length - 1

end Sequence

/-! ### Lives -/

namespace Life

variable {α : Type} [Combine α] {sequence : Sequence α} {record : Record α}

theorem sound_recorded (h : Life sequence record) :
    sequence.Sound (.any α) ∧ sequence.Recorded record := by
  induction h with
  | empty => exact ⟨.empty, .empty⟩
  | insert cursor value _ hlive ih =>
    exact ⟨ih.1.insert_live hlive value, ih.2.insert ih.1 hlive value⟩
  | erase cursor _ hlive ih => exact ⟨(ih.1.erase_live hlive).1, ih.2.erase ih.1 hlive⟩
  | clear _ _ => exact ⟨.empty, .empty⟩

/-- No handle is given out twice. -/
theorem nodup_issued (h : Life sequence record)
    (hreleased : ∀ slot, record.released.count slot < 2 ^ 32) : (record.issued.map (·.1)).Nodup := by
  induction h with
  | empty | clear => exact List.nodup_nil
  | erase cursor _ hlive ih =>
    refine ih fun slot => (List.Sublist.count_le slot ?_).trans_lt (hreleased slot)
    exact List.sublist_append_right _ _
  | @insert sequence record cursor value h hlive ih =>
    obtain ⟨hsound, hrecorded⟩ := h.sound_recorded
    refine List.nodup_cons.2 ⟨fun hmem => ?_, ih hreleased⟩
    obtain ⟨entry, hentry, hname⟩ := List.mem_map.1 hmem
    replace hname : entry.1 = sequence.nextName := hname.trans (Sequence.insert_snd ..)
    rcases hrecorded.issued entry hentry with hin | herased
    · refine hsound.named.nextName_not_mem ?_
      rw [← hname]
      exact List.mem_map_of_mem hin
    · rw [hname] at herased
      exact hrecorded.accounts.allocate.not_past List.mem_cons_self (hreleased _)
        (hrecorded.erased _ herased)

/-- As long as no slot is given back as often as generations can count, every handle finds its element
until that is erased, and nothing after that. -/
theorem lasting (h : Life sequence record)
    (hreleased : ∀ slot, record.released.count slot < 2 ^ 32) : sequence.Lasting record := by
  obtain ⟨hsound, hrecorded⟩ := h.sound_recorded
  have haccounts := hrecorded.accounts
  have hnodup := haccounts.nodup
  rw [List.map_append] at hnodup
  have hgone : ∀ handle ∈ record.erased, handle ∉ sequence.handles := fun handle herased hlive =>
    haccounts.not_past (List.mem_append_left _ (List.mem_append_left _ hlive)) (hreleased _)
      (hrecorded.erased handle herased)
  have hlive (entry : Handle × α) :
      entry ∈ sequence.entries ↔ entry ∈ record.issued ∧ entry.1 ∉ record.erased := by
    constructor
    · exact fun hin => ⟨hrecorded.known entry hin, fun herased =>
        hgone _ herased (List.mem_map_of_mem hin)⟩
    · exact fun ⟨hissued, hnot⟩ => (hrecorded.issued entry hissued).resolve_right hnot
  have hreads := hsound.reads
  refine ⟨h.nodup_issued hreleased, hlive, fun entry hissued hnot => ?_, fun handle herased => ?_,
    hnodup.of_append_right, haccounts.mem_free, hnodup.of_append_left, hsound.length_liveSlots⟩
  · have hin := (hlive entry).2 ⟨hissued, hnot⟩
    have hhandle : entry.1 ∈ sequence.entries.map (·.1) := List.mem_map_of_mem hin
    refine ⟨?_, ?_, ?_⟩
    · rw [hreads.contains, decide_eq_true hhandle]
    · rw [hreads.cursor?, if_pos hhandle]
    · rw [hreads.get?]
      exact (lookup_eq_some_iff_mem hreads.nodup).2 hin
  · have hhandle : handle ∉ sequence.entries.map (·.1) := hgone handle herased
    refine ⟨?_, ?_, ?_⟩
    · rw [hreads.contains, decide_eq_false hhandle]
    · rw [hreads.cursor?, if_neg hhandle]
    · rw [hreads.get?, ← Option.not_isSome_iff_eq_none, lookup_isSome_iff]
      exact hhandle

/-- Two numbers of which the first is taken out, a third, which takes the slot of the joint that was
there and makes a joint of the slot of the first, and a fourth after the third is taken out. -/
def reused : Sequence Tally :=
  ((((((Sequence.empty.insert none ⟨4⟩).1.insert none ⟨5⟩).1.erase (some ⟨0, 0⟩)).1.insert none
    ⟨6⟩).1.erase (some ⟨2, 1⟩)).1.insert none ⟨7⟩).1

/-- Slot 0 was a leaf, a joint and a leaf again, and of its handles only the last one finds anything. -/
theorem lasting_reused :
    ∃ record : Record Tally, Life reused record ∧ (∀ slot, record.released.count slot < 2 ^ 32) ∧
      record.issued.map (·.1) = [⟨0, 2⟩, ⟨2, 1⟩, ⟨1, 0⟩, ⟨0, 0⟩] ∧
      reused.get? ⟨0, 2⟩ = some ⟨7⟩ ∧ reused.contains ⟨0, 0⟩ = false ∧
      reused.liveSlots.length = 3 := by
  have htwo := (Life.empty.insert none (⟨4⟩ : Tally) (by decide)).insert none ⟨5⟩ (by decide)
  have hthree := (htwo.erase (some ⟨0, 0⟩) (by decide)).insert none ⟨6⟩ (by decide)
  have hlife := (hthree.erase (some ⟨2, 1⟩) (by decide)).insert none ⟨7⟩ (by decide)
  have hreleased := fun slot => (List.count_le_length (a := slot)).trans_lt
    (show [0, 2, 2, 0].length < 2 ^ 32 by decide)
  have hlasting := hlife.lasting hreleased
  exact ⟨_, hlife, hreleased, by decide, (hlasting.resolves (⟨0, 2⟩, ⟨7⟩) (by decide) (by decide)).2.2,
    (hlasting.stale ⟨0, 0⟩ (by decide)).1, hlasting.length_live⟩

end Life

end LiveProse
