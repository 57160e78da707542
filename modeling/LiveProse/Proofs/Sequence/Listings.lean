import LiveProse.Proofs.Sequence.Positions

/-!
Sequences against listings. A listing is a plain list of elements with their handles. Insertions,
removals and clearings at live positions lead to a sequence and to a listing, and every question
about positions, neighbours, ranks and elements has the answer that the listing gives.
-/

namespace LiveProse

theorem insertIdx_eq_append {β : Type} {items : List β} {place : Nat} (h : place ≤ items.length)
    (item : β) : items.insertIdx place item = items.take place ++ item :: items.drop place := by
  induction items generalizing place with
  | nil =>
    obtain rfl : place = 0 := Nat.le_zero.1 h
    rfl
  | cons first rest ih =>
    cases place with
    | zero => rfl
    | succ place =>
      rw [List.insertIdx_succ_cons, ih (Nat.le_of_succ_le_succ h)]
      rfl

/-- Elements in order, each with its handle. -/
abbrev Listing (α : Type) := List (Handle × α)

namespace Listing

variable {α : Type}

/-- The position is the end or that of an element of the listing. -/
def Live (listing : Listing α) (cursor : Cursor) : Prop :=
  ∀ handle, cursor = some handle → handle ∈ listing.map (·.1)

instance (listing : Listing α) (cursor : Cursor) : Decidable (listing.Live cursor) :=
  decidable_of_iff (∀ handle ∈ cursor, handle ∈ listing.map (·.1)) Iff.rfl

/-- The number of elements before a position. -/
def place (listing : Listing α) : Cursor → Nat
  | none => listing.length
  | some handle => (listing.map (·.1)).idxOf handle

/-- The position with a number of elements before it, or the end. -/
def position (listing : Listing α) (place : Nat) : Cursor :=
  (listing.map (·.1))[place]?

theorem live_none (listing : Listing α) : listing.Live none := by
  intro handle hhandle
  exact absurd hhandle (by simp)

theorem place_le (listing : Listing α) (cursor : Cursor) : listing.place cursor ≤ listing.length := by
  cases cursor with
  | none => exact le_rfl
  | some handle => exact List.idxOf_le_length.trans_eq (List.length_map _)

/-- A live position is found again from its place. -/
theorem position_place {listing : Listing α} {cursor : Cursor} (h : listing.Live cursor) :
    listing.position (listing.place cursor) = cursor := by
  cases cursor with
  | none => exact List.getElem?_eq_none (by simp [place])
  | some handle =>
    have hlt := List.idxOf_lt_length_of_mem (h handle rfl)
    rw [position, place, List.getElem?_eq_getElem hlt, List.getElem_idxOf]

end Listing

/-- A sequence that insertions, removals and clearings at live positions lead to from the empty one,
with the listing that the same changes lead to. -/
inductive History {α : Type} [Combine α] : Sequence α → Listing α → Prop where
  | empty : History Sequence.empty []
  | insert {sequence : Sequence α} {listing : Listing α} (cursor : Cursor) (value : α) :
    History sequence listing → listing.Live cursor →
      History (sequence.insert cursor value).1
        (listing.insertIdx (listing.place cursor) ((sequence.insert cursor value).2, value))
  | erase {sequence : Sequence α} {listing : Listing α} (cursor : Cursor) :
    History sequence listing → listing.Live cursor →
      History (sequence.erase cursor).1 (listing.eraseIdx (listing.place cursor))
  | clear {sequence : Sequence α} {listing : Listing α} :
    History sequence listing → History sequence.clear []

namespace Sequence

variable {α : Type}

/-- What an iterator answers that begins at a position and is called a number of times. -/
def calls (sequence : Sequence α) : Cursor → Nat → List (Cursor × α)
  | _, 0 => []
  | cursor, count + 1 =>
    match sequence.advance? cursor with
    | none => []
    | some (item, after) => item :: sequence.calls after count

/-- Every question about the sequence has the answer that the listing gives. -/
structure Reads (sequence : Sequence α) (listing : Listing α) : Prop where
  entries : sequence.entries = listing
  nodup : (listing.map (·.1)).Nodup
  length : sequence.length = listing.length
  isEmpty : sequence.isEmpty = listing.isEmpty
  first : sequence.first = listing.position 0
  last : sequence.last = listing.position (listing.length - 1)
  rank : ∀ cursor, listing.Live cursor → sequence.rank cursor = listing.place cursor
  nth : ∀ rank, sequence.nth rank = listing.position rank
  next : ∀ cursor, listing.Live cursor →
    sequence.next cursor = listing.position (listing.place cursor + 1)
  previous : ∀ cursor, listing.Live cursor →
    sequence.previous cursor = listing.position (listing.place cursor - 1)
  at? : ∀ cursor, listing.Live cursor →
    sequence.at? cursor = (listing.map (·.2))[listing.place cursor]?
  get? : ∀ handle, sequence.get? handle = listing.lookup handle
  contains : ∀ handle, sequence.contains handle = decide (handle ∈ listing.map (·.1))
  cursor? : ∀ handle, sequence.cursor? handle =
    if handle ∈ listing.map (·.1) then some (some handle) else none
  iterates : ∀ count, sequence.calls sequence.first count =
    (listing.take count).map fun entry => (some entry.1, entry.2)
  rank_nth : ∀ rank < sequence.length, sequence.rank (sequence.nth rank) = rank
  nth_end : ∀ rank, sequence.length ≤ rank → sequence.nth rank = none
  nth_rank : ∀ cursor, listing.Live cursor → sequence.nth (sequence.rank cursor) = cursor

/-- The changes answer positions of the listings they lead to: an insertion that of its element,
under a handle that no other element has, and a removal that of the element that followed. -/
structure Answers [Combine α] (sequence : Sequence α) (listing : Listing α) : Prop where
  fresh : ∀ cursor value, (sequence.insert cursor value).2 ∉ listing.map (·.1)
  inserted : ∀ cursor value, listing.Live cursor →
    (sequence.insert cursor value).1.rank (some (sequence.insert cursor value).2) =
      listing.place cursor
  erased : ∀ cursor, listing.Live cursor →
    (sequence.erase cursor).2 = listing.position (listing.place cursor + 1)
  following : ∀ cursor, listing.Live cursor →
    (sequence.erase cursor).1.rank (sequence.erase cursor).2 = listing.place cursor

variable [Combine α] {S : Summary α} {sequence : Sequence α} {listing : Listing α}

/-! ### One change -/

theorem Sound.nth_eq_position (h : sequence.Sound S) (rank : Nat) :
    sequence.nth rank = Listing.position sequence.entries rank :=
  h.nth_eq rank

/-- A live position is that of its place. -/
theorem Sound.nth_place (h : sequence.Sound S) {cursor : Cursor}
    (hlive : Listing.Live sequence.entries cursor) :
    sequence.nth (Listing.place sequence.entries cursor) = cursor :=
  (h.nth_eq_position _).trans (Listing.position_place hlive)

theorem Sound.rank_place (h : sequence.Sound S) {cursor : Cursor}
    (hlive : Listing.Live sequence.entries cursor) :
    sequence.rank cursor = Listing.place sequence.entries cursor := by
  conv_lhs => rw [← h.nth_place hlive]
  exact h.rank_nth (Listing.place_le _ _)

/-- Past the last element, there is only the end. -/
theorem Sound.rank_nth_min (h : sequence.Sound S) (rank : Nat) :
    sequence.rank (sequence.nth rank) = min rank sequence.entries.length := by
  rcases Nat.le_total rank sequence.entries.length with hle | hge
  · rw [h.rank_nth hle, Nat.min_eq_left hle]
  · rw [h.nth_eq, List.getElem?_eq_none (by simpa using hge), h.rank_none, Nat.min_eq_right hge]

/-- Only the end is as far as the listing is long. -/
theorem Sound.eq_none_of_place (h : sequence.Sound S) {cursor : Cursor}
    (hlive : Listing.Live sequence.entries cursor)
    (hplace : sequence.entries.length ≤ Listing.place sequence.entries cursor) : cursor = none := by
  rw [← h.nth_place hlive, h.nth_eq]
  exact List.getElem?_eq_none (by simpa using hplace)

theorem Sound.entries_insertIdx (h : sequence.Sound S) {cursor : Cursor}
    (hlive : Listing.Live sequence.entries cursor) (value : α) :
    (sequence.insert cursor value).1.entries = sequence.entries.insertIdx
      (Listing.place sequence.entries cursor) ((sequence.insert cursor value).2, value) := by
  have hle := Listing.place_le sequence.entries cursor
  have hentries := entries_insert h hle value
  rw [h.nth_place hlive] at hentries
  rw [hentries, insert_snd, insertIdx_eq_append hle]

theorem Sound.insert_live (h : sequence.Sound S) {cursor : Cursor}
    (hlive : Listing.Live sequence.entries cursor) (value : α) :
    (sequence.insert cursor value).1.Sound S := by
  have hsound := h.insert (Listing.place_le sequence.entries cursor) value
  rwa [h.nth_place hlive] at hsound

theorem Sound.erase_live (h : sequence.Sound S) {cursor : Cursor}
    (hlive : Listing.Live sequence.entries cursor) :
    (sequence.erase cursor).1.Sound S ∧ (sequence.erase cursor).1.entries =
      sequence.entries.eraseIdx (Listing.place sequence.entries cursor) ∧
      (sequence.erase cursor).2 =
        Listing.position sequence.entries (Listing.place sequence.entries cursor + 1) := by
  rcases Nat.lt_or_ge (Listing.place sequence.entries cursor) sequence.entries.length with hlt | hge
  · have hsound := h.erase hlt
    obtain ⟨hentries, hanswer⟩ := h.erase_nth hlt
    rw [h.nth_place hlive] at hsound hentries hanswer
    exact ⟨hsound, hentries, hanswer.trans (h.nth_eq_position _)⟩
  · obtain rfl := h.eq_none_of_place hlive hge
    refine ⟨h, (List.eraseIdx_of_length_le hge).symm, ?_⟩
    exact (List.getElem?_eq_none (by simp [Listing.place])).symm

/-! ### Reading -/

/-- The iterator goes through the listing from where it stands. -/
theorem Sound.calls_nth (h : sequence.Sound S) (rank count : Nat) :
    sequence.calls (sequence.nth rank) count =
      ((sequence.entries.drop rank).take count).map fun entry => (some entry.1, entry.2) := by
  induction count generalizing rank with
  | zero => simp [calls]
  | succ count ih =>
    rw [calls, advance?, h.at?_nth]
    rcases Nat.lt_or_ge rank sequence.entries.length with hlt | hge
    · have hhandle : sequence.nth rank = some sequence.entries[rank].1 := by
        rw [h.nth_eq, handles, List.getElem?_map, List.getElem?_eq_getElem hlt, Option.map_some]
      have hvalue : sequence.toList[rank]? = some sequence.entries[rank].2 := by
        rw [toList, List.getElem?_map, List.getElem?_eq_getElem hlt, Option.map_some]
      rw [hvalue, h.next_nth hlt, List.drop_eq_getElem_cons hlt, List.take_succ_cons, List.map_cons,
        Option.map_some, hhandle]
      exact congrArg _ (ih (rank + 1))
    · have hpast : sequence.toList[rank]? = none := List.getElem?_eq_none (by simpa using hge)
      rw [hpast, List.drop_of_length_le hge]
      rfl

theorem Sound.reads (h : sequence.Sound S) : sequence.Reads sequence.entries where
  entries := rfl
  nodup := h.named.nodup_handles
  length := h.length_eq
  isEmpty := by
    cases hroot : sequence.root with
    | none => rw [entries_none hroot, isEmpty, hroot]; rfl
    | some tree =>
      rw [entries_some hroot, isEmpty, hroot, List.isEmpty_eq_false_iff.2 tree.entries_ne_nil]
      rfl
  first := h.first_eq.trans (h.nth_eq_position 0)
  last := h.last_eq.trans (h.nth_eq_position _)
  rank _ hlive := h.rank_place hlive
  nth := h.nth_eq_position
  next cursor hlive := by
    rcases Nat.lt_or_ge (Listing.place sequence.entries cursor) sequence.entries.length with hlt | hge
    · conv_lhs => rw [← h.nth_place hlive]
      exact (h.next_nth hlt).trans (h.nth_eq_position _)
    · obtain rfl := h.eq_none_of_place hlive hge
      exact (List.getElem?_eq_none (by simp [Listing.place])).symm
  previous cursor hlive := by
    conv_lhs => rw [← h.nth_place hlive]
    exact (h.previous_nth (Listing.place_le _ _)).trans (h.nth_eq_position _)
  at? cursor hlive := by
    conv_lhs => rw [← h.nth_place hlive]
    exact h.at?_nth _
  get? := get?_eq_lookup sequence
  contains handle := by
    rw [contains, get?_eq_lookup, Bool.eq_iff_iff, lookup_isSome_iff, decide_eq_true_iff]
  cursor? handle := by
    simp only [cursor?, contains, get?_eq_lookup, lookup_isSome_iff]
  iterates count := by rw [h.first_eq, h.calls_nth, List.drop_zero]
  rank_nth rank hlt := h.rank_nth (h.length_eq ▸ hlt.le)
  nth_end rank hge := by
    rw [h.nth_eq]
    exact List.getElem?_eq_none (by simpa [← h.length_eq] using hge)
  nth_rank cursor hlive := by rw [h.rank_place hlive, h.nth_place hlive]

theorem Sound.answers (h : sequence.Sound S) : sequence.Answers sequence.entries where
  fresh cursor value := by
    rw [insert_snd]
    exact h.named.nextName_not_mem
  inserted cursor value hlive := by
    have hafter := h.insert_live hlive value
    have hentries := h.entries_insertIdx hlive value
    have hlt : Listing.place sequence.entries cursor <
        (sequence.insert cursor value).1.entries.length := by
      rw [hentries, List.length_insertIdx_of_le_length (Listing.place_le _ _)]
      exact Nat.lt_succ_of_le (Listing.place_le _ _)
    have hname : (sequence.insert cursor value).1.nth (Listing.place sequence.entries cursor) =
        some (sequence.insert cursor value).2 := by
      rw [hafter.nth_eq, handles, List.getElem?_map, List.getElem?_eq_getElem hlt, Option.map_some]
      simp only [hentries, List.getElem_insertIdx_self]
    rw [← hname]
    exact hafter.rank_nth hlt.le
  erased cursor hlive := (h.erase_live hlive).2.2
  following cursor hlive := by
    obtain ⟨hafter, hentries, hanswer⟩ := h.erase_live hlive
    rcases Nat.lt_or_ge (Listing.place sequence.entries cursor) sequence.entries.length with hlt | hge
    · have hsame : (sequence.erase cursor).2 =
          (sequence.erase cursor).1.nth (Listing.place sequence.entries cursor) := by
        rw [hanswer, hafter.nth_eq_position, hentries, Listing.position, Listing.position,
          List.getElem?_map, List.getElem?_map, List.getElem?_eraseIdx_of_ge le_rfl]
      rw [hsame]
      refine hafter.rank_nth ?_
      rw [hentries, List.length_eraseIdx_of_lt hlt]
      omega
    · obtain rfl := h.eq_none_of_place hlive hge
      exact h.rank_place hlive

end Sequence

/-! ### Histories -/

/-- Sums may say anything. -/
def Summary.any (α : Type) [Combine α] : Summary α where
  Holds _ _ := True
  neutral := trivial
  single _ := trivial
  combine _ _ := trivial
  insert _ _ _ := trivial

namespace History

variable {α : Type} [Combine α] {sequence : Sequence α} {listing : Listing α}

theorem sound (h : History sequence listing) (S : Summary α) :
    sequence.Sound S ∧ sequence.entries = listing := by
  induction h with
  | empty => exact ⟨.empty, rfl⟩
  | insert cursor value _ hlive ih =>
    obtain ⟨hsound, rfl⟩ := ih
    exact ⟨hsound.insert_live hlive value, hsound.entries_insertIdx hlive value⟩
  | erase cursor _ hlive ih =>
    obtain ⟨hsound, rfl⟩ := ih
    obtain ⟨hafter, hentries, -⟩ := hsound.erase_live hlive
    exact ⟨hafter, hentries⟩
  | clear _ _ => exact ⟨.empty, rfl⟩

/-- Whatever insertions, removals and clearings have led to a sequence, it reads as the listing that
they lead to, and the next change answers a position of the listing it leads to. -/
theorem reads_answers (h : History sequence listing) :
    sequence.Reads listing ∧ sequence.Answers listing := by
  obtain ⟨hsound, rfl⟩ := h.sound (.any α)
  exact ⟨hsound.reads, hsound.answers⟩

/-- Three numbers, the second put before the first, of which the first is taken out again. -/
def taken : Sequence Tally :=
  ((((Sequence.empty.insert none ⟨4⟩).1.insert (some ⟨0, 0⟩) ⟨5⟩).1.insert none ⟨6⟩).1.erase
    (some ⟨0, 0⟩)).1

theorem history_taken : History taken [(⟨1, 0⟩, ⟨5⟩), (⟨3, 0⟩, ⟨6⟩)] := by
  have hthree := ((History.empty.insert none (⟨4⟩ : Tally) (by decide)).insert (some ⟨0, 0⟩) ⟨5⟩
    (by decide)).insert none ⟨6⟩ (by decide)
  exact hthree.erase (some ⟨0, 0⟩) (by decide)

theorem reads_answers_taken :
    History taken [(⟨1, 0⟩, ⟨5⟩), (⟨3, 0⟩, ⟨6⟩)] ∧
      taken.Reads [(⟨1, 0⟩, ⟨5⟩), (⟨3, 0⟩, ⟨6⟩)] ∧ taken.Answers [(⟨1, 0⟩, ⟨5⟩), (⟨3, 0⟩, ⟨6⟩)] :=
  ⟨history_taken, history_taken.reads_answers⟩

end History

end LiveProse
