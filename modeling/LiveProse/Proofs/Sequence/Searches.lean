import LiveProse.Proofs.Sequence.Sums
import Mathlib.Order.Defs.Unbundled

/-!
Searches by running sums. Where combining never makes a sum less, the running sums that pass a target
are those from some element on, and the way down the tree finds the first one: a joint whose left side
passes has the first one there, and a joint whose left side does not has none there. Elements that
leave the running sum as it is are passed over like all others.
-/

namespace LiveProse

open Combine

/-- The order of sums, and that running sums never get less. -/
class LawfulOrdered (α : Type) [Combine.Ordered α] : Prop extends LawfulCombine α where
  order : IsStrictWeakOrder α fun a b => Ordered.precedes a b = true
  not_combine_precedes (a b : α) : Ordered.precedes (combine a b) a = false

instance : LawfulOrdered Tally where
  order := {
    irrefl a := by simp [Ordered.precedes]
    trans a b c := by simpa [Ordered.precedes] using Nat.lt_trans
    incomp_trans a b c := by
      simp only [Ordered.precedes, decide_eq_true_eq]
      omega }
  not_combine_precedes a b := by simp [Ordered.precedes, combine]

instance : LawfulOrdered Peak where
  order := {
    irrefl a := by simp [Ordered.precedes]
    trans a b c := by simpa [Ordered.precedes] using Nat.lt_trans
    incomp_trans a b c := by
      simp only [Ordered.precedes, decide_eq_true_eq]
      omega }
  not_combine_precedes a b := by simp [Ordered.precedes, combine]

instance {β : Type} : LawfulOrdered (Joined β) where
  order := {
    irrefl a := by simp [Ordered.precedes]
    trans a b c := by simpa [Ordered.precedes] using Nat.lt_trans
    incomp_trans a b c := by
      simp only [Ordered.precedes, decide_eq_true_eq]
      omega }
  not_combine_precedes a b := by simp [Ordered.precedes, combine]

/-! ### The way down -/

/-- Nothing is found before the first place where a property of the elements so far holds, and the
property holds there. Past the last element there is nothing to hold. -/
structure FirstPlace {α : Type} (Passes : List α → Prop) (front values : List α) (place : ℕ) : Prop where
  le_length : place ≤ values.length
  passes : place < values.length → Passes (front ++ values.take (place + 1))
  not_before : ∀ earlier < place, ¬Passes (front ++ values.take (earlier + 1))

namespace FirstPlace

variable {α : Type} {Passes : List α → Prop} {front left right values : List α} {place other : ℕ}

/-- If the property holds of a whole part, the first place is in it. -/
theorem append_left (h : FirstPlace Passes front left place) (hleft : Passes (front ++ left))
    (hne : left ≠ []) : place < left.length ∧ FirstPlace Passes front (left ++ right) place := by
  have hlt : place < left.length := by
    refine lt_of_le_of_ne h.le_length fun heq => ?_
    have hpos := List.length_pos_iff.2 hne
    refine h.not_before (left.length - 1) (by omega) ?_
    rwa [Nat.sub_add_cancel hpos, List.take_length]
  refine ⟨hlt, ?_, fun _ => ?_, fun earlier hearlier => ?_⟩
  · rw [List.length_append]
    omega
  · rw [List.take_append_of_le_length hlt]
    exact h.passes hlt
  · rw [List.take_append_of_le_length (by omega)]
    exact h.not_before earlier hearlier

/-- If the property lasts and does not hold of a whole part, the first place is behind it. -/
theorem append_right (hlasts : ∀ xs ys, Passes xs → Passes (xs ++ ys))
    (h : FirstPlace Passes (front ++ left) right place) (hleft : ¬Passes (front ++ left)) :
    FirstPlace Passes front (left ++ right) (left.length + place) := by
  have htake (count : ℕ) :
      front ++ (left ++ right).take (left.length + count) = front ++ left ++ right.take count := by
    rw [List.take_length_add_append, List.append_assoc]
  refine ⟨?_, fun hlt => ?_, fun earlier hearlier hpasses => ?_⟩
  · rw [List.length_append]
    exact Nat.add_le_add_left h.le_length _
  · rw [List.length_append] at hlt
    rw [Nat.add_assoc, htake]
    exact h.passes (by omega)
  · rcases Nat.lt_or_ge earlier left.length with hinside | hbeyond
    · refine hleft ?_
      rw [List.take_append_of_le_length hinside] at hpasses
      have hall := hlasts _ (left.drop (earlier + 1)) hpasses
      rwa [List.append_assoc, List.take_append_drop] at hall
    · obtain ⟨count, rfl⟩ := Nat.exists_eq_add_of_le hbeyond
      rw [Nat.add_assoc, htake] at hpasses
      exact h.not_before count (by omega) hpasses

/-- There is only one first place. -/
theorem unique (h : FirstPlace Passes front values place) (h' : FirstPlace Passes front values other) :
    place = other := by
  rcases Nat.lt_trichotomy place other with hlt | heq | hlt
  · exact absurd (h.passes (hlt.trans_le h'.le_length)) (h'.not_before place hlt)
  · exact heq
  · exact absurd (h'.passes (hlt.trans_le h.le_length)) (h.not_before other hlt)

end FirstPlace

section Trees

variable {α : Type} [Combine α] {S : Summary α}

/-- Where a sum tells whether a lasting property holds of its elements, the way down the tree leads to
the first place where it does. -/
theorem SumTree.Cached.find? {tree : SumTree α} (h : tree.Cached S) (passes : α → Bool)
    (Passes : List α → Prop)
    (hpasses : ∀ {sum values}, S.Holds sum values → (passes sum = true ↔ Passes values))
    (hlasts : ∀ xs ys, Passes xs → Passes (xs ++ ys)) {sum : α} {front : List α}
    (hsum : S.Holds sum front) :
    ∃ place, tree.find? passes sum = (tree.entries.map (·.1))[place]? ∧
      FirstPlace Passes front tree.values place := by
  induction tree generalizing sum front with
  | leaf name value =>
    have hleaf := hpasses (S.combine hsum (S.single value))
    rw [SumTree.find?]
    split_ifs with hpass
    · exact ⟨0, rfl, Nat.zero_le _, fun _ => hleaf.1 hpass, fun _ hlt => absurd hlt (Nat.not_lt_zero _)⟩
    · refine ⟨1, rfl, Nat.le_refl _, fun hlt => absurd hlt (Nat.lt_irrefl _), fun earlier hlt => ?_⟩
      obtain rfl := Nat.lt_one_iff.1 hlt
      exact fun h => hpass (hleaf.2 h)
  | joint name inner size left right ihl ihr =>
    obtain ⟨-, hinner, hl, hr⟩ := h
    have hthrough := S.combine hsum hinner
    have hjoint := hpasses hthrough
    rw [SumTree.find?, values_joint, entries, List.map_append]
    split_ifs with hpass
    · obtain ⟨place, hfind, hfirst⟩ := ihl hl hsum
      have hne : left.values ≠ [] := by simpa [values] using left.entries_ne_nil
      obtain ⟨hlt, hfirst⟩ := hfirst.append_left (hjoint.1 hpass) hne
      refine ⟨place, ?_, hfirst⟩
      rw [hfind, List.getElem?_append_left (by simpa using hlt)]
    · obtain ⟨place, hfind, hfirst⟩ := ihr hr hthrough
      refine ⟨_, ?_, hfirst.append_right hlasts fun h => hpass (hjoint.2 h)⟩
      rw [hfind, List.getElem?_append_right (by simp)]
      simp

end Trees

/-! ### Running sums -/

theorem Listing.position_eq_none_iff {α : Type} {listing : Listing α} {place : ℕ} :
    listing.position place = none ↔ listing.length ≤ place := by
  rw [Listing.position, List.getElem?_eq_none_iff, List.length_map]

/-- A position tells its place, because no handle occurs twice. -/
theorem Sequence.Sound.position_eq_position_iff {α : Type} [Combine α] {S : Summary α}
    {sequence : Sequence α} (h : sequence.Sound S) {place other : ℕ}
    (hplace : place < sequence.entries.length) :
    Listing.position sequence.entries other = Listing.position sequence.entries place ↔
      other = place := by
  rw [eq_comm, @eq_comm _ other]
  exact List.getElem?_inj (by simpa using hplace) h.named.nodup_handles

/-- The sum of the elements up to a place, the one there included. -/
def Listing.running {α : Type} [Combine α] (listing : Listing α) (place : ℕ) : α :=
  combineAll ((listing.map (·.2)).take (place + 1))

section Orders

variable {α : Type} [Combine.Ordered α] [LawfulOrdered α]

/-- Whatever passes a target still does so when more comes after it. -/
theorem precedes_combine {target sum : α} (h : Ordered.precedes target sum = true) (more : α) :
    Ordered.precedes target (combine sum more) = true := by
  by_contra hnot
  have horder := LawfulOrdered.order (α := α)
  -- then the target is neither before nor behind the longer sum, and the longer sum is not before
  -- the shorter one, so the target would not be before that either
  have hmore := LawfulOrdered.not_combine_precedes sum more
  by_cases hback : Ordered.precedes (combine sum more) target = true
  · rw [horder.trans _ _ _ hback h] at hmore
    cases hmore
  · by_cases hgrows : Ordered.precedes sum (combine sum more) = true
    · exact hnot (horder.trans _ _ _ h hgrows)
    · have hsame := horder.incomp_trans target (combine sum more) sum ⟨hnot, hback⟩
        ⟨by rw [hmore]; exact Bool.false_ne_true, hgrows⟩
      exact hsame.1 h

theorem precedes_combineAll_append {target : α} (xs ys : List α)
    (h : Ordered.precedes target (combineAll xs) = true) :
    Ordered.precedes target (combineAll (xs ++ ys)) = true := by
  rw [combineAll_append]
  exact precedes_combine h _

/-- A search finds the first place at which the running sum passes the target. -/
theorem Sequence.Sound.find_eq {sequence : Sequence α} (h : sequence.Sound (.sum α)) (target : α) :
    ∃ place, sequence.find target = Listing.position sequence.entries place ∧
      FirstPlace (fun values => Ordered.precedes target (combineAll values) = true) []
        sequence.toList place := by
  cases hroot : sequence.root with
  | none =>
    refine ⟨0, ?_, Nat.zero_le _, fun hlt => ?_, fun _ hlt => absurd hlt (Nat.not_lt_zero _)⟩
    · simp [Sequence.find, hroot, Listing.position, entries_none hroot]
    · rw [length_toList, entries_none hroot] at hlt
      exact absurd hlt (Nat.lt_irrefl 0)
  | some tree =>
    have hfind := (h.cached tree hroot).find? (Ordered.precedes target)
      (fun values => Ordered.precedes target (combineAll values) = true)
      (fun hsum => by rw [show _ = _ from hsum]) precedes_combineAll_append (Summary.sum α).neutral
    rw [Sequence.find, hroot, Option.bind_some, toList, entries_some hroot]
    exact hfind

end Orders

namespace History

variable {α : Type} [Combine.Ordered α] [LawfulOrdered α] {sequence : Sequence α}
variable {listing : Listing α}

/-- After whatever insertions, removals and clearings, a search finds the leftmost position whose
running sum passes the target, and the end if and only if there is none. -/
theorem find_leftmost (h : History sequence listing) (target : α) :
    (∀ place < listing.length, sequence.find target = listing.position place ↔
      Ordered.precedes target (listing.running place) = true ∧
        ∀ earlier < place, Ordered.precedes target (listing.running earlier) = false) ∧
    (sequence.find target = none ↔
      ∀ place < listing.length, Ordered.precedes target (listing.running place) = false) := by
  obtain ⟨hsound, rfl⟩ := h.sound (.sum α)
  obtain ⟨found, hfind, hfirst⟩ := hsound.find_eq target
  have hlength : sequence.toList.length = sequence.entries.length := sequence.length_toList
  rw [hfind]
  refine ⟨fun place hplace => ?_, ?_⟩
  · rw [hsound.position_eq_position_iff hplace]
    constructor
    · rintro rfl
      exact ⟨hfirst.passes (hlength ▸ hplace), fun earlier hearlier =>
        Bool.eq_false_iff.2 (hfirst.not_before earlier hearlier)⟩
    · rintro ⟨hpasses, hbefore⟩
      refine hfirst.unique ⟨by omega, fun _ => hpasses, fun earlier hearlier => ?_⟩
      exact Bool.eq_false_iff.1 (hbefore earlier hearlier)
  · rw [Listing.position_eq_none_iff]
    constructor
    · intro hend place hplace
      exact Bool.eq_false_iff.2 (hfirst.not_before place (by omega))
    · intro hnone
      refine (hfirst.unique ⟨hlength.ge, fun hlt => absurd hlt (by omega), ?_⟩).ge
      exact fun earlier hearlier => Bool.eq_false_iff.1 (hnone earlier hearlier)

/-- Lists put end to end, two of which are empty. -/
def gapped : Sequence (Joined ℕ) :=
  ((((Sequence.empty.insert none ⟨[]⟩).1.insert none ⟨[7, 8]⟩).1.insert none ⟨[]⟩).1.insert none
    ⟨[9]⟩).1

theorem history_gapped :
    History gapped [(⟨0, 0⟩, ⟨[]⟩), (⟨1, 0⟩, ⟨[7, 8]⟩), (⟨3, 0⟩, ⟨[]⟩), (⟨5, 0⟩, ⟨[9]⟩)] := by
  have hthree := ((History.empty.insert none (⟨[]⟩ : Joined ℕ) (by decide)).insert none ⟨[7, 8]⟩
    (by decide)).insert none ⟨[]⟩ (by decide)
  exact hthree.insert none ⟨[9]⟩ (by decide)

/-- Both empty lists are passed over: the first by a target of no length, the second by one of two. -/
theorem find_leftmost_gapped :
    History gapped [(⟨0, 0⟩, ⟨[]⟩), (⟨1, 0⟩, ⟨[7, 8]⟩), (⟨3, 0⟩, ⟨[]⟩), (⟨5, 0⟩, ⟨[9]⟩)] ∧
      gapped.find ⟨[]⟩ = some ⟨1, 0⟩ ∧ gapped.find ⟨[0, 0]⟩ = some ⟨5, 0⟩ ∧
        gapped.find ⟨[0, 0, 0]⟩ = none :=
  ⟨history_gapped,
    ((history_gapped.find_leftmost ⟨[]⟩).1 1 (by decide)).2 ⟨by decide, by decide⟩,
    ((history_gapped.find_leftmost ⟨[0, 0]⟩).1 3 (by decide)).2 ⟨by decide, by decide⟩,
    (history_gapped.find_leftmost ⟨[0, 0, 0]⟩).2.2 (by decide)⟩

end History

end LiveProse
