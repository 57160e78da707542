import LiveProse.Proofs.Sequence.Listings

/-!
The balance of sequences. An insertion or a removal changes one side of each joint above it by one
leaf. Where the sides then do not match any more, one rotation, single or double, puts them right and
leaves both sides of every joint that it touches within the ratio. So a sequence of `n` elements is
never higher than the logarithm of `n` to the base 4/3 and one more.
-/

namespace LiveProse

namespace SumTree

/-! ### Weights -/

/-- Neither weight is more than three times the other. -/
def Matched (a b : ℕ) : Prop := a ≤ balanceRatio * b ∧ b ≤ balanceRatio * a

theorem Matched.symm {a b : ℕ} (h : Matched a b) : Matched b a := ⟨h.2, h.1⟩

/-- Weights that lack at most one leaf on either side to be matched. -/
def NearlyMatched (a b : ℕ) : Prop := a ≤ balanceRatio * (b + 1) ∧ b ≤ balanceRatio * (a + 1)

section Weights

variable {outer inner near far other : ℕ}

/-- Lifting the heavy side moves its inner side over to the light one. -/
theorem matched_single (hother : 0 < other) (hsides : Matched outer inner)
    (hheavy : balanceRatio * other < outer + inner)
    (hbound : outer + inner ≤ balanceRatio * (other + 1)) (hinner : inner < doublingRatio * outer) :
    Matched inner other ∧ Matched outer (inner + other) := by
  simp only [Matched, balanceRatio, doublingRatio] at *
  omega

/-- Lifting a heavy inner side first parts it between the two. -/
theorem matched_double (hother : 0 < other) (hsides : Matched outer (near + far))
    (hparts : Matched near far) (hheavy : balanceRatio * other < outer + (near + far))
    (hbound : outer + (near + far) ≤ balanceRatio * (other + 1))
    (hinner : doublingRatio * outer ≤ near + far) :
    Matched outer near ∧ Matched far other ∧ Matched (outer + near) (far + other) := by
  simp only [Matched, balanceRatio, doublingRatio] at *
  omega

/-- What was matched is nearly so when one side changes by a leaf. -/
theorem Matched.grow {a b : ℕ} (h : Matched a b) :
    NearlyMatched (a + 1) b ∧ NearlyMatched a (b + 1) := by
  simp only [Matched, NearlyMatched, balanceRatio] at *
  omega

theorem Matched.shrink {a b : ℕ} (h : Matched a b) :
    NearlyMatched (a - 1) b ∧ NearlyMatched a (b - 1) := by
  simp only [Matched, NearlyMatched, balanceRatio] at *
  omega

end Weights

variable {α : Type}

/-- On the two sides of every joint, the numbers of leaves are matched. -/
def Balanced : SumTree α → Prop
  | leaf _ _ => True
  | joint _ _ _ left right =>
    Matched left.entries.length right.entries.length ∧ left.Balanced ∧ right.Balanced

/-! ### Rotations -/

section Rotations

variable [Combine α] {name : Handle} {sum : α} {count : ℕ} {left right : SumTree α}

/-- The left side is lifted, after its inner side if that is heavy. -/
theorem Balanced.liftLeft {pivot : Handle} {part : α} {half : ℕ} {outer inner : SumTree α}
    (hsides : Matched outer.entries.length inner.entries.length) (houter : outer.Balanced)
    (hinner : inner.Balanced) (hright : right.Balanced) (hsizedOuter : outer.Sized)
    (hsizedInner : inner.Sized)
    (hheavy : balanceRatio * right.entries.length < outer.entries.length + inner.entries.length)
    (hbound : outer.entries.length + inner.entries.length ≤
      balanceRatio * (right.entries.length + 1)) :
    (rotateRight (joint name sum count
      (if needsDoubling outer inner then (joint pivot part half outer inner).rotateLeft
        else joint pivot part half outer inner) right)).Balanced := by
  have hpos := right.length_entries_pos
  simp only [needsDoubling, hsizedOuter.size_eq, hsizedInner.size_eq, decide_eq_true_eq]
  split_ifs with hdouble
  · cases inner with
    | leaf other value =>
      -- a single leaf is never twice as heavy as its sibling
      have hsingle : (leaf other value).entries.length = 1 := rfl
      have := outer.length_entries_pos
      rw [hsingle, doublingRatio] at hdouble
      omega
    | joint crown middle rest near far =>
      obtain ⟨hparts, hnear, hfar⟩ := hinner
      simp only [entries, List.length_append] at hsides hheavy hbound hdouble
      obtain ⟨hlow, hhigh, htop⟩ := matched_double hpos hsides hparts hheavy hbound hdouble
      refine ⟨?_, ⟨hlow, houter, hnear⟩, hhigh, hfar, hright⟩
      simpa only [entries, List.length_append] using htop
  · obtain ⟨hlow, htop⟩ := matched_single hpos hsides hheavy hbound (Nat.lt_of_not_le hdouble)
    refine ⟨?_, houter, hlow, hinner, hright⟩
    simpa only [entries, List.length_append] using htop

/-- The right side is lifted, after its inner side if that is heavy. -/
theorem Balanced.liftRight {pivot : Handle} {part : α} {half : ℕ} {outer inner : SumTree α}
    (hsides : Matched outer.entries.length inner.entries.length) (houter : outer.Balanced)
    (hinner : inner.Balanced) (hleft : left.Balanced) (hsizedOuter : outer.Sized)
    (hsizedInner : inner.Sized)
    (hheavy : balanceRatio * left.entries.length < outer.entries.length + inner.entries.length)
    (hbound : outer.entries.length + inner.entries.length ≤
      balanceRatio * (left.entries.length + 1)) :
    (rotateLeft (joint name sum count left
      (if needsDoubling outer inner then (joint pivot part half inner outer).rotateRight
        else joint pivot part half inner outer))).Balanced := by
  have hpos := left.length_entries_pos
  simp only [needsDoubling, hsizedOuter.size_eq, hsizedInner.size_eq, decide_eq_true_eq]
  split_ifs with hdouble
  · cases inner with
    | leaf other value =>
      have hsingle : (leaf other value).entries.length = 1 := rfl
      have := outer.length_entries_pos
      rw [hsingle, doublingRatio] at hdouble
      omega
    | joint crown middle rest far near =>
      obtain ⟨hparts, hfar, hnear⟩ := hinner
      simp only [entries, List.length_append] at hsides hheavy hbound hdouble
      rw [Nat.add_comm far.entries.length] at hsides hheavy hbound hdouble
      obtain ⟨hlow, hhigh, htop⟩ := matched_double hpos hsides hparts.symm hheavy hbound hdouble
      refine ⟨?_, ⟨hhigh.symm, hleft, hfar⟩, hlow.symm, hnear, houter⟩
      simp only [entries, List.length_append]
      rw [Nat.add_comm left.entries.length, Nat.add_comm near.entries.length]
      exact htop.symm
  · obtain ⟨hlow, htop⟩ := matched_single hpos hsides hheavy hbound (Nat.lt_of_not_le hdouble)
    refine ⟨?_, ⟨hlow.symm, hleft, hinner⟩, houter⟩
    simp only [entries, List.length_append]
    rw [Nat.add_comm left.entries.length]
    exact htop.symm

/-- One rotation puts a joint right whose sides are balanced and lack at most a leaf. -/
theorem Balanced.rebalance (hleft : left.Balanced) (hright : right.Balanced) (hsl : left.Sized)
    (hsr : right.Sized) (hnearly : NearlyMatched left.entries.length right.entries.length) :
    (joint name sum count left right).rebalance.Balanced := by
  obtain ⟨hfew, hmany⟩ := hnearly
  unfold SumTree.rebalance
  dsimp only
  rw [hsl.size_eq, hsr.size_eq]
  split_ifs with hheavy hlight
  · cases left with
    | leaf other value =>
      have hsingle : (leaf other value).entries.length = 1 := rfl
      have := right.length_entries_pos
      rw [hsingle, balanceRatio] at hheavy
      omega
    | joint pivot part half outer inner =>
      obtain ⟨hsides, houter, hinner⟩ := hleft
      obtain ⟨-, hso, hsi⟩ := hsl
      simp only [entries, List.length_append] at hheavy hfew
      exact Balanced.liftLeft hsides houter hinner hright hso hsi hheavy hfew
  · cases right with
    | leaf other value =>
      have hsingle : (leaf other value).entries.length = 1 := rfl
      have := left.length_entries_pos
      rw [hsingle, balanceRatio] at hlight
      omega
    | joint pivot part half inner outer =>
      obtain ⟨hsides, hinner, houter⟩ := hright
      obtain ⟨-, hsi, hso⟩ := hsr
      simp only [entries, List.length_append] at hlight hmany
      rw [Nat.add_comm inner.entries.length] at hlight hmany
      exact Balanced.liftRight hsides.symm houter hinner hleft hso hsi hlight hmany
  · exact ⟨⟨Nat.le_of_not_lt hheavy, Nat.le_of_not_lt hlight⟩, hleft, hright⟩

/-! ### Insertion and removal -/

variable {S : Summary α} {tree : SumTree α}

theorem length_entries_insert (h : tree.Sized) (name fork : Handle) (value : α) (rank : ℕ) :
    (tree.insert name fork value rank).entries.length = tree.entries.length + 1 := by
  rw [entries_insert h, List.length_append, List.length_cons, List.length_take, List.length_drop]
  omega

theorem Balanced.insert (hb : tree.Balanced) (h : tree.Cached S) (name fork : Handle) (value : α)
    (rank : ℕ) : (tree.insert name fork value rank).Balanced := by
  induction tree generalizing rank with
  | leaf other element =>
    have hpair : Matched 1 1 := ⟨by decide, by decide⟩
    simp only [SumTree.insert]
    split_ifs
    · exact ⟨hpair, trivial, trivial⟩
    · exact ⟨hpair, trivial, trivial⟩
  | joint here sum size left right ihl ihr =>
    obtain ⟨hsides, hbl, hbr⟩ := hb
    obtain ⟨-, -, hl, hr⟩ := h
    rw [SumTree.insert]
    split
    · refine Balanced.rebalance (ihl hbl hl rank) hbr (hl.insert ..).sized hr.sized ?_
      rw [length_entries_insert hl.sized]
      exact hsides.grow.1
    · refine Balanced.rebalance hbl (ihr hbr hr _) hl.sized (hr.insert ..).sized ?_
      rw [length_entries_insert hr.sized]
      exact hsides.grow.2

omit [Combine α] in
theorem one_lt_length_entries (name : Handle) (sum : α) (size : ℕ) (left right : SumTree α) :
    1 < (joint name sum size left right).entries.length := by
  have := left.length_entries_pos
  have := right.length_entries_pos
  simp only [entries, List.length_append]
  omega

theorem Balanced.erase (hb : tree.Balanced) (h : tree.Cached S) {rank : ℕ}
    (hrank : rank < tree.entries.length) : (tree.erase rank).Balanced := by
  induction tree generalizing rank with
  | leaf name value => trivial
  | joint here sum size left right ihl ihr =>
    obtain ⟨hsides, hbl, hbr⟩ := hb
    obtain ⟨-, -, hl, hr⟩ := h
    simp only [entries, List.length_append] at hrank
    unfold SumTree.erase
    rw [hl.sized.size_eq]
    split_ifs with hlt
    · cases left with
      | leaf name value => exact hbr
      | joint n s k l r =>
        refine Balanced.rebalance (ihl hbl hl hlt) hbr (hl.erase hlt).sized hr.sized ?_
        rw [entries_erase hl.sized hlt (one_lt_length_entries ..), List.length_eraseIdx_of_lt hlt]
        exact hsides.shrink.1
    · cases right with
      | leaf name value => exact hbl
      | joint n s k l r =>
        have hlast : rank - left.entries.length < (joint n s k l r).entries.length := by omega
        refine Balanced.rebalance hbl (ihr hbr hr hlast) hl.sized (hr.erase hlast).sized ?_
        rw [entries_erase hr.sized hlast (one_lt_length_entries ..),
          List.length_eraseIdx_of_lt hlast]
        exact hsides.shrink.2

end Rotations

/-! ### Shape -/

variable {tree : SumTree α}

theorem height_pos (tree : SumTree α) : 0 < tree.height := by
  cases tree with
  | leaf name value => exact Nat.one_pos
  | joint name sum size left right => exact Nat.add_pos_left Nat.one_pos _

/-- A side of a joint, however high, has at most three quarters of the leaves. -/
theorem pow_height_le_side {a b : ℕ} {side : SumTree α} (hmatched : Matched a b)
    (h : ((4 : ℚ) / 3) ^ (side.height - 1) ≤ a) : ((4 : ℚ) / 3) ^ side.height ≤ a + b := by
  have hside : (a : ℚ) ≤ 3 * b := by exact_mod_cast hmatched.1
  calc ((4 : ℚ) / 3) ^ side.height
    _ = (4 / 3) ^ (side.height - 1) * (4 / 3) := by
      rw [← pow_succ, Nat.sub_add_cancel side.height_pos]
    _ ≤ a * (4 / 3) := by gcongr
    _ ≤ a + b := by linarith

theorem Balanced.pow_height_le (h : tree.Balanced) :
    ((4 : ℚ) / 3) ^ (tree.height - 1) ≤ tree.entries.length := by
  induction tree with
  | leaf name value => norm_num [height, entries]
  | joint name sum size left right ihl ihr =>
    obtain ⟨hsides, hbl, hbr⟩ := h
    rw [height, Nat.add_sub_cancel_left, entries, List.length_append, Nat.cast_add]
    rcases le_total left.height right.height with hle | hle
    · rw [max_eq_right hle, add_comm]
      exact pow_height_le_side hsides.symm (ihr hbr)
    · rw [max_eq_left hle]
      exact pow_height_le_side hsides (ihl hbl)

end SumTree

namespace Sequence

variable {α : Type} [Combine α] {S : Summary α} {sequence : Sequence α}

/-- The tree of the sequence is balanced, if there is one. -/
def Balanced (sequence : Sequence α) : Prop :=
  ∀ tree, sequence.root = some tree → tree.Balanced

theorem Balanced.insert (hb : sequence.Balanced) (h : sequence.Sound S) (cursor : Cursor)
    (value : α) : (sequence.insert cursor value).1.Balanced := by
  intro tree htree
  cases hroot : sequence.root with
  | none =>
    obtain rfl : SumTree.leaf sequence.nextName value = tree := by
      simpa [Sequence.insert, hroot] using htree
    trivial
  | some old =>
    have hsome : some (old.insert sequence.nextName sequence.allocate.nextName value
        (sequence.rank cursor)) = some tree := by
      simpa [Sequence.insert, hroot] using htree
    rw [← Option.some.inj hsome]
    exact (hb old hroot).insert (h.cached old hroot) _ _ _ _

theorem Balanced.erase (hb : sequence.Balanced) (h : sequence.Sound S) {cursor : Cursor}
    (hlive : Listing.Live sequence.entries cursor) : (sequence.erase cursor).1.Balanced := by
  cases cursor with
  | none => exact hb
  | some handle =>
    intro tree htree
    have hrank : sequence.rank (some handle) < sequence.entries.length := by
      rw [h.rank_place hlive, Listing.place, ← List.length_map]
      exact List.idxOf_lt_length_of_mem (hlive handle rfl)
    cases hroot : sequence.root with
    | none => simp [entries_none hroot] at hrank
    | some old =>
      rw [entries_some hroot] at hrank
      simp only [Sequence.erase, hroot] at htree
      cases habove : old.jointAbove? (sequence.rank (some handle)) with
      | none => simp [habove] at htree
      | some above =>
        simp only [habove, Option.some.injEq] at htree
        rw [← htree]
        exact (hb old hroot).erase (h.cached old hroot) hrank

end Sequence

namespace SumTree

variable {α : Type}

/-- The tree has `count` leaves and is in balance: every joint, which has two sides by its making,
counts the leaves below it and keeps its sides matched; there is one joint less than there are leaves,
and the tree is not high. -/
structure InBalance (tree : SumTree α) (count : ℕ) : Prop where
  leaves : tree.entries.length = count
  joints : tree.jointNames.length + 1 = count
  sized : tree.Sized
  balanced : tree.Balanced
  height : ((4 : ℚ) / 3) ^ (tree.height - 1) ≤ count

end SumTree

namespace History

variable {α : Type} [Combine α] {sequence : Sequence α} {listing : Listing α}

theorem balanced (h : History sequence listing) : sequence.Balanced := by
  induction h with
  | empty =>
    intro tree htree
    cases htree
  | insert cursor value h _ ih => exact ih.insert (h.sound (.any α)).1 cursor value
  | erase cursor h hlive ih =>
    obtain ⟨hsound, rfl⟩ := h.sound (.any α)
    exact ih.erase hsound hlive
  | clear _ _ =>
    intro tree htree
    cases htree

/-- Whatever insertions, removals and clearings have led to a sequence, its tree is in balance. -/
theorem inBalance (h : History sequence listing) :
    ∀ tree, sequence.root = some tree → tree.InBalance listing.length := by
  intro tree hroot
  obtain ⟨hsound, rfl⟩ := h.sound (.any α)
  have hbalanced := h.balanced tree hroot
  rw [Sequence.entries_some hroot]
  exact ⟨rfl, tree.length_jointNames, (hsound.cached tree hroot).sized, hbalanced,
    hbalanced.pow_height_le⟩

/-- Five numbers, each put at the end: the last one makes the tree turn. -/
def lined : Sequence Tally :=
  [⟨4⟩, ⟨5⟩, ⟨6⟩, ⟨7⟩, ⟨8⟩].foldl (fun sequence value => (sequence.insert none value).1) .empty

theorem history_lined : History lined
    [(⟨0, 0⟩, ⟨4⟩), (⟨1, 0⟩, ⟨5⟩), (⟨3, 0⟩, ⟨6⟩), (⟨5, 0⟩, ⟨7⟩), (⟨7, 0⟩, ⟨8⟩)] := by
  have htwo := (History.empty.insert none (⟨4⟩ : Tally) (by decide)).insert none ⟨5⟩ (by decide)
  have hfour := (htwo.insert none ⟨6⟩ (by decide)).insert none ⟨7⟩ (by decide)
  exact hfour.insert none ⟨8⟩ (by decide)

theorem inBalance_lined :
    History lined [(⟨0, 0⟩, ⟨4⟩), (⟨1, 0⟩, ⟨5⟩), (⟨3, 0⟩, ⟨6⟩), (⟨5, 0⟩, ⟨7⟩), (⟨7, 0⟩, ⟨8⟩)] ∧
      (∃ tree, lined.root = some tree) ∧
      ∀ tree, lined.root = some tree → tree.InBalance 5 :=
  ⟨history_lined, ⟨_, rfl⟩, history_lined.inBalance⟩

end History

end LiveProse
