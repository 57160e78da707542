import LiveProse.Proofs.Lexical.Runs

/-! Tables of images. Trimming a table never changes an image, and what is trimmed off follows the rule
of the table without going below depth zero. A composed table has the images of the two effects in a row
as far as it reaches, and the rules of both sides behind it. -/

namespace LiveProse

/-- Sixteen bits hold the number. -/
def Fits16 (x : ℤ) : Prop :=
  -2 ^ 15 ≤ x ∧ x < 2 ^ 15

theorem Fits16.bmod_eq {x : ℤ} (h : Fits16 x) : x.bmod (2 ^ 16) = x := by
  obtain ⟨hlow, hhigh⟩ := h
  exact Int.bmod_eq_of_le_mul_two (by omega) (by omega)

theorem bmod_eq_self {x : ℤ} (h : x.natAbs < 2 ^ 15) : x.bmod (2 ^ 16) = x :=
  Fits16.bmod_eq ⟨by omega, by omega⟩

theorem toInt_max (a b : Int16) : (max a b).toInt = max a.toInt b.toInt := by
  change (if a ≤ b then b else a).toInt = _
  split_ifs with h <;> rw [Int16.le_iff_toInt_le] at h <;> omega

namespace CommentImages

variable {images : CommentImages} {depth : UInt8}

/-- A table whose images can be looked up and composed: the rule leads to where comments can be, all
images are valid, and no shorter table says the same by its rule. -/
structure Regular (images : CommentImages) : Prop where
  target : images.target.isCommentable = true
  length : images.explicit.length ≤ 255
  valid : ∀ image ∈ images.explicit, image.IsValid
  trimmed : images.trimmed = images

/-! ### Trimming -/

theorem dropTail_dropTail (images : CommentImages) (rows : List LexicalState) :
    images.dropTail (images.dropTail rows) = images.dropTail rows := by
  induction rows with
  | nil => rfl
  | cons deepest rest ih =>
    by_cases hdrop : 0 ≤ Int16.ofNat (rest.length + 1) + images.delta ∧
        images.tail (rest.length + 1) = deepest
    · rw [dropTail, if_pos hdrop, ih]
    · rw [dropTail, if_neg hdrop, dropTail, if_neg hdrop]

/-- What is dropped depends on the rule only. -/
theorem dropTail_congr {other : CommentImages} (htarget : images.target = other.target)
    (hdelta : images.delta = other.delta) : images.dropTail = other.dropTail := by
  funext rows
  induction rows with
  | nil => rfl
  | cons deepest rest ih => rw [dropTail, dropTail, ih, tail, tail, htarget, hdelta]

theorem trimmed_trimmed (images : CommentImages) : images.trimmed.trimmed = images.trimmed := by
  have h : images.trimmed.dropTail = images.dropTail := dropTail_congr rfl rfl
  simp only [trimmed] at h ⊢
  rw [h, List.reverse_reverse, dropTail_dropTail]

/-- What trimming drops is given by the rule, at a depth that the rule does not take below zero. -/
theorem dropTail_reverse (images : CommentImages) (rows : List LexicalState) :
    (images.dropTail rows.reverse).reverse <+: rows ∧
      ∀ i (hi : i < rows.length), (images.dropTail rows.reverse).length ≤ i →
        rows[i] = images.tail (i + 1) ∧ 0 ≤ Int16.ofNat (i + 1) + images.delta := by
  induction rows using List.reverseRecOn with
  | nil => exact ⟨List.prefix_rfl, fun i hi => absurd hi (Nat.not_lt_zero i)⟩
  | append_singleton rows deepest ih =>
    rw [List.reverse_append, List.reverse_singleton, List.singleton_append, dropTail,
      List.length_reverse]
    split_ifs with hdrop
    · refine ⟨ih.1.trans (List.prefix_append _ _), fun i hi hle => ?_⟩
      rcases Nat.lt_or_ge i rows.length with hlt | hge
      · rw [List.getElem_append_left hlt]
        exact ih.2 i hlt hle
      · obtain rfl : i = rows.length := by
          rw [List.length_append, List.length_singleton] at hi
          omega
        simp only [List.getElem_append_right hge, Nat.sub_self, List.getElem_singleton]
        exact ⟨hdrop.2.symm, hdrop.1⟩
    · rw [List.reverse_cons, List.reverse_reverse]
      refine ⟨List.prefix_rfl, fun i hi hle => ?_⟩
      rw [List.length_append, List.length_singleton] at hi
      rw [List.length_cons, List.length_reverse] at hle
      omega

/-- Trimming drops any further images that the rule gives too. -/
theorem trimmed_append (images : CommentImages) (rows : List LexicalState)
    (h : ∀ i (hi : i < rows.length), rows[i] = images.tail (images.explicit.length + i + 1) ∧
      0 ≤ Int16.ofNat (images.explicit.length + i + 1) + images.delta) :
    trimmed { images with explicit := images.explicit ++ rows } = images.trimmed := by
  have hdrop : images.dropTail (images.explicit ++ rows).reverse =
      images.dropTail images.explicit.reverse := by
    induction rows using List.reverseRecOn with
    | nil => rw [List.append_nil]
    | append_singleton rows deepest ih =>
      have hlast := h rows.length (by simp)
      rw [List.getElem_append_right (Nat.le_refl _)] at hlast
      rw [← List.append_assoc, List.reverse_append, List.reverse_singleton, List.singleton_append,
        dropTail, List.length_reverse, List.length_append, if_pos ⟨hlast.2, by simpa using hlast.1.symm⟩]
      refine ih fun i hi => ?_
      have := h i (by rw [List.length_append]; omega)
      rwa [List.getElem_append_left hi] at this
  have hrule : dropTail { images with explicit := images.explicit ++ rows } = images.dropTail :=
    dropTail_congr rfl rfl
  rw [trimmed, trimmed, hrule, hdrop]

theorem explicit_prefix_trimmed (images : CommentImages) :
    images.trimmed.explicit <+: images.explicit :=
  (images.dropTail_reverse images.explicit).1

theorem getElem_explicit_of_trimmed (images : CommentImages) {i : ℕ} (hi : i < images.explicit.length)
    (hle : images.trimmed.explicit.length ≤ i) :
    images.explicit[i] = images.tail (i + 1) ∧ 0 ≤ Int16.ofNat (i + 1) + images.delta :=
  (images.dropTail_reverse images.explicit).2 i hi (by simpa [trimmed] using hle)

theorem image_of_lt (h : depth.toNat ≤ images.explicit.length) (hdepth : depth ≠ 0) :
    ∃ hlt : depth.toNat - 1 < images.explicit.length,
      images.image depth = images.explicit[depth.toNat - 1] := by
  have hpos : depth.toNat ≠ 0 := fun hzero => hdepth (UInt8.toNat_inj.1 hzero)
  refine ⟨by omega, ?_⟩
  rw [image, List.getElem?_eq_getElem (by omega), Option.getD_some]

theorem image_of_ge (h : images.explicit.length < depth.toNat) :
    images.image depth = images.tail depth.toNat := by
  rw [image, List.getElem?_eq_none (by omega), Option.getD_none]

@[simp] theorem explicit_unchanged (s : Superstate) : (unchanged s).explicit = [] := rfl

@[simp] theorem delta_unchanged (s : Superstate) : (unchanged s).delta = 0 := rfl

theorem image_unchanged (s : Superstate) (hdepth : depth ≠ 0) : (unchanged s).image depth = ⟨s, depth⟩ := by
  have hbeyond : (unchanged s).explicit.length < depth.toNat :=
    UInt8.lt_iff_toNat_lt.1 (UInt8.pos_iff_ne_zero.2 hdepth)
  rw [image_of_ge hbeyond]
  exact congrArg (LexicalState.mk s) (clampDepth_toNat depth)

/-- Trimming changes no image. -/
theorem image_trimmed (images : CommentImages) (hdepth : depth ≠ 0) :
    images.trimmed.image depth = images.image depth := by
  have hpos : depth.toNat ≠ 0 := fun hzero => hdepth (UInt8.toNat_inj.1 hzero)
  have hkeeps := images.explicit_prefix_trimmed
  rcases Nat.lt_or_ge images.trimmed.explicit.length depth.toNat with hdropped | hkept
  · rw [image_of_ge hdropped]
    rcases Nat.lt_or_ge images.explicit.length depth.toNat with hbeyond | hlisted
    · rw [image_of_ge hbeyond]
      rfl
    · obtain ⟨hlt, himage⟩ := image_of_lt hlisted hdepth
      rw [himage, (images.getElem_explicit_of_trimmed hlt (by omega)).1, Nat.sub_add_cancel (by omega)]
      rfl
  · obtain ⟨hlt, himage⟩ := image_of_lt hkept hdepth
    obtain ⟨_, himage'⟩ := image_of_lt (hkept.trans hkeeps.length_le) hdepth
    rw [himage, himage', hkeeps.getElem hlt]

theorem Regular.isValid_image (h : images.Regular) (hdepth : depth ≠ 0) :
    (images.image depth).IsValid := by
  rcases Nat.lt_or_ge images.explicit.length depth.toNat with hbeyond | hlisted
  · rw [image_of_ge hbeyond]
    exact LexicalState.isValid_iff.2 fun _ => h.target
  · obtain ⟨hlt, himage⟩ := image_of_lt hlisted hdepth
    rw [himage]
    exact h.valid _ (List.getElem_mem hlt)

end CommentImages

namespace Effect

variable {first next effect : Effect} {s : Superstate} {own : CommentImages}

/-! ### Composing -/

/-- How deep a composed table reaches before it is trimmed. -/
def reach (own images : CommentImages) : ℕ :=
  (clampDepth (max (max (Int16.ofNat own.explicit.length)
    (Int16.ofNat images.explicit.length - own.delta)) (-own.delta)).toInt).toNat

/-- A composed table before it is trimmed. -/
def untrimmed (first next : Effect) (s : Superstate) (own images : CommentImages) : CommentImages where
  explicit := (List.range (reach own images)).map fun i =>
    next.apply (first.apply ⟨s, UInt8.ofNat (i + 1)⟩)
  target := images.target
  delta := own.delta + images.delta

/-- How deep a composed table reaches, where that is computed in sixteen bits. -/
theorem reach_eq_max (own images : CommentImages) (hlength : own.explicit.length ≤ 255)
    (hlength' : images.explicit.length ≤ 255)
    (hbeyond : Fits16 (images.explicit.length - own.delta.toInt))
    (hclosing : Fits16 (-own.delta.toInt)) :
    (reach own images : ℤ) = min 255 (max (max (own.explicit.length : ℤ)
      ((images.explicit.length : ℤ) - own.delta.toInt)) (-own.delta.toInt)) := by
  rw [reach, toNat_clampDepth, toInt_max, toInt_max, Int16.toInt_sub, Int16.toInt_neg,
    Int16.toInt_ofNat_of_lt (by omega), Int16.toInt_ofNat_of_lt (by omega), hbeyond.bmod_eq,
    hclosing.bmod_eq]
  omega

theorem reach_le (own images : CommentImages) : reach own images ≤ 255 := by
  have := UInt8.toNat_lt (clampDepth (max (max (Int16.ofNat own.explicit.length)
    (Int16.ofNat images.explicit.length - own.delta)) (-own.delta)).toInt)
  rw [reach]
  omega

theorem length_explicit_untrimmed (first next : Effect) (s : Superstate) (own images : CommentImages) :
    (untrimmed first next s own images).explicit.length = reach own images := by
  rw [untrimmed, List.length_map, List.length_range]

theorem composeComments_eq (first next : Effect) (s : Superstate)
    {slot : Fin Superstate.commentableCount} (hslot : own.target.commentSlot? = some slot) :
    first.composeComments next s own = (untrimmed first next s own (next.comments.get slot)).trimmed := by
  rw [composeComments, hslot]
  rfl

theorem images_andThen (first next : Effect) (s : Superstate) :
    (first.andThen next).images.get s.index = next.apply (first.images.get s.index) := by
  rw [andThen]
  exact Vector.getElem_map _ _

theorem comments_andThen (first next : Effect) {slot : Fin Superstate.commentableCount}
    (hslot : s.commentSlot? = some slot) :
    (first.andThen next).comments.get slot = first.composeComments next s (first.comments.get slot) := by
  rw [andThen]
  refine (Vector.getElem_zipWith _).trans ?_
  exact congrArg (first.composeComments next · _) (Superstate.getElem_commentableTable hslot)

variable {images : CommentImages} {depth : UInt8}

/-- As far as a composed table reaches, its images are those of both effects in a row. -/
theorem image_untrimmed_of_le (first next : Effect) (s : Superstate) (hdepth : depth ≠ 0)
    (h : depth.toNat ≤ reach own images) :
    (untrimmed first next s own images).image depth = next.apply (first.apply ⟨s, depth⟩) := by
  have hpos : depth.toNat ≠ 0 := fun hzero => hdepth (UInt8.toNat_inj.1 hzero)
  have hlisted : depth.toNat ≤ (untrimmed first next s own images).explicit.length := by
    rwa [length_explicit_untrimmed]
  obtain ⟨hlt, himage⟩ := CommentImages.image_of_lt hlisted hdepth
  rw [himage]
  simp only [untrimmed, List.getElem_map, List.getElem_range]
  rw [Nat.sub_add_cancel (by omega), UInt8.ofNat_toNat]

theorem image_untrimmed_of_gt (first next : Effect) (s : Superstate)
    (h : reach own images < depth.toNat) :
    (untrimmed first next s own images).image depth =
      (untrimmed first next s own images).tail depth.toNat :=
  CommentImages.image_of_ge (by rwa [length_explicit_untrimmed])

/-! ### Regular effects -/

/-- Every image of the effect is valid, and no table of it is longer than it has to be. -/
structure Regular (effect : Effect) : Prop where
  images : ∀ s : Superstate, (effect.images.get s.index).IsValid
  comments : ∀ slot : Fin Superstate.commentableCount, (effect.comments.get slot).Regular

variable {state : LexicalState}

/-- Valid states lead to valid states. -/
theorem Regular.isValid_apply (h : effect.Regular) (hvalid : state.IsValid) :
    (effect.apply state).IsValid := by
  obtain ⟨s, depth⟩ := state
  by_cases hdepth : depth = 0
  · subst hdepth
    rw [apply_zero]
    exact h.images s
  · obtain ⟨slot, hslot⟩ := Option.isSome_iff_exists.1 (LexicalState.isValid_iff.1 hvalid hdepth)
    rw [apply_of_slot effect hdepth hslot]
    exact (h.comments slot).isValid_image hdepth

theorem images_identity (s : Superstate) : identity.images.get s.index = ⟨s, 0⟩ := by
  rw [identity, ofMoves]
  refine (Vector.getElem_map _ _).trans ?_
  exact congrArg (LexicalState.mk · 0) s.getElem_table

theorem comments_identity {slot : Fin Superstate.commentableCount} (hslot : s.commentSlot? = some slot) :
    identity.comments.get slot = .unchanged s := by
  rw [identity, ofMoves]
  refine (Vector.getElem_map _ _).trans ?_
  exact congrArg CommentImages.unchanged (Superstate.getElem_commentableTable hslot)

theorem regular_effect (kind : TokenClass) : kind.effect.Regular := by
  refine ⟨fun s => (TokenClass.depth_images_effect kind s.index).1, fun slot => ?_⟩
  obtain ⟨hexplicit, htarget, -⟩ := TokenClass.comments_effect kind slot
  generalize kind.effect.comments.get slot = images at hexplicit htarget
  obtain ⟨explicit, target, delta⟩ := images
  obtain rfl : explicit = [] := hexplicit
  exact ⟨htarget, Nat.zero_le _, by simp, rfl⟩

theorem regular_identity : identity.Regular := regular_effect .plainText

theorem Regular.composeComments (h : first.Regular) (h' : next.Regular)
    {slot : Fin Superstate.commentableCount} (hslot : s.commentSlot? = some slot) :
    (first.composeComments next s (first.comments.get slot)).Regular := by
  obtain ⟨slot', hslot'⟩ := Option.isSome_iff_exists.1 (h.comments slot).target
  have htarget := (h'.comments slot').target
  rw [composeComments_eq first next s hslot']
  generalize first.comments.get slot = own, next.comments.get slot' = images at htarget ⊢
  have hkeeps := (untrimmed first next s own images).explicit_prefix_trimmed
  refine ⟨htarget, ?_, fun image himage => ?_, CommentImages.trimmed_trimmed _⟩
  · calc (untrimmed first next s own images).trimmed.explicit.length
      _ ≤ (untrimmed first next s own images).explicit.length := hkeeps.length_le
      _ = reach own images := length_explicit_untrimmed first next s own images
      _ ≤ 255 := reach_le own images
  · obtain ⟨i, -, rfl⟩ := List.mem_map.1 (hkeeps.subset himage)
    refine h'.isValid_apply (h.isValid_apply (LexicalState.isValid_iff.2 fun _ => ?_))
    exact Option.isSome_iff_exists.2 ⟨slot, hslot⟩

theorem Regular.andThen (h : first.Regular) (h' : next.Regular) : (first.andThen next).Regular := by
  refine ⟨fun s => ?_, fun slot => ?_⟩
  · rw [images_andThen]
    exact h'.isValid_apply (h.images s)
  · have hslot := Superstate.commentSlot?_getElem slot
    rw [comments_andThen first next hslot]
    exact h.composeComments h' hslot

end Effect

end LiveProse
