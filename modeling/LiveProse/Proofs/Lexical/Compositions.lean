import LiveProse.Proofs.Lexical.Tables
import LiveProse.Token

/-! Composed effects as runs. However the effects of a row of classes are put together, the composed
effect takes a valid state where the classes take it one after another, as long as no comment is opened
inside of 254 others: the rule of a table is dropped into wherever it gives the depth cut off at 255, and
later compositions go by the rule without the cut. -/

namespace LiveProse

open TokenClass

variable {s : Superstate} {depth : UInt8} {state : LexicalState} {kinds more : List TokenClass}

/-- The images of a superstate are those of a row of classes, and the rule stays within the depths that
are counted where a run follows it. -/
structure CommentImages.Follows (images : CommentImages) (s : Superstate) (kinds : List TokenClass) :
    Prop where
  delta : images.delta.toInt = surplus kinds
  image : ∀ depth : UInt8, depth ≠ 0 → OpensBelow 254 ⟨s, depth⟩ kinds →
    images.image depth = run ⟨s, depth⟩ kinds
  tail : ∀ depth : UInt8, images.explicit.length < depth.toNat → OpensBelow 254 ⟨s, depth⟩ kinds →
    0 ≤ depth.toNat + surplus kinds ∧ depth.toNat + surplus kinds ≤ 255

namespace CommentImages

variable {images : CommentImages}

theorem nonneg_add_iff {depth : ℕ} (hdepth : depth ≤ 255) (hdelta : images.delta.toInt = surplus kinds)
    (hbrackets : brackets kinds ≤ 32000) :
    0 ≤ Int16.ofNat depth + images.delta ↔ 0 ≤ depth + surplus kinds := by
  have hbound := natAbs_surplus_le kinds
  rw [Int16.le_iff_toInt_le, Int16.toInt_add, Int16.toInt_zero, Int16.toInt_ofNat_of_lt (by omega),
    hdelta, bmod_eq_self (by omega)]

/-- Beyond the table a run only changes the depth, by its surplus. -/
theorem Follows.run_eq (h : images.Follows s kinds) (hbeyond : images.explicit.length < depth.toNat)
    (hopens : OpensBelow 254 ⟨s, depth⟩ kinds) : (run ⟨s, depth⟩ kinds).superstate = images.target ∧
      ((run ⟨s, depth⟩ kinds).depth.toNat : ℤ) = depth.toNat + surplus kinds := by
  have hdepth : depth ≠ 0 := fun hzero => by simp [hzero] at hbeyond
  obtain ⟨hlow, hhigh⟩ := h.tail depth hbeyond hopens
  rw [← h.image depth hdepth hopens, image_of_ge hbeyond]
  refine ⟨rfl, ?_⟩
  change ((clampDepth _).toNat : ℤ) = _
  rw [toNat_clampDepth, h.delta]
  omega

/-- What trimming drops is within the depths that are counted: a run that ends inside of 255 comments
has not opened the last of them. -/
theorem Follows.trimmed (h : images.Follows s kinds) (hlength : images.explicit.length ≤ 255)
    (hs : s.isCommentable = true) (hbrackets : brackets kinds ≤ 32000) :
    images.trimmed.Follows s kinds := by
  refine ⟨h.delta, fun depth hdepth hopens => ?_, fun depth hbeyond hopens => ?_⟩
  · rw [image_trimmed images hdepth, h.image depth hdepth hopens]
  · rcases Nat.lt_or_ge images.explicit.length depth.toNat with hfar | hlisted
    · exact h.tail depth hfar hopens
    have hdepth : depth ≠ 0 := fun hzero => by simp [hzero] at hbeyond
    obtain ⟨hlt, himage⟩ := image_of_lt hlisted hdepth
    obtain ⟨hrule, hrange⟩ := images.getElem_explicit_of_trimmed hlt (by omega)
    rw [Nat.sub_add_cancel (by omega)] at hrule hrange
    rw [nonneg_add_iff (by omega) h.delta hbrackets] at hrange
    refine ⟨hrange, ?_⟩
    by_contra hover
    -- the rule is cut here, so the run ends inside of 255 comments
    have hcut : (run ⟨s, depth⟩ kinds).depth = 255 := by
      rw [← h.image depth hdepth hopens, himage, hrule, ← UInt8.toNat_inj]
      have hclamp := toNat_clampDepth (depth.toNat + images.delta.toInt)
      rw [h.delta] at hclamp
      change (clampDepth (depth.toNat + images.delta.toInt)).toNat = 255
      rw [h.delta]
      omega
    have hvalid : LexicalState.IsValid ⟨s, depth⟩ := LexicalState.isValid_iff.2 fun _ => hs
    have hstays := (stays_of_depth_run hvalid hopens hcut).2
    omega

end CommentImages

namespace Effect

variable {effect first next : Effect}

/-- An effect takes valid states where a row of classes takes them. -/
structure Tracks (effect : Effect) (kinds : List TokenClass) : Prop extends Regular effect where
  zero : ∀ s : Superstate, OpensBelow 254 ⟨s, 0⟩ kinds → effect.images.get s.index = run ⟨s, 0⟩ kinds
  follows : ∀ (s : Superstate) (slot : Fin Superstate.commentableCount), s.commentSlot? = some slot →
    (effect.comments.get slot).Follows s kinds

theorem Tracks.apply_eq (h : effect.Tracks kinds) (hvalid : state.IsValid)
    (hopens : OpensBelow 254 state kinds) : effect.apply state = run state kinds := by
  obtain ⟨s, depth⟩ := state
  by_cases hdepth : depth = 0
  · subst hdepth
    rw [apply_zero]
    exact h.zero s hopens
  · obtain ⟨slot, hslot⟩ := Option.isSome_iff_exists.1 (LexicalState.isValid_iff.1 hvalid hdepth)
    rw [apply_of_slot effect hdepth hslot]
    exact (h.follows s slot hslot).image depth hdepth hopens

theorem tracks_single (kind : TokenClass) : kind.effect.Tracks [kind] := by
  refine ⟨regular_effect kind, fun s _ => (apply_zero _ s).symm, fun s slot hslot => ?_⟩
  obtain ⟨hexplicit, -, hdelta⟩ := comments_effect kind slot
  have hsurplus : surplus [kind] = kind.rise := by rw [surplus_cons, surplus_nil, add_zero]
  refine ⟨by rw [hdelta, hsurplus], fun depth hdepth _ => ?_, fun depth hbeyond hopens => ?_⟩
  · exact (apply_of_slot kind.effect hdepth hslot).symm
  · rw [hexplicit, List.length_nil] at hbeyond
    have hbound := depth.toNat_lt
    rw [hsurplus]
    rcases kind.rise_cases with ⟨hkind, hrise⟩ | hrise | hrise <;> rw [hrise]
    · have : depth.toNat < 254 := hopens.1 hkind
      omega
    · omega
    · omega

theorem tracks_nil : identity.Tracks [] := by
  refine ⟨regular_identity, fun s _ => images_identity s, fun s slot hslot => ?_⟩
  have hplain := (tracks_single .plainText).follows s slot hslot
  refine ⟨hplain.delta, fun depth hdepth _ => ?_, fun depth _ _ => ?_⟩
  · rw [run_nil, ← CommentImages.image_unchanged s hdepth, ← comments_identity hslot]
  · have := depth.toNat_lt
    rw [surplus_nil]
    omega

theorem reach_eq (own images : CommentImages) (hlength : own.explicit.length ≤ 255)
    (hlength' : images.explicit.length ≤ 255) (hdelta : own.delta.toInt.natAbs ≤ 32000) :
    (reach own images : ℤ) = min 255 (max (max (own.explicit.length : ℤ)
      ((images.explicit.length : ℤ) - own.delta.toInt)) (-own.delta.toInt)) :=
  reach_eq_max own images hlength hlength' ⟨by omega, by omega⟩ ⟨by omega, by omega⟩

/-- The rules of two tables in a row make a rule from the depth on that both reach. -/
theorem Tracks.untrimmed (h : first.Tracks kinds) (h' : next.Tracks more)
    (hbrackets : brackets (kinds ++ more) ≤ 32000) {slot slot' : Fin Superstate.commentableCount}
    (hslot : s.commentSlot? = some slot)
    (hslot' : (first.comments.get slot).target.commentSlot? = some slot') :
    (untrimmed first next s (first.comments.get slot) (next.comments.get slot')).Follows s
      (kinds ++ more) := by
  have hown := h.follows s slot hslot
  have himages := h'.follows _ slot' hslot'
  have hlength := (h.comments slot).length
  have hlength' := (h'.comments slot').length
  generalize first.comments.get slot = own at hown himages hlength hslot' ⊢
  generalize next.comments.get slot' = images at himages hlength' ⊢
  rw [brackets_append] at hbrackets
  have hbound := natAbs_surplus_le kinds
  have hbound' := natAbs_surplus_le more
  have hreach := reach_eq own images hlength hlength' (by rw [hown.delta]; omega)
  rw [hown.delta] at hreach
  have hdelta : (own.delta + images.delta).toInt = surplus kinds + surplus more := by
    rw [Int16.toInt_add, hown.delta, himages.delta, bmod_eq_self (by omega)]
  have hvalid (depth : UInt8) : LexicalState.IsValid ⟨s, depth⟩ :=
    LexicalState.isValid_iff.2 fun _ => Option.isSome_iff_exists.2 ⟨slot, hslot⟩
  -- behind the table both rules are followed, the second one from a depth that its table does not have
  have hboth (depth : UInt8) (hbeyond : reach own images < depth.toNat)
      (hopens : OpensBelow 254 ⟨s, depth⟩ (kinds ++ more)) :
      (run ⟨s, depth⟩ (kinds ++ more)).superstate = images.target ∧
        ((run ⟨s, depth⟩ (kinds ++ more)).depth.toNat : ℤ) =
          depth.toNat + (surplus kinds + surplus more) := by
    have hdepth := depth.toNat_lt
    obtain ⟨hfirst, hnext⟩ := opensBelow_append.1 hopens
    obtain ⟨hsuper, hmiddle⟩ := hown.run_eq (by omega) hfirst
    rw [run_append]
    generalize run ⟨s, depth⟩ kinds = middle at hsuper hmiddle hnext
    obtain ⟨_, depth'⟩ := middle
    obtain rfl : _ = own.target := hsuper
    dsimp only at hmiddle
    obtain ⟨hsuper', hlast⟩ := himages.run_eq (by omega) hnext
    refine ⟨hsuper', ?_⟩
    rw [hlast, hmiddle, add_assoc]
  refine ⟨by rw [surplus_append]; exact hdelta, fun depth hdepth hopens => ?_,
    fun depth hbeyond hopens => ?_⟩
  · rcases Nat.lt_or_ge (reach own images) depth.toNat with hbeyond | hwithin
    · obtain ⟨hsuper, hlast⟩ := hboth depth hbeyond hopens
      rw [image_untrimmed_of_gt first next s hbeyond]
      generalize run ⟨s, depth⟩ (kinds ++ more) = last at hsuper hlast
      obtain ⟨_, depth'⟩ := last
      obtain rfl : _ = images.target := hsuper
      refine congrArg (LexicalState.mk _) ?_
      change clampDepth (depth.toNat + (own.delta + images.delta).toInt) = depth'
      rw [hdelta, ← hlast, clampDepth_toNat]
    · obtain ⟨hfirst, hnext⟩ := opensBelow_append.1 hopens
      rw [image_untrimmed_of_le first next s hdepth hwithin, h.apply_eq (hvalid depth) hfirst,
        h'.apply_eq (isValid_run (hvalid depth) kinds) hnext, run_append]
  · rw [length_explicit_untrimmed] at hbeyond
    have hlast := (hboth depth hbeyond hopens).2
    have hdepth := (run ⟨s, depth⟩ (kinds ++ more)).depth.toNat_lt
    rw [surplus_append, ← hlast]
    omega

theorem Tracks.andThen (h : first.Tracks kinds) (h' : next.Tracks more)
    (hbrackets : brackets (kinds ++ more) ≤ 32000) : (first.andThen next).Tracks (kinds ++ more) := by
  refine ⟨h.toRegular.andThen h'.toRegular, fun s hopens => ?_, fun s slot hslot => ?_⟩
  · obtain ⟨hfirst, hnext⟩ := opensBelow_append.1 hopens
    rw [images_andThen, h.zero s hfirst, run_append]
    exact h'.apply_eq (isValid_run (LexicalState.isValid_zero s) kinds) hnext
  · obtain ⟨slot', hslot'⟩ := Option.isSome_iff_exists.1 (h.comments slot).target
    rw [comments_andThen first next hslot, composeComments_eq first next s hslot']
    refine (h.untrimmed h' hbrackets hslot hslot').trimmed ?_ ?_ hbrackets
    · rw [length_explicit_untrimmed]
      exact reach_le _ _
    · exact Option.isSome_iff_exists.2 ⟨slot, hslot⟩

/-! ### Empty text -/

theorem apply_identity (hvalid : state.IsValid) : identity.apply state = state :=
  tracks_nil.apply_eq hvalid trivial

/-- Effects are told apart by their images. -/
theorem ext_of_images (himages : ∀ s : Superstate, first.images.get s.index = next.images.get s.index)
    (hcomments : ∀ (s : Superstate) (slot : Fin Superstate.commentableCount),
      s.commentSlot? = some slot → first.comments.get slot = next.comments.get slot) : first = next := by
  obtain ⟨images, comments⟩ := first
  obtain ⟨images', comments'⟩ := next
  have hindex (i : Fin Superstate.count) : Superstate.table[i].index = i := by
    revert i
    decide
  congr 1
  · refine Vector.ext fun i hi => ?_
    obtain ⟨s, hs⟩ : ∃ s : Superstate, s.index = ⟨i, hi⟩ := ⟨_, hindex ⟨i, hi⟩⟩
    have himage := himages s
    simp only [hs] at himage
    exact himage
  · refine Vector.ext fun i hi => ?_
    exact hcomments _ ⟨i, hi⟩ (Superstate.commentSlot?_getElem ⟨i, hi⟩)

/-- The images of a table one by one, and those that its rule gives to some depths behind it. -/
theorem map_image_range (images : CommentImages) (more : ℕ)
    (h : images.explicit.length + more ≤ 255) :
    (List.range (images.explicit.length + more)).map (fun i => images.image (UInt8.ofNat (i + 1))) =
      images.explicit ++ (List.range more).map fun i => images.tail (images.explicit.length + i + 1) := by
  refine List.ext_getElem (by simp) fun i hi _ => ?_
  rw [List.length_map, List.length_range] at hi
  have hnat : (UInt8.ofNat (i + 1)).toNat = i + 1 := by
    rw [UInt8.toNat_ofNat']
    omega
  have hdepth : UInt8.ofNat (i + 1) ≠ 0 := fun hzero => by simp [hzero] at hnat
  rw [List.getElem_map, List.getElem_range]
  rcases Nat.lt_or_ge i images.explicit.length with hlt | hge
  · obtain ⟨_, himage⟩ := @CommentImages.image_of_lt images _ (by omega) hdepth
    simp only [List.getElem_append_left hlt, himage, hnat, Nat.add_sub_cancel]
  · rw [List.getElem_append_right hge, CommentImages.image_of_ge (by omega), hnat, List.getElem_map,
      List.getElem_range]
    congr 1
    omega

theorem explicit_untrimmed (own images : CommentImages) {table : CommentImages}
    (h : ∀ depth : UInt8, depth ≠ 0 → next.apply (first.apply ⟨s, depth⟩) = table.image depth) :
    (Effect.untrimmed first next s own images).explicit =
      (List.range (reach own images)).map fun i => table.image (UInt8.ofNat (i + 1)) := by
  refine List.map_congr_left fun i hi => h _ fun hzero => ?_
  have hnat := congrArg UInt8.toNat hzero
  rw [UInt8.toNat_ofNat', UInt8.toNat_zero] at hnat
  have := reach_le own images
  rw [List.mem_range] at hi
  omega

/-- Empty text in front changes nothing, not even the tables. -/
theorem identity_andThen (h : effect.Regular) : identity.andThen effect = effect := by
  refine ext_of_images (fun s => ?_) fun s slot hslot => ?_
  · rw [images_andThen, images_identity, apply_zero]
  have hregular := h.comments slot
  have hunchanged : (CommentImages.unchanged s).target.commentSlot? = some slot := hslot
  have happly (depth : UInt8) (hdepth : depth ≠ 0) :
      effect.apply (identity.apply ⟨s, depth⟩) = (effect.comments.get slot).image depth := by
    rw [apply_identity (LexicalState.isValid_iff.2 fun _ => Option.isSome_iff_exists.2 ⟨slot, hslot⟩),
      apply_of_slot effect hdepth hslot]
  rw [comments_andThen identity effect hslot, comments_identity hslot,
    composeComments_eq identity effect s hunchanged]
  generalize effect.comments.get slot = images at hregular happly ⊢
  have hexplicit := explicit_untrimmed (.unchanged s) images happly
  have hreach : reach (.unchanged s) images = images.explicit.length := by
    have hreach := reach_eq (.unchanged s) images (Nat.zero_le _) hregular.length (Nat.zero_le _)
    have hlength := hregular.length
    simp only [CommentImages.explicit_unchanged, CommentImages.delta_unchanged, List.length_nil,
      Int16.toInt_zero] at hreach
    omega
  have hmap := map_image_range images 0 hregular.length
  rw [Nat.add_zero, List.range_zero, List.map_nil, List.append_nil] at hmap
  rw [hreach, hmap] at hexplicit
  have hsame : Effect.untrimmed identity effect s (.unchanged s) images = images := by
    refine (CommentImages.mk.injEq ..).mpr ⟨hexplicit, rfl, ?_⟩
    exact Int16.zero_add images.delta
  rw [hsame, hregular.trimmed]

end Effect

/-- The rule of a table does not stay below zero for longer than the table is. -/
def CommentImages.Reaches (images : CommentImages) : Prop :=
  -images.delta.toInt ≤ images.explicit.length + 1

namespace Effect

variable {effect : Effect}

/-- Empty text behind changes nothing either, if the rule of no table stays below zero for longer than
the table is. -/
theorem andThen_identity (h : effect.Regular)
    (hreaches : ∀ slot : Fin Superstate.commentableCount, (effect.comments.get slot).Reaches)
    (hdelta : ∀ slot : Fin Superstate.commentableCount,
      (effect.comments.get slot).delta.toInt.natAbs ≤ 32000) : effect.andThen identity = effect := by
  refine ext_of_images (fun s => ?_) fun s slot hslot => ?_
  · rw [images_andThen, apply_identity (h.images s)]
  have hregular := h.comments slot
  have hreaches := hreaches slot
  have hdelta := hdelta slot
  obtain ⟨slot', hslot'⟩ := Option.isSome_iff_exists.1 hregular.target
  have happly (depth : UInt8) (hdepth : depth ≠ 0) :
      identity.apply (effect.apply ⟨s, depth⟩) = (effect.comments.get slot).image depth := by
    rw [apply_of_slot effect hdepth hslot, apply_identity (hregular.isValid_image hdepth)]
  rw [comments_andThen effect identity hslot, composeComments_eq effect identity s hslot',
    comments_identity hslot']
  generalize effect.comments.get slot = own at hregular hreaches hdelta happly ⊢
  have hexplicit := explicit_untrimmed own (.unchanged own.target) happly
  have hlength := hregular.length
  have hreach := reach_eq own (.unchanged own.target) hlength (Nat.zero_le _) hdelta
  simp only [CommentImages.explicit_unchanged, List.length_nil] at hreach
  rw [CommentImages.Reaches] at hreaches
  obtain ⟨more, hmore⟩ : ∃ more, reach own (.unchanged own.target) = own.explicit.length + more :=
    Nat.exists_eq_add_of_le (by omega)
  rw [hmore, map_image_range _ more (by omega)] at hexplicit
  have hsame : Effect.untrimmed effect identity s own (.unchanged own.target) =
      { own with explicit := own.explicit ++
        (List.range more).map fun i => own.tail (own.explicit.length + i + 1) } := by
    refine (CommentImages.mk.injEq ..).mpr ⟨hexplicit, rfl, ?_⟩
    exact Int16.add_zero own.delta
  rw [hsame, own.trimmed_append _ fun i hi => ?_, hregular.trimmed]
  -- the rule gives at most one depth that the table does not list, and that is depth zero
  rw [List.length_map, List.length_range] at hi
  refine ⟨by rw [List.getElem_map, List.getElem_range], ?_⟩
  rw [Int16.le_iff_toInt_le, Int16.toInt_add, Int16.toInt_zero, Int16.toInt_ofNat_of_lt (by omega),
    bmod_eq_self (by omega)]
  omega

/-- Empty text behind shows in no valid state. -/
theorem apply_andThen_identity (h : effect.Regular)
    (hdelta : ∀ slot : Fin Superstate.commentableCount,
      (effect.comments.get slot).delta.toInt.natAbs ≤ 32000) (hvalid : state.IsValid) :
    (effect.andThen identity).apply state = effect.apply state := by
  obtain ⟨s, depth⟩ := state
  by_cases hdepth : depth = 0
  · subst hdepth
    rw [apply_zero, apply_zero, images_andThen, apply_identity (h.images s)]
  obtain ⟨slot, hslot⟩ := Option.isSome_iff_exists.1 (LexicalState.isValid_iff.1 hvalid hdepth)
  have hregular := h.comments slot
  have hdelta := hdelta slot
  obtain ⟨slot', hslot'⟩ := Option.isSome_iff_exists.1 hregular.target
  have happly : identity.apply (effect.apply ⟨s, depth⟩) = (effect.comments.get slot).image depth := by
    rw [apply_of_slot effect hdepth hslot, apply_identity (hregular.isValid_image hdepth)]
  rw [apply_of_slot _ hdepth hslot, apply_of_slot effect hdepth hslot,
    comments_andThen effect identity hslot, composeComments_eq effect identity s hslot',
    comments_identity hslot', CommentImages.image_trimmed _ hdepth]
  generalize effect.comments.get slot = own at hregular hdelta happly ⊢
  have hlength := hregular.length
  have hreach := reach_eq own (.unchanged own.target) hlength (Nat.zero_le _) hdelta
  rcases Nat.lt_or_ge (reach own (.unchanged own.target)) depth.toNat with hbeyond | hwithin
  · rw [image_untrimmed_of_gt effect identity s hbeyond, CommentImages.image_of_ge (by omega)]
    refine congrArg (LexicalState.mk own.target) ?_
    change clampDepth (depth.toNat + (own.delta + 0).toInt) = clampDepth (depth.toNat + own.delta.toInt)
    rw [Int16.add_zero]
  · rw [image_untrimmed_of_le effect identity s hdepth hwithin, happly]

theorem Tracks.reaches_andThen {first next : Effect} (h : first.Tracks kinds) (h' : next.Tracks more)
    (hbrackets : brackets (kinds ++ more) ≤ 32000) (hclosed : -256 ≤ surplus (kinds ++ more))
    (hreaches : ∀ slot : Fin Superstate.commentableCount, (next.comments.get slot).Reaches)
    (slot : Fin Superstate.commentableCount) : ((first.andThen next).comments.get slot).Reaches := by
  have hslot := Superstate.commentSlot?_getElem slot
  obtain ⟨slot', hslot'⟩ := Option.isSome_iff_exists.1 (h.comments slot).target
  have hfollows := h.untrimmed h' hbrackets hslot hslot'
  rw [comments_andThen first next hslot, composeComments_eq first next _ hslot']
  have hdelta := (h.follows _ slot hslot).delta
  have hdelta' := (h'.follows _ slot' hslot').delta
  have hreaches := hreaches slot'
  have hlength := (h.comments slot).length
  have hlength' := (h'.comments slot').length
  generalize Superstate.commentableTable.get slot = s at hfollows ⊢
  generalize first.comments.get slot = own at hfollows hdelta hlength ⊢
  generalize next.comments.get slot' = images at hfollows hdelta' hreaches hlength' ⊢
  have hbound := natAbs_surplus_le kinds
  have hbrackets' := hbrackets
  rw [brackets_append] at hbrackets
  rw [surplus_append] at hclosed
  have hreach := reach_eq own images hlength hlength' (by omega)
  have hle := reach_le own images
  rw [CommentImages.Reaches, hdelta'] at hreaches
  have hsum := hfollows.delta
  rw [← length_explicit_untrimmed first next s] at hreach hle
  generalize Effect.untrimmed first next s own images = composed at hfollows hsum hreach hle ⊢
  change -composed.delta.toInt ≤ composed.trimmed.explicit.length + 1
  have hkeeps := composed.explicit_prefix_trimmed.length_le
  rw [hsum, surplus_append]
  -- either nothing was trimmed off, or the last image that was is at a depth that the rule allows
  rcases Nat.eq_or_lt_of_le hkeeps with hall | hsome
  · omega
  · have hrange := (composed.getElem_explicit_of_trimmed hsome (Nat.le_refl _)).2
    rw [CommentImages.nonneg_add_iff (by omega) hsum hbrackets', surplus_append] at hrange
    omega

end Effect

end LiveProse
