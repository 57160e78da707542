import LiveProse.Lexical.TokenClass
import Mathlib.Tactic

/-! Rows of token classes, run one after another. A run never leaves the valid states, and the depth of
comments changes by one at a square bracket and nowhere else; so a row that ends inside of 255 comments
without opening the last of them has no bracket at all. -/

namespace LiveProse

theorem LexicalState.isValid_iff {state : LexicalState} :
    state.IsValid ↔ (state.depth ≠ 0 → state.superstate.isCommentable = true) := by
  simp [IsValid, inComment]

theorem LexicalState.isValid_zero (s : Superstate) : LexicalState.IsValid ⟨s, 0⟩ :=
  isValid_iff.2 fun h => absurd rfl h

theorem LexicalState.isValid_initial : initial.IsValid := isValid_zero _

theorem toNat_clampDepth (depth : ℤ) : ((clampDepth depth).toNat : ℤ) = max 0 (min depth 255) := by
  unfold clampDepth
  split_ifs with hlow hhigh
  · rw [UInt8.toNat_zero]
    omega
  · change (255 : ℤ) = _
    omega
  · rw [UInt8.toNat_ofNat']
    omega

theorem clampDepth_toNat (depth : UInt8) : clampDepth depth.toNat = depth := by
  have hclamp := toNat_clampDepth depth.toNat
  have hbound := depth.toNat_lt
  refine UInt8.toNat_inj.1 ?_
  omega

theorem Superstate.getElem_table (s : Superstate) : table[s.index.val] = s := by
  have h := s.ofIndex?_index
  exact (List.getElem?_eq_some_iff.1 h).2

theorem Superstate.getElem_commentableTable {s : Superstate} {slot : Fin commentableCount}
    (h : s.commentSlot? = some slot) : commentableTable.get slot = s := by
  unfold commentSlot? at h
  split at h <;> simp only [Option.some.injEq, reduceCtorEq] at h <;> subst h <;>
    first | rfl | (rename_i extract; cases extract <;> rfl)

theorem Superstate.commentSlot?_getElem (slot : Fin commentableCount) :
    (commentableTable.get slot).commentSlot? = some slot := by
  revert slot
  decide

namespace Effect

variable {effect : Effect} {s : Superstate} {depth : UInt8}

@[simp] theorem apply_zero (effect : Effect) (s : Superstate) :
    effect.apply ⟨s, 0⟩ = effect.images.get s.index := by
  rw [apply, if_neg (by simp [LexicalState.inComment])]
  rfl

theorem apply_of_slot (effect : Effect) {slot : Fin Superstate.commentableCount} (hdepth : depth ≠ 0)
    (hslot : s.commentSlot? = some slot) :
    effect.apply ⟨s, depth⟩ = (effect.comments.get slot).image depth := by
  rw [apply, if_pos (by simp [LexicalState.inComment, hdepth])]
  simp only [hslot]
  rfl

end Effect

namespace TokenClass

variable {state : LexicalState} {kind : TokenClass} {kinds more : List TokenClass} {limit : ℕ}

/-- The state that a row of classes leads to. -/
def run (state : LexicalState) (kinds : List TokenClass) : LexicalState :=
  kinds.foldl (fun state kind => kind.apply state) state

@[simp] theorem run_nil (state : LexicalState) : run state [] = state := rfl

@[simp] theorem run_cons (state : LexicalState) (kind : TokenClass) (kinds : List TokenClass) :
    run state (kind :: kinds) = run (kind.apply state) kinds := rfl

theorem run_append (state : LexicalState) (kinds more : List TokenClass) :
    run state (kinds ++ more) = run (run state kinds) more :=
  List.foldl_append

/-- No comment is opened inside of `limit` or more comments. -/
def OpensBelow (limit : ℕ) (state : LexicalState) : List TokenClass → Prop
  | [] => True
  | kind :: rest =>
    (kind = .leftBracket → state.depth.toNat < limit) ∧ OpensBelow limit (kind.apply state) rest

instance decidableOpensBelow (limit : ℕ) :
    (state : LexicalState) → (kinds : List TokenClass) → Decidable (OpensBelow limit state kinds)
  | _, [] => inferInstanceAs (Decidable True)
  | state, kind :: rest =>
    have := decidableOpensBelow limit (kind.apply state) rest
    inferInstanceAs (Decidable ((kind = .leftBracket → state.depth.toNat < limit) ∧
      OpensBelow limit (kind.apply state) rest))

theorem opensBelow_append : OpensBelow limit state (kinds ++ more) ↔
    OpensBelow limit state kinds ∧ OpensBelow limit (run state kinds) more := by
  induction kinds generalizing state with
  | nil => exact (and_iff_right trivial).symm
  | cons kind kinds ih => rw [List.cons_append, OpensBelow, OpensBelow, ih, and_assoc, run_cons]

/-- By how much a class changes the depth inside of comments. -/
def rise : TokenClass → ℤ
  | .leftBracket => 1
  | .rightBracket => -1
  | _ => 0

theorem rise_cases (kind : TokenClass) :
    (kind = .leftBracket ∧ kind.rise = 1) ∨ kind.rise = -1 ∨ kind.rise = 0 := by
  cases kind <;> simp [rise]

/-- By how much a row of classes changes the depth of a state that stays inside of comments. -/
def surplus (kinds : List TokenClass) : ℤ := (kinds.map rise).sum

@[simp] theorem surplus_nil : surplus [] = 0 := rfl

@[simp] theorem surplus_cons (kind : TokenClass) (kinds : List TokenClass) :
    surplus (kind :: kinds) = kind.rise + surplus kinds := by
  simp [surplus]

@[simp] theorem surplus_append (kinds more : List TokenClass) :
    surplus (kinds ++ more) = surplus kinds + surplus more := by
  simp [surplus]

theorem surplus_eq (kinds : List TokenClass) :
    surplus kinds = kinds.count .leftBracket - kinds.count .rightBracket := by
  induction kinds with
  | nil => rfl
  | cons kind kinds ih =>
    rw [surplus_cons, ih, List.count_cons, List.count_cons]
    cases kind <;> simp [rise] <;> omega

/-- The number of square brackets. -/
def brackets (kinds : List TokenClass) : ℕ := kinds.count .leftBracket + kinds.count .rightBracket

theorem brackets_append (kinds more : List TokenClass) :
    brackets (kinds ++ more) = brackets kinds + brackets more := by
  simp only [brackets, List.count_append]
  omega

theorem brackets_le_length (kinds : List TokenClass) : brackets kinds ≤ kinds.length := by
  induction kinds with
  | nil => exact Nat.le_refl 0
  | cons kind kinds ih =>
    simp only [brackets, List.count_cons, List.length_cons] at ih ⊢
    cases kind <;> simp <;> omega

theorem natAbs_surplus_le (kinds : List TokenClass) : (surplus kinds).natAbs ≤ brackets kinds := by
  rw [surplus_eq, brackets]
  omega

/-! ### One class -/

/-- The tables of single classes are empty, and only brackets change depths. -/
theorem comments_effect (kind : TokenClass) : ∀ slot : Fin Superstate.commentableCount,
    (kind.effect.comments.get slot).explicit = [] ∧
      (kind.effect.comments.get slot).target.isCommentable = true ∧
        (kind.effect.comments.get slot).delta.toInt = kind.rise := by
  cases kind <;> decide +kernel

/-- Outside comments a bracket opens at most one. -/
theorem depth_images_effect (kind : TokenClass) : ∀ index : Fin Superstate.count,
    (kind.effect.images.get index).IsValid ∧ (kind.effect.images.get index).depth ≤ 1 := by
  have hdecided : ∀ index : Fin Superstate.count,
      ((kind.effect.images.get index).inComment →
        (kind.effect.images.get index).superstate.isCommentable = true) ∧
          (kind.effect.images.get index).depth ≤ 1 := by
    cases kind <;> decide +kernel
  exact hdecided

/-- Inside of comments the depth changes by the rise of a class, within the depths that are counted. -/
theorem depth_apply (hvalid : state.IsValid) (hdepth : state.depth ≠ 0) :
    (kind.apply state).superstate.isCommentable = true ∧
      ((kind.apply state).depth.toNat : ℤ) = max 0 (min (state.depth.toNat + kind.rise) 255) := by
  obtain ⟨s, depth⟩ := state
  obtain ⟨slot, hslot⟩ := Option.isSome_iff_exists.1 (LexicalState.isValid_iff.1 hvalid hdepth)
  obtain ⟨hexplicit, htarget, hdelta⟩ := comments_effect kind slot
  have happly : kind.apply ⟨s, depth⟩ = (kind.effect.comments.get slot).tail depth.toNat := by
    rw [TokenClass.apply, Effect.apply_of_slot _ hdepth hslot, CommentImages.image, hexplicit]
    rfl
  rw [happly]
  refine ⟨htarget, ?_⟩
  change ((clampDepth _).toNat : ℤ) = _
  rw [toNat_clampDepth, hdelta]

theorem isValid_apply (hvalid : state.IsValid) : (kind.apply state).IsValid := by
  by_cases hdepth : state.depth = 0
  · obtain ⟨s, depth⟩ := state
    obtain rfl : depth = 0 := hdepth
    rw [TokenClass.apply, Effect.apply_zero]
    exact (depth_images_effect kind s.index).1
  · exact LexicalState.isValid_iff.2 fun _ => (depth_apply hvalid hdepth).1

theorem isValid_run (hvalid : state.IsValid) (kinds : List TokenClass) : (run state kinds).IsValid := by
  induction kinds generalizing state with
  | nil => exact hvalid
  | cons kind kinds ih => exact ih (isValid_apply hvalid)

/-- The deepest state is reached only by opening the last comment, or by staying there. -/
theorem stays_of_depth_apply (hvalid : state.IsValid)
    (hopens : kind = .leftBracket → state.depth.toNat < 254) (hdeep : (kind.apply state).depth = 255) :
    state.depth = 255 ∧ kind.rise = 0 := by
  have hdeep' : (kind.apply state).depth.toNat = 255 := by rw [hdeep]; rfl
  by_cases hdepth : state.depth = 0
  · obtain ⟨s, depth⟩ := state
    obtain rfl : depth = 0 := hdepth
    have hshallow := (depth_images_effect kind s.index).2
    rw [← Effect.apply_zero] at hshallow
    exact absurd (hdeep ▸ hshallow : (255 : UInt8) ≤ 1) (by decide)
  · have hchange := (@depth_apply _ kind hvalid hdepth).2
    have hbound := state.depth.toNat_lt
    rw [hdeep'] at hchange
    rcases kind.rise_cases with ⟨hkind, hrise⟩ | hrise | hrise <;> rw [hrise] at hchange
    · have := hopens hkind
      omega
    · omega
    · refine ⟨UInt8.toNat_inj.1 ?_, hrise⟩
      change state.depth.toNat = 255
      omega

/-- A row that ends inside of 255 comments, none of which it opens last, has not changed the depth. -/
theorem stays_of_depth_run (hvalid : state.IsValid) (hopens : OpensBelow 254 state kinds)
    (hdeep : (run state kinds).depth = 255) : state.depth = 255 ∧ surplus kinds = 0 := by
  induction kinds generalizing state with
  | nil => exact ⟨hdeep, rfl⟩
  | cons kind kinds ih =>
    obtain ⟨hfirst, hrest⟩ := ih (isValid_apply hvalid) hopens.2 hdeep
    obtain ⟨hdepth, hrise⟩ := stays_of_depth_apply hvalid hopens.1 hfirst
    exact ⟨hdepth, by rw [surplus_cons, hrise, hrest, zero_add]⟩

end TokenClass

end LiveProse
