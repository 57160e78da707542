import LiveProse.Proofs.Deduction.Propagation

/-! Every step that the engine takes, written down. A store can be made to note each change that it
is asked for; the engine does not see the difference, and a store that keeps the contract keeps it
while it notes. So what is sound about the store stays sound at every step of a run, and no deduction
is uncounted that is not counted. -/

namespace LiveProse

/-- One change of a fact. -/
structure Step (σ φ : Type) where
  direction : Direction
  fact : φ
  before : σ
  after : σ
  /-- Whether the fact changed its truth. -/
  changed : Bool

/-- A store with the changes it was asked for, last one first. -/
structure Traced (σ φ : Type) where
  store : σ
  steps : List (Step σ φ) := []

namespace Traced

variable {σ φ : Type} [Deductive σ φ]

/-- Changes a fact and notes the change. -/
def change (direction : Direction) (traced : Traced σ φ) (fact : φ) : Traced σ φ × Bool :=
  let after := Engine.change direction traced.store fact
  (⟨after.1, ⟨direction, fact, traced.store, after.1, after.2⟩ :: traced.steps⟩, after.2)

instance : Deductive (Traced σ φ) φ where
  kind traced := Deductive.kind traced.store
  holds traced := Deductive.holds traced.store
  counterpart? traced := Deductive.counterpart? traced.store
  justify := change .justify
  unjustify := change .unjustify
  consequences traced := Deductive.consequences traced.store
  bound traced := Deductive.bound traced.store

@[simp] theorem kind_eq (traced : Traced σ φ) (fact : φ) :
    Deductive.kind traced fact = Deductive.kind traced.store fact := rfl

@[simp] theorem holds_eq (traced : Traced σ φ) (fact : φ) :
    Deductive.holds traced fact = Deductive.holds traced.store fact := rfl

@[simp] theorem bound_eq (traced : Traced σ φ) :
    Deductive.bound traced = Deductive.bound traced.store := rfl

@[simp] theorem counterpart?_eq (traced : Traced σ φ) (fact : φ) :
    Deductive.counterpart? traced fact = Deductive.counterpart? traced.store fact := rfl

@[simp] theorem change_eq (direction : Direction) (traced : Traced σ φ) (fact : φ) :
    Engine.change direction traced fact = traced.change direction fact := by
  cases direction <;> rfl

/-! ### The engine does not see the notes -/

theorem settle_eq (direction : Direction) (engine : Engine) (traced : Traced σ φ)
    (waiting : List φ) :
    let after := Engine.settle direction engine traced waiting
    Engine.settle direction engine traced.store waiting = (after.1, after.2.1.store, after.2.2) := by
  induction waiting generalizing engine traced with
  | nil => rfl
  | cons fact waiting ih =>
    intro after
    have hafter : after = Engine.settle direction engine traced (fact :: waiting) := rfl
    rw [Engine.settle, change_eq] at hafter
    rw [Engine.settle]
    unfold change at hafter
    cases hchange : Engine.change direction traced.store fact with
    | mk store flag =>
      rw [hchange] at hafter
      cases flag with
      | true => rw [hafter]
      | false =>
        rw [hafter]
        exact ih _ ⟨store, _⟩

theorem run_eq (direction : Direction) (budget : Nat) (engine : Engine) (traced : Traced σ φ)
    (waiting : List φ) :
    let after := Engine.run direction budget engine traced waiting
    Engine.run direction budget engine traced.store waiting =
      (after.1, after.2.1.store, after.2.2) := by
  induction budget generalizing engine traced waiting with
  | zero => rfl
  | succ budget ih =>
    intro after
    have hafter : after = Engine.run direction (budget + 1) engine traced waiting := rfl
    rw [Engine.run] at hafter
    rw [Engine.run, settle_eq]
    cases hsettle : Engine.settle direction engine traced waiting with
    | mk engine' rest =>
      obtain ⟨traced', next⟩ := rest
      rw [hsettle] at hafter
      cases next with
      | none => rw [hafter]
      | some next =>
        rw [hafter]
        exact ih _ traced' _

theorem propagate_eq (direction : Direction) (engine : Engine) (traced : Traced σ φ) (fact : φ) :
    let after := Engine.propagate direction engine traced fact
    Engine.propagate direction engine traced.store fact = (after.1, after.2.store) := by
  intro after
  have hafter : after = Engine.propagate direction engine traced fact := rfl
  rw [Engine.propagate, bound_eq] at hafter
  rw [Engine.propagate, run_eq, hafter]

theorem justify_eq (engine : Engine) (traced : Traced σ φ) (fact : φ) :
    let after := Engine.justify engine traced fact
    Engine.justify engine traced.store fact = (after.1, after.2.store) := by
  intro after
  have hafter : after = Engine.justify engine traced fact := rfl
  unfold Engine.justify at hafter ⊢
  dsimp only [kind_eq, counterpart?_eq] at hafter ⊢
  have hholds : Deductive.holds traced = Deductive.holds traced.store := rfl
  rw [hholds] at hafter
  cases hother : Option.filter (Deductive.holds traced.store)
      (if Deductive.kind traced.store fact = .combined then
        Deductive.counterpart? traced.store fact else none) with
  | none =>
    rw [hother] at hafter
    rw [hafter]
    exact propagate_eq ..
  | some other =>
    rw [hother] at hafter
    rw [hafter]
    dsimp only
    rw [propagate_eq .unjustify]
    exact propagate_eq ..

theorem unjustify_eq (engine : Engine) (traced : Traced σ φ) (fact : φ) :
    let after := Engine.unjustify engine traced fact
    Engine.unjustify engine traced.store fact = (after.1, after.2.store) :=
  propagate_eq ..

theorem forceFalse_eq (engine : Engine) (traced : Traced σ φ) (facts : List φ) :
    let after := Engine.forceFalse engine traced facts
    Engine.forceFalse engine traced.store facts = (after.1, after.2.store) := by
  induction facts generalizing engine traced with
  | nil => rfl
  | cons fact facts ih =>
    unfold Engine.forceFalse at ih ⊢
    dsimp only at ih ⊢
    rw [List.foldl_cons, List.foldl_cons]
    dsimp only [kind_eq, holds_eq]
    split_ifs
    · rw [propagate_eq .unjustify]
      exact ih _ _
    · exact ih _ _

end Traced

end LiveProse
