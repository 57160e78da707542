import LiveProse.Proofs.Deduction.Rules

/-! How far a call reaches. If what follows from facts of some sort is of that sort again, a call that
names such facts changes no others, and so it keeps whatever their changes keep (`Confined.call`). -/

namespace LiveProse

/-- The facts that a call names. -/
def Call.facts {φ : Type} : Call φ → List φ
  | justify fact | unjustify fact => [fact]
  | forceFalse facts => facts

variable {σ φ : Type} {P : σ → Prop} {Q : σ → φ → Prop} {s t u : σ} {fact : φ} {facts waiting : List φ}

/-- The second store is as it should be, and nothing that was within reach of the first is out of it. -/
structure Keeps (P : σ → Prop) (Q : σ → φ → Prop) (s t : σ) : Prop where
  result : P t
  stays : ∀ fact, Q s fact → Q t fact

theorem Keeps.refl (hs : P s) : Keeps P Q s s := ⟨hs, fun _ hfact => hfact⟩

theorem Keeps.trans (h : Keeps P Q s t) (h' : Keeps P Q t u) : Keeps P Q s u :=
  ⟨h'.result, fun fact hfact => h'.stays fact (h.stays fact hfact)⟩

theorem Keeps.all (h : Keeps P Q s t) (hfacts : ∀ fact ∈ facts, Q s fact) : ∀ fact ∈ facts, Q t fact :=
  fun fact hfact => h.stays fact (hfacts fact hfact)

variable [Deductive σ φ]

/-- The facts that `Q` puts within reach lead to no others: neither do their other senses, nor what follows
from them when they change. As long as only such facts change, the stores stay as `P` says, and nothing
goes out of reach. -/
structure Confined (P : σ → Prop) (Q : σ → φ → Prop) : Prop where
  change : ∀ direction s fact, P s → Q s fact → P (Engine.change direction s fact).1
  stays : ∀ direction s fact, P s → Q s fact →
    ∀ other, Q s other → Q (Engine.change direction s fact).1 other
  next : ∀ direction s fact, P s → Q s fact → (Engine.change direction s fact).2 = true →
    ∀ next ∈ Deductive.consequences (Engine.change direction s fact).1 fact,
      Q (Engine.change direction s fact).1 next
  counterpart : ∀ s fact other, Q s fact → Deductive.counterpart? s fact = some other → Q s other

namespace Confined

variable (h : Confined P Q)
include h

/-- When a fact changes its truth, what follows from it is within reach like all that waits. -/
theorem settle (direction : Direction) (engine : Engine) (hs : P s) (hwaiting : ∀ fact ∈ waiting, Q s fact) :
    let after := Engine.settle direction engine s waiting
    Keeps P Q s after.2.1 ∧ ∀ fact rest, after.2.2 = some (fact, rest) →
      ∀ next ∈ Deductive.consequences after.2.1 fact ++ rest, Q after.2.1 next := by
  induction waiting generalizing engine s with
  | nil => exact ⟨.refl hs, fun _ _ hsome => by cases hsome⟩
  | cons fact waiting ih =>
    obtain ⟨hfact, hwaiting⟩ := List.forall_mem_cons.1 hwaiting
    have hkeeps : Keeps P Q s (Engine.change direction s fact).1 :=
      ⟨h.change direction s fact hs hfact, h.stays direction s fact hs hfact⟩
    have hnext := h.next direction s fact hs hfact
    rw [Engine.settle]
    split <;> rename_i heq <;> rw [heq] at hkeeps hnext
    · refine ⟨hkeeps, fun first rest hsome => ?_⟩
      obtain ⟨rfl, rfl⟩ := Prod.mk.inj (Option.some.inj hsome)
      exact List.forall_mem_append.2 ⟨hnext rfl, hkeeps.all hwaiting⟩
    · obtain ⟨hrest, hconsequences⟩ := ih _ hkeeps.result (hkeeps.all hwaiting)
      exact ⟨hkeeps.trans hrest, hconsequences⟩

theorem run (direction : Direction) (budget : ℕ) (engine : Engine) (hs : P s)
    (hwaiting : ∀ fact ∈ waiting, Q s fact) :
    Keeps P Q s (Engine.run direction budget engine s waiting).2.1 := by
  induction budget generalizing engine s waiting with
  | zero => exact .refl hs
  | succ budget ih =>
    obtain ⟨hkeeps, hnext⟩ := h.settle direction engine hs hwaiting
    rw [Engine.run]
    split <;> rename_i heq <;> rw [heq] at hkeeps hnext
    · exact hkeeps
    · exact hkeeps.trans (ih _ hkeeps.result (hnext _ _ rfl))

theorem propagate (direction : Direction) (engine : Engine) (hs : P s) (hfact : Q s fact) :
    Keeps P Q s (Engine.propagate direction engine s fact).2 :=
  h.run direction (Deductive.bound s + 1) engine hs (List.forall_mem_singleton.2 hfact)

theorem justify (engine : Engine) (hs : P s) (hfact : Q s fact) :
    Keeps P Q s (Engine.justify engine s fact).2 := by
  unfold Engine.justify
  dsimp only
  split
  · rename_i other hfilter
    have hsome := (Option.filter_eq_some_iff.1 hfilter).1
    split_ifs at hsome
    have hfirst := h.propagate .unjustify engine hs (h.counterpart s fact other hfact hsome)
    exact hfirst.trans (h.propagate .justify _ hfirst.result (hfirst.stays fact hfact))
  · exact h.propagate .justify engine hs hfact

theorem forceFalse (engine : Engine) (hs : P s) (hfacts : ∀ fact ∈ facts, Q s fact) :
    Keeps P Q s (Engine.forceFalse engine s facts).2 := by
  unfold Engine.forceFalse
  induction facts generalizing engine s with
  | nil => exact .refl hs
  | cons fact facts ih =>
    obtain ⟨hfact, hfacts⟩ := List.forall_mem_cons.1 hfacts
    rw [List.foldl_cons]
    dsimp only
    split_ifs
    · have hfirst := h.propagate .unjustify engine hs hfact
      exact hfirst.trans (ih _ hfirst.result (hfirst.all hfacts))
    · exact ih _ hs hfacts

/-- What changes of facts within reach keep, a call that names only such facts keeps. -/
theorem call (engine : Engine) (call : Call φ) (hs : P s) (hfacts : ∀ fact ∈ call.facts, Q s fact) :
    P (call.run engine s).2 := by
  cases call with
  | justify fact => exact (h.justify engine hs (hfacts fact (List.mem_singleton_self fact))).result
  | unjustify fact =>
    exact (h.propagate .unjustify engine hs (hfacts fact (List.mem_singleton_self fact))).result
  | forceFalse facts => exact (h.forceFalse engine hs hfacts).result

end Confined

/-- What every change of a fact keeps, every call keeps. -/
theorem Call.run_keeps (h : ∀ direction s fact, P s → P (Engine.change direction s fact).1)
    (engine : Engine) (call : Call φ) (hs : P s) : P (call.run engine s).2 :=
  have hconfined : Confined P fun _ _ => True :=
    ⟨fun direction s fact hs _ => h direction s fact hs, fun _ _ _ _ _ _ _ => trivial,
      fun _ _ _ _ _ _ _ _ => trivial, fun _ _ _ _ _ => trivial⟩
  hconfined.call engine call hs fun _ _ => trivial

/-! ### Facts that lead to nothing -/

namespace Engine

theorem run_nil (direction : Direction) (budget : ℕ) (engine : Engine) (s : σ) :
    (run direction budget engine s ([] : List φ)).2.1 = s := by
  cases budget <;> rfl

/-- A change that nothing follows from is all that a run does. -/
theorem propagate_alone {direction : Direction} (engine : Engine)
    (hchange : change direction s fact = (t, true)) (hnext : Deductive.consequences t fact = []) :
    (propagate direction engine s fact).2 = t := by
  change (run direction (Deductive.bound s + 1) engine s [fact]).2.1 = t
  rw [run, settle, hchange]
  dsimp only
  rw [hnext]
  exact run_nil ..

/-- Making a fact true leads from one store to another, and nothing follows. -/
structure Alone (s : σ) (fact : φ) (t : σ) : Prop where
  change : Deductive.justify s fact = (t, true)
  next : Deductive.consequences t fact = []
  counterpart : ∀ other, Deductive.counterpart? s fact = some other → Deductive.holds s other = false

theorem Alone.justify (h : Alone s fact t) (engine : Engine) : (Engine.justify engine s fact).2 = t := by
  unfold Engine.justify
  dsimp only
  split
  · rename_i other hfilter
    obtain ⟨hsome, hholds⟩ := Option.filter_eq_some_iff.1 hfilter
    split_ifs at hsome
    rw [h.counterpart other hsome] at hholds
    cases hholds
  · exact propagate_alone engine h.change h.next

end Engine

end LiveProse
