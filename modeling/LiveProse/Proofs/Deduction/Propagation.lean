import LiveProse.Proofs.Deduction.Derivations
import Mathlib.Tactic.Ring

/-! Propagation keeps the books. Every fact that waits stands for one derivation that a deduction has
not been counted for yet, or is still counted for (`Balanced`); when nothing waits any more, every
deduction is counted once for each of its derivations (`Settled`). The contract that a store has to
keep for that says what one change of a fact does to it. -/

namespace LiveProse

namespace Direction

/-- What a fact becomes in a direction. -/
def sense : Direction → Bool
  | justify => true
  | unjustify => false

/-- One number is away from another by some steps in a direction. -/
def Moves (direction : Direction) (before after : ℕ∞) (steps : ℕ) : Prop :=
  match direction with
  | justify => after = before + steps
  | unjustify => before = after + steps

variable {direction : Direction} {a b c : ℕ∞} {m n : ℕ}

theorem Moves.eq_add_of_justify (h : justify.Moves a b n) : b = a + n := h

theorem Moves.eq_add_of_unjustify (h : unjustify.Moves a b n) : a = b + n := h

theorem moves_zero : direction.Moves a b 0 ↔ a = b := by
  cases direction <;> simp [Moves, eq_comm]

theorem Moves.trans (h : direction.Moves a b m) (h' : direction.Moves b c n) :
    direction.Moves a c (m + n) := by
  cases direction <;> simp only [Moves] at * <;> subst h h'
  · push_cast
    ring
  · push_cast
    ring

/-- A step less to go. -/
theorem Moves.advance (h : direction.Moves a c (n + 1)) (h' : direction.Moves a b 1) :
    direction.Moves b c n := by
  cases direction with
  | justify =>
    simp only [Moves] at *
    rw [h, h']
    push_cast
    ring
  | unjustify =>
    simp only [Moves] at *
    rw [h'] at h
    push_cast at h
    rw [← add_assoc] at h
    exact WithTop.add_right_cancel ENat.one_ne_top h

end Direction

namespace Calculus

variable {σ φ δ γ : Type} [Deductive σ φ] [DecidableEq φ] (c : Calculus σ φ δ)
variable (count : σ → φ → ℕ)

/-- Every deduction is counted once for each of its derivations. -/
def Settled (store : σ) : Prop :=
  ∀ fact, Deductive.kind store fact = .deduction → (c.support store fact).encard = count store fact

/-- Every deduction is counted once for each of its derivations, up to the facts that wait. -/
def Balanced (direction : Direction) (store : σ) (waiting : List φ) : Prop :=
  ∀ fact, Deductive.kind store fact = .deduction →
    direction.Moves (count store fact) (c.support store fact).encard (waiting.count fact)

theorem balanced_nil {direction : Direction} {store : σ} :
    c.Balanced count direction store [] ↔ c.Settled count store := by
  simp [Balanced, Settled, Direction.moves_zero, eq_comm]

end Calculus

/-- One change of a fact: the other facts and counts stay, and the flag tells the truth. -/
structure Shift {σ φ γ : Type} [Deductive σ φ] (count : σ → φ → ℕ) (frame : σ → γ)
    (direction : Direction) (s : σ) (fact : φ) (after : σ × Bool) : Prop where
  frame_eq : frame after.1 = frame s
  holds_eq : ∀ a, a ≠ fact → Deductive.holds after.1 a = Deductive.holds s a
  count_eq : ∀ a, a ≠ fact → count after.1 a = count s a
  turned : after.2 = true →
    Deductive.holds s fact = !direction.sense ∧ Deductive.holds after.1 fact = direction.sense
  stayed : after.2 = false → Deductive.holds after.1 fact = Deductive.holds s fact

/-- What a store has to keep so that the engine's work comes out right. -/
structure Contract {σ φ δ γ : Type} [Deductive σ φ] (c : Calculus σ φ δ) (count : σ → φ → ℕ)
    (Sound : σ → Prop) (frame : σ → γ) (conceivable : γ → List φ) : Prop where
  kind_conclusion : ∀ (s : σ) (d : δ), Sound s → Deductive.kind s (c.conclusion d) = .deduction
  /-- The derivations and the kinds of facts depend on the frame alone. -/
  framed : ∀ s t : σ, frame s = frame t → c.Applies s = c.Applies t ∧
    c.antecedents s = c.antecedents t ∧ ∀ fact, Deductive.kind s fact = Deductive.kind t fact
  holds_iff : ∀ (s : σ) (fact : φ), Sound s → Deductive.kind s fact = .deduction →
    (Deductive.holds s fact = true ↔ 0 < count s fact)
  lists : ∀ (s : σ) (fact : φ), Sound s →
    Lists c.conclusion (Deductive.consequences s fact) (c.through s fact)
  justify : ∀ (s : σ) (fact : φ), Sound s → Deductive.kind s fact = .deduction →
    (c.support s fact).Nonempty →
      Sound (Deductive.justify s fact).1 ∧
      Shift count frame .justify s fact (Deductive.justify s fact) ∧
      count (Deductive.justify s fact).1 fact = count s fact + 1
  unjustify : ∀ (s : σ) (fact : φ), Sound s → Deductive.kind s fact = .deduction → 0 < count s fact →
      Sound (Deductive.unjustify s fact).1 ∧
      Shift count frame .unjustify s fact (Deductive.unjustify s fact) ∧
      count (Deductive.unjustify s fact).1 fact + 1 = count s fact
  /-- Only so many deductions can hold at all. -/
  conceived : ∀ (s : σ) (fact : φ), Sound s → Deductive.kind s fact = .deduction →
    Deductive.holds s fact = true → fact ∈ conceivable (frame s)
  length_lt : ∀ s : σ, Sound s → (conceivable (frame s)).length < Deductive.bound s

namespace Contract

open Calculus

variable {σ φ δ γ : Type} [Deductive σ φ] [DecidableEq φ] {c : Calculus σ φ δ}
variable {count : σ → φ → ℕ} {Sound : σ → Prop} {frame : σ → γ} {conceivable : γ → List φ}
variable {direction : Direction} {s : σ} {fact : φ} {waiting : List φ}

/-- What a run leaves as it is: the frame and the observations. -/
def Kept (frame : σ → γ) (s t : σ) : Prop :=
  frame t = frame s ∧
    ∀ a, Deductive.kind s a ≠ .deduction → Deductive.holds t a = Deductive.holds s a

omit [DecidableEq φ] in
theorem kept_of_shift {after : σ × Bool} (hshift : Shift count frame direction s fact after)
    (hkind : Deductive.kind s fact = .deduction) : Kept frame s after.1 := by
  refine ⟨hshift.frame_eq, fun a ha => hshift.holds_eq a ?_⟩
  rintro rfl
  exact ha hkind

/-- How many deductions can still turn in a direction. -/
def room (frame : σ → γ) (conceivable : γ → List φ) (direction : Direction) (s : σ) : ℕ :=
  (conceivable (frame s)).countP fun fact => Deductive.holds s fact == !direction.sense

omit [DecidableEq φ] in
theorem turns_of_shift {after : σ × Bool} (hshift : Shift count frame direction s fact after)
    (a : φ) (ha : (Deductive.holds after.1 a == !direction.sense) = true) :
    (Deductive.holds s a == !direction.sense) = true := by
  by_cases hfact : a = fact
  · subst hfact
    cases hflag : after.2 with
    | true => rw [(hshift.turned hflag).1, beq_self_eq_true]
    | false => rwa [← hshift.stayed hflag]
  · rwa [← hshift.holds_eq a hfact]

omit [DecidableEq φ] in
theorem room_le {after : σ × Bool} (hshift : Shift count frame direction s fact after) :
    room frame conceivable direction after.1 ≤ room frame conceivable direction s := by
  rw [room, room, hshift.frame_eq]
  exact List.countP_mono_left fun a _ => turns_of_shift hshift a

omit [DecidableEq φ] in
/-- A fact that turns takes up room. -/
theorem room_lt {after : σ × Bool} (hshift : Shift count frame direction s fact after)
    (hmem : fact ∈ conceivable (frame s)) (hflag : after.2 = true) :
    room frame conceivable direction after.1 < room frame conceivable direction s := by
  obtain ⟨hbefore, hafter⟩ := hshift.turned hflag
  rw [room, room, hshift.frame_eq]
  obtain ⟨xs, ys, hsplit⟩ := List.append_of_mem hmem
  rw [hsplit, List.countP_append, List.countP_append, List.countP_cons_of_neg,
    List.countP_cons_of_pos]
  · have hxs := List.countP_mono_left (l := xs) fun a _ => turns_of_shift hshift a
    have hys := List.countP_mono_left (l := ys) fun a _ => turns_of_shift hshift a
    omega
  · rw [hbefore, beq_self_eq_true]
  · rw [hafter]
    cases direction.sense <;> simp

variable (h : Contract c count Sound frame conceivable)
include h

omit [DecidableEq φ] in
theorem kept_trans {s t u : σ} (hst : Kept frame s t) (htu : Kept frame t u) : Kept frame s u := by
  refine ⟨htu.1.trans hst.1, fun a ha => ?_⟩
  rw [htu.2 a ((h.framed _ _ hst.1).2.2 a ▸ ha), hst.2 a ha]

omit [DecidableEq φ] in
theorem agreeBut {after : σ × Bool} (hshift : Shift count frame direction s fact after) :
    c.AgreeBut s after.1 fact := by
  obtain ⟨happlies, hantecedents, -⟩ := h.framed _ _ hshift.frame_eq
  exact ⟨happlies.symm, hantecedents.symm, fun a ha => (hshift.holds_eq a ha).symm⟩

/-- What a change of truth adds to the derivations of each fact, or takes away from them, is what the
consequences list. -/
theorem moves_support {after : σ × Bool} (hshift : Shift count frame direction s fact after)
    (hsound : Sound after.1) (hflag : after.2 = true) (g : φ) :
    direction.Moves (c.support s g).encard (c.support after.1 g).encard
      ((Deductive.consequences after.1 fact).count g) := by
  have hagree := h.agreeBut hshift
  have hlists := (h.lists after.1 fact hsound).encard_eq g
  obtain ⟨hbefore, hafter⟩ := hshift.turned hflag
  cases direction with
  | justify =>
    change _ = _ + _
    rw [← hlists, hagree.encard_support hbefore hafter g]
  | unjustify =>
    change _ = _ + _
    rw [← hlists, hagree.symm.encard_support hafter hbefore g, hagree.through_eq]

/-- What a deduction that waits changes when its turn comes. -/
theorem change_spec (hsound : Sound s) (hkind : Deductive.kind s fact = .deduction)
    (hbalanced : c.Balanced count direction s (fact :: waiting)) :
    Sound (Engine.change direction s fact).1 ∧
      Shift count frame direction s fact (Engine.change direction s fact) ∧
      direction.Moves (count s fact) (count (Engine.change direction s fact).1 fact) 1 := by
  have hfact := hbalanced fact hkind
  rw [List.count_cons_self] at hfact
  cases direction with
  | justify =>
    obtain ⟨hsound', hshift, hcount⟩ := h.justify s fact hsound hkind <| by
      rw [← Set.encard_ne_zero, hfact.eq_add_of_justify]
      exact_mod_cast (Nat.succ_pos (count s fact + waiting.count fact)).ne'
    refine ⟨hsound', hshift, ?_⟩
    change ((count (Deductive.justify s fact).1 fact : ℕ) : ℕ∞) = count s fact + (1 : ℕ)
    exact_mod_cast hcount
  | unjustify =>
    have hle : ((1 : ℕ) : ℕ∞) ≤ (count s fact : ℕ∞) := by
      rw [hfact.eq_add_of_unjustify]
      exact le_add_left (by exact_mod_cast Nat.succ_pos _)
    obtain ⟨hsound', hshift, hcount⟩ := h.unjustify s fact hsound hkind (by exact_mod_cast hle)
    refine ⟨hsound', hshift, ?_⟩
    change (count s fact : ℕ∞) = (count (Deductive.unjustify s fact).1 fact : ℕ) + (1 : ℕ)
    exact_mod_cast hcount.symm

/-- The books stay balanced when a waiting deduction is changed. -/
theorem change_balanced (hsound : Sound s) (hkind : Deductive.kind s fact = .deduction)
    (hbalanced : c.Balanced count direction s (fact :: waiting)) :
    let after := Engine.change direction s fact
    c.Balanced count direction after.1
      ((if after.2 then Deductive.consequences after.1 fact else []) ++ waiting) := by
  intro after g hg
  obtain ⟨hsound', hshift, hcount⟩ := h.change_spec hsound hkind hbalanced
  have hmoves := hbalanced g ((h.framed _ _ hshift.frame_eq).2.2 g ▸ hg)
  have hsupport : direction.Moves (c.support s g).encard (c.support after.1 g).encard
      ((if after.2 then Deductive.consequences after.1 fact else []).count g) := by
    cases hflag : after.2 with
    | true => exact h.moves_support hshift hsound' hflag g
    | false =>
      rw [(h.agreeBut hshift).support_eq (hshift.stayed hflag).symm g]
      exact Direction.moves_zero.2 rfl
  rw [List.count_append, add_comm]
  by_cases heq : g = fact
  · subst heq
    rw [List.count_cons_self] at hmoves
    exact (hmoves.advance hcount).trans hsupport
  · rw [List.count_cons_of_ne (Ne.symm heq)] at hmoves
    rw [hshift.count_eq g heq]
    exact hmoves.trans hsupport

omit [DecidableEq φ] in
/-- Deductions that turn hold before or after. -/
theorem mem_conceivable {after : σ × Bool} (hsound : Sound s)
    (hkind : Deductive.kind s fact = .deduction)
    (hshift : Shift count frame direction s fact after) (hsound' : Sound after.1)
    (hflag : after.2 = true) : fact ∈ conceivable (frame s) := by
  obtain ⟨hbefore, hafter⟩ := hshift.turned hflag
  cases direction with
  | justify =>
    rw [← hshift.frame_eq]
    exact h.conceived after.1 fact hsound' ((h.framed _ _ hshift.frame_eq).2.2 fact ▸ hkind) hafter
  | unjustify => exact h.conceived s fact hsound hkind hbefore

/-- Taking waiting facts until one changes its truth. -/
theorem settle_spec (engine : Engine) (hsound : Sound s)
    (hkinds : ∀ a ∈ waiting, Deductive.kind s a = .deduction)
    (hbalanced : c.Balanced count direction s waiting) :
    ∃ engine' s' next, Engine.settle direction engine s waiting = (engine', s', next) ∧
      Sound s' ∧ Kept frame s s' ∧
      match next with
      | none => c.Settled count s'
      | some (turned, rest) =>
        (∀ a ∈ rest, Deductive.kind s' a = .deduction) ∧ room frame conceivable direction s' < room frame conceivable direction s ∧
          c.Balanced count direction s' (Deductive.consequences s' turned ++ rest) := by
  induction waiting generalizing engine s with
  | nil =>
    exact ⟨engine, s, none, rfl, hsound, ⟨rfl, fun _ _ => rfl⟩, (c.balanced_nil count).1 hbalanced⟩
  | cons fact waiting ih =>
    have hkind := hkinds fact List.mem_cons_self
    obtain ⟨hsound', hshift, -⟩ := h.change_spec hsound hkind hbalanced
    have hbalanced' := h.change_balanced hsound hkind hbalanced
    have hkept := kept_of_shift hshift hkind
    have hroom := fun hflag =>
      room_lt hshift (h.mem_conceivable hsound hkind hshift hsound' hflag) hflag
    have hrest : ∀ a ∈ waiting,
        Deductive.kind (Engine.change direction s fact).1 a = .deduction := by
      intro a ha
      rw [(h.framed _ _ hshift.frame_eq).2.2 a]
      exact hkinds a (List.mem_cons_of_mem _ ha)
    rw [Engine.settle]
    cases hchange : Engine.change direction s fact with
    | mk s' flag =>
      rw [hchange] at hsound' hshift hbalanced' hkept hrest hroom
      cases flag with
      | true => exact ⟨_, s', _, rfl, hsound', hkept, hrest, hroom rfl, hbalanced'⟩
      | false =>
        obtain ⟨engine', s'', next, heq, hsound'', hkept', hnext⟩ :=
          ih (engine.record (·.addStep direction)) hsound' hrest hbalanced'
        refine ⟨engine', s'', next, heq, hsound'', h.kept_trans hkept hkept', ?_⟩
        cases next with
        | none => exact hnext
        | some next =>
          obtain ⟨hkinds', hlt, hbalanced''⟩ := hnext
          exact ⟨hkinds', lt_of_lt_of_le hlt (room_le hshift), hbalanced''⟩

/-- A run that has room to spare ends with nothing waiting, and all deductions counted. -/
theorem run_spec {budget : ℕ} (engine : Engine) (hsound : Sound s)
    (hkinds : ∀ a ∈ waiting, Deductive.kind s a = .deduction)
    (hbalanced : c.Balanced count direction s waiting) (hroom : room frame conceivable direction s < budget) :
    ∃ engine' s', Engine.run direction budget engine s waiting = (engine', s', []) ∧
      Sound s' ∧ Kept frame s s' ∧ c.Settled count s' := by
  induction budget generalizing engine s waiting with
  | zero => exact absurd hroom (Nat.not_lt_zero _)
  | succ budget ih =>
    obtain ⟨engine', s', next, heq, hsound', hkept, hnext⟩ :=
      h.settle_spec engine hsound hkinds hbalanced
    rw [Engine.run, heq]
    cases next with
    | none => exact ⟨engine', s', rfl, hsound', hkept, hnext⟩
    | some next =>
      obtain ⟨turned, rest⟩ := next
      obtain ⟨hkinds', hlt, hbalanced'⟩ := hnext
      have hall : ∀ a ∈ Deductive.consequences s' turned ++ rest,
          Deductive.kind s' a = .deduction := by
        intro a ha
        rcases List.mem_append.1 ha with ha | ha
        · obtain ⟨d, -, rfl⟩ := (h.lists s' turned hsound').mem_facts ha
          exact h.kind_conclusion s' d hsound'
        · exact hkinds' a ha
      obtain ⟨engine'', s'', heq', hsound'', hkept', hsettled⟩ :=
        ih (engine'.record (·.addTransition (Deductive.consequences s' turned).length)) hsound'
          hall hbalanced' (by omega)
      exact ⟨engine'', s'', heq', hsound'', h.kept_trans hkept hkept', hsettled⟩

/-- The books are balanced when an observation has been changed. -/
theorem observation_balanced (hsettled : c.Settled count s)
    (hkind : Deductive.kind s fact ≠ .deduction)
    (hshift : Shift count frame direction s fact (Engine.change direction s fact))
    (hsound' : Sound (Engine.change direction s fact).1) :
    let after := Engine.change direction s fact
    c.Balanced count direction after.1
      (if after.2 then Deductive.consequences after.1 fact else []) := by
  intro after g hg
  have hkinds := (h.framed _ _ hshift.frame_eq).2.2
  have hcount : count after.1 g = count s g := by
    refine hshift.count_eq g ?_
    rintro rfl
    exact hkind (hkinds g ▸ hg)
  have hbefore := hsettled g (hkinds g ▸ hg)
  cases hflag : after.2 with
  | true =>
    have hmoves := h.moves_support hshift hsound' hflag g
    rwa [hbefore, ← hcount] at hmoves
  | false =>
    rw [hcount, ← hbefore, (h.agreeBut hshift).support_eq (hshift.stayed hflag).symm]
    exact Direction.moves_zero.2 rfl

/-- A run that begins with an observation ends with nothing waiting. -/
theorem run_observation (engine : Engine) (hsound : Sound s) (hsettled : c.Settled count s)
    (hkind : Deductive.kind s fact ≠ .deduction)
    (hshift : Shift count frame direction s fact (Engine.change direction s fact))
    (hsound' : Sound (Engine.change direction s fact).1) :
    ∃ engine' s', Engine.run direction (Deductive.bound s + 1) engine s [fact] = (engine', s', []) ∧
      Sound s' ∧ Kept frame (Engine.change direction s fact).1 s' ∧ c.Settled count s' := by
  obtain ⟨engine₁, hsettle⟩ : ∃ engine₁, engine.record (·.addStep direction) = engine₁ := ⟨_, rfl⟩
  have hbalanced := h.observation_balanced hsettled hkind hshift hsound'
  rw [Engine.run, Engine.settle, hsettle]
  cases hchange : Engine.change direction s fact with
  | mk s₁ flag =>
    rw [hchange] at hshift hsound' hbalanced
    cases flag with
    | false =>
      exact ⟨engine₁, s₁, rfl, hsound', ⟨rfl, fun _ _ => rfl⟩, (c.balanced_nil count).1 hbalanced⟩
    | true =>
      have hall : ∀ a ∈ Deductive.consequences s₁ fact, Deductive.kind s₁ a = .deduction := by
        intro a ha
        obtain ⟨d, -, rfl⟩ := (h.lists s₁ fact hsound').mem_facts ha
        exact h.kind_conclusion s₁ d hsound'
      obtain ⟨engine₂, s₂, hrun, hsound₂, hkept, hsettled₂⟩ :=
        h.run_spec (engine₁.record (·.addTransition (Deductive.consequences s₁ fact).length))
          hsound' hall hbalanced (lt_of_le_of_lt (room_le hshift) (lt_of_le_of_lt
            List.countP_le_length (h.length_lt s hsound)))
      simp only [List.append_nil, hrun]
      exact ⟨engine₂, s₂, rfl, hsound₂, hkept, hsettled₂⟩

/-- Changing an observation and all that depends on it. -/
theorem propagate_spec (engine : Engine) (hsound : Sound s) (hsettled : c.Settled count s)
    (hkind : Deductive.kind s fact ≠ .deduction)
    (hshift : Shift count frame direction s fact (Engine.change direction s fact))
    (hsound' : Sound (Engine.change direction s fact).1) :
    ∃ engine' s', Engine.propagate direction engine s fact = (engine', s') ∧ Sound s' ∧
      Kept frame (Engine.change direction s fact).1 s' ∧ c.Settled count s' := by
  obtain ⟨engine', s', hrun, hrest⟩ :=
    h.run_observation engine hsound hsettled hkind hshift hsound'
  exact ⟨engine', s', by rw [Engine.propagate, hrun], hrest⟩

omit [DecidableEq φ] in
/-- If antecedents come before what they let conclude, the deductions that hold are those that can
be derived. -/
theorem holds_iff_derivable {α : Type} {precedes : α → α → Prop} (hwf : WellFounded precedes)
    (rank : φ → α) (hsound : Sound s) (hsettled : c.Settled count s)
    (hrank : ∀ d, c.Holding s d → ∀ a ∈ c.antecedents s d, Deductive.kind s a = .deduction →
      precedes (rank a) (rank (c.conclusion d))) (fact : φ) :
    Deductive.holds s fact = true ↔ c.Derivable s fact := by
  constructor
  · intro hholds
    induction hr : rank fact using hwf.induction generalizing fact with
    | _ r ih =>
      subst hr
      by_cases hkind : Deductive.kind s fact = .deduction
      · have hpos := (h.holds_iff s fact hsound hkind).1 hholds
        have hne : (c.support s fact).encard ≠ 0 := by
          rw [hsettled fact hkind]
          exact_mod_cast hpos.ne'
        obtain ⟨d, rfl, happlies, hall⟩ := Set.encard_ne_zero.1 hne
        refine .derived happlies fun a ha => ?_
        by_cases hka : Deductive.kind s a = .deduction
        · exact ih _ (hrank d ⟨happlies, hall⟩ a ha hka) a (hall a ha) rfl
        · exact .observed hka (hall a ha)
      · exact .observed hkind hholds
  · intro hderivable
    induction hderivable with
    | observed _ hholds => exact hholds
    | @derived d happlies _ ih =>
      have hkind := h.kind_conclusion s d hsound
      rw [h.holds_iff s _ hsound hkind]
      have hne : (c.support s (c.conclusion d)).encard ≠ 0 :=
        Set.encard_ne_zero.2 ⟨d, rfl, happlies, ih⟩
      rw [hsettled _ hkind] at hne
      exact Nat.pos_of_ne_zero (by exact_mod_cast hne)

end Contract

end LiveProse
