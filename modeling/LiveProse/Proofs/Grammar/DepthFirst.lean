import LiveProse.Grammar.UnitCycle
import Mathlib.Algebra.GroupWithZero.Nat
import Mathlib.Data.List.Basic
import Mathlib.Logic.Relation
import Mathlib.Tactic.SplitIfs
import Mathlib.Tactic.Tauto

/-! The search for unit cycles, in any graph. The path is a chain of edges, and what does not wait at one
of its vertices is done or comes next on the path (`Frames`); so a vertex that is met again on the path
lies on a cycle. What is done is in an order that all edges go down (`Ordered`), so nothing that is done
lies on a cycle. Every step lowers a weight (`weight_step`), so with a budget above it the search ends of
itself. -/

namespace LiveProse.UnitCycle

open Relation

variable {successors : Word → List Word} {vertex next : Word} {pending done : List Word}
variable {stack : List (Word × List Word)} {above : Option Word} {search after : Search}

/-! ### Paths -/

/-- The frames of a path, seen from the vertex above them if there is one. Every vertex is a successor
of the one below; and where a vertex still waits for some of its successors, all others are done, but
for the one above. -/
inductive Frames (successors : Word → List Word) (done : List Word) :
    Option Word → List (Word × List Word) → Prop
  | nil {above : Option Word} : Frames successors done above []
  | cons {above : Option Word} {vertex : Word} {pending : List Word} {stack : List (Word × List Word)}
      (hlinked : ∀ next, above = some next → next ∈ successors vertex)
      (hpending : pending ⊆ successors vertex)
      (hfollowed : ∀ next ∈ successors vertex, next ∈ pending ∨ next ∈ done ∨ above = some next)
      (hbelow : Frames successors done (some vertex) stack) :
      Frames successors done above ((vertex, pending) :: stack)

namespace Frames

/-- From every vertex of the path there is a way to what is above it. -/
theorem reaches (h : Frames successors done (some next) stack) {first : Word}
    (hfirst : first ∈ stack.map (·.1)) : TransGen (fun a b => b ∈ successors a) first next := by
  induction stack generalizing next with
  | nil => cases hfirst
  | cons frame stack ih =>
    cases h with
    | cons hlinked _ _ hbelow =>
      have hedge := hlinked next rfl
      rcases List.mem_cons.1 hfirst with rfl | hfirst
      · exact .single hedge
      · exact (ih hbelow hfirst).tail hedge

theorem mono (h : Frames successors done above stack) {more : List Word} (hmore : done ⊆ more) :
    Frames successors more above stack := by
  induction h with
  | nil => exact .nil
  | cons hlinked hpending hfollowed _ ih =>
    refine .cons hlinked hpending (fun next hnext => ?_) ih
    exact (hfollowed next hnext).imp_right (Or.imp_left fun hdone => hmore hdone)

/-- What is done need not be above. -/
theorem lower (h : Frames successors done (some next) stack) (hdone : next ∈ done) :
    Frames successors done none stack := by
  cases h with
  | nil => exact .nil
  | cons hlinked hpending hfollowed hbelow =>
    refine .cons nofun hpending (fun other hother => ?_) hbelow
    rcases hfollowed other hother with hwaits | hother | habove
    · exact .inl hwaits
    · exact .inr (.inl hother)
    · exact .inr (.inl (Option.some.inj habove ▸ hdone))

/-- An edge is followed to the vertex above. -/
theorem follow (h : Frames successors done none ((vertex, next :: pending) :: stack)) :
    Frames successors done (some next) ((vertex, pending) :: stack) := by
  cases h with
  | cons _ hpending hfollowed hbelow =>
    obtain ⟨hnext, hpending⟩ := List.cons_subset.1 hpending
    refine .cons (fun other habove => Option.some.inj habove ▸ hnext) hpending (fun other hother => ?_)
      hbelow
    rcases hfollowed other hother with hwaits | hdone | habove
    · rcases List.mem_cons.1 hwaits with rfl | hwaits
      · exact .inr (.inr rfl)
      · exact .inl hwaits
    · exact .inr (.inl hdone)
    · cases habove

/-- A vertex that waits for nothing has no successors but those that are done. -/
theorem successors_done (h : Frames successors done none ((vertex, []) :: stack)) :
    ∀ next ∈ successors vertex, next ∈ done := by
  intro next hnext
  cases h with
  | cons _ _ hfollowed _ =>
    rcases hfollowed next hnext with hwaits | hdone | habove
    · cases hwaits
    · exact hdone
    · cases habove

theorem tail (h : Frames successors done above ((vertex, pending) :: stack)) :
    Frames successors done (some vertex) stack := by
  cases h with
  | cons _ _ _ hbelow => exact hbelow

end Frames

/-! ### What is done -/

/-- Vertices in the order in which they were left, the last one first: the successors of each are
behind it. -/
inductive Ordered (successors : Word → List Word) : List Word → Prop
  | nil : Ordered successors []
  | cons {vertex : Word} {done : List Word} : Ordered successors done →
      (∀ next ∈ successors vertex, next ∈ done) → Ordered successors (vertex :: done)

theorem Ordered.mem_of_edge (h : Ordered successors done) (hvertex : vertex ∈ done)
    (hnext : next ∈ successors vertex) : next ∈ done := by
  induction h with
  | nil => cases hvertex
  | cons _ hhead ih =>
    rcases List.mem_cons.1 hvertex with rfl | hvertex
    · exact List.mem_cons_of_mem _ (hhead next hnext)
    · exact List.mem_cons_of_mem _ (ih hvertex)

/-- The successors of a vertex were done before it. -/
theorem Ordered.idxOf_lt (h : Ordered successors done) (hvertex : vertex ∈ done)
    (hnext : next ∈ successors vertex) : done.reverse.idxOf next < done.reverse.idxOf vertex := by
  induction h with
  | nil => cases hvertex
  | @cons head done hdone hhead ih =>
    rw [List.reverse_cons]
    by_cases hin : vertex ∈ done
    · have hlt := ih hin
      have hmem : next ∈ done.reverse := List.mem_reverse.2 (hdone.mem_of_edge hin hnext)
      rwa [List.idxOf_append_of_mem hmem, List.idxOf_append_of_mem (List.mem_reverse.2 hin)]
    · obtain rfl := (List.mem_cons.1 hvertex).resolve_right hin
      have hmem := List.mem_reverse.2 (hhead next hnext)
      rw [List.idxOf_append_of_mem hmem,
        List.idxOf_append_of_notMem (fun hmem => hin (List.mem_reverse.1 hmem))]
      have := List.idxOf_lt_length_iff.2 hmem
      omega

/-- Nothing that is done lies on a cycle. -/
theorem Ordered.not_transGen (h : Ordered successors done) (hvertex : vertex ∈ done) :
    ¬TransGen (fun a b => b ∈ successors a) vertex vertex := by
  have hlt {other : Word} (hway : TransGen (fun a b => b ∈ successors a) vertex other) :
      other ∈ done ∧ done.reverse.idxOf other < done.reverse.idxOf vertex := by
    induction hway with
    | single hedge => exact ⟨h.mem_of_edge hvertex hedge, h.idxOf_lt hvertex hedge⟩
    | tail _ hedge ih =>
      exact ⟨h.mem_of_edge ih.1 hedge, Nat.lt_trans (h.idxOf_lt ih.1 hedge) ih.2⟩
  exact fun hcycle => Nat.lt_irrefl _ (hlt hcycle).2

/-- Where every vertex with an edge is done there are no cycles. -/
theorem Ordered.acyclic (h : Ordered successors done)
    (hall : ∀ a b, b ∈ successors a → a ∈ done) {name : Word} :
    ¬TransGen (fun a b => b ∈ successors a) name name := by
  intro hcycle
  obtain ⟨next, hedge, -⟩ := TransGen.head'_iff.1 hcycle
  exact h.not_transGen (hall _ _ hedge) hcycle

/-! ### Steps -/

/-- What holds of a search under way. -/
structure Search.Sound (successors : Word → List Word) (search : Search) : Prop where
  path : search.path = search.stack.map (·.1)
  frames : Frames successors search.done none search.stack
  ordered : Ordered successors search.done

theorem sound_enter (hpath : search.path = search.stack.map (·.1))
    (hframes : Frames successors search.done (some vertex) search.stack)
    (hordered : Ordered successors search.done) : (search.enter successors vertex).Sound successors := by
  refine ⟨?_, .cons nofun (List.Subset.refl _) (fun next hnext => .inl hnext) hframes, hordered⟩
  rw [Search.enter, hpath]
  rfl

/-- What a step of a search can do: it leaves a vertex whose successors are all done, or it follows an
edge, to a vertex of the path, to one that is done or to a new one. -/
inductive Search.Steps (successors : Word → List Word) (search : Search) : Except Stop Search → Prop
  | leaves {vertex : Word} {stack : List (Word × List Word)} (hstack : search.stack = (vertex, []) :: stack) :
      Steps successors search
        (.ok { stack, path := search.path.erase vertex, done := vertex :: search.done })
  | meets {vertex next : Word} {pending : List Word} {stack : List (Word × List Word)}
      (hstack : search.stack = (vertex, next :: pending) :: stack) (hpath : next ∈ search.path) :
      Steps successors search (.error (.cycle next))
  | passes {vertex next : Word} {pending : List Word} {stack : List (Word × List Word)}
      (hstack : search.stack = (vertex, next :: pending) :: stack) (hdone : next ∈ search.done) :
      Steps successors search (.ok { search with stack := (vertex, pending) :: stack })
  | enters {vertex next : Word} {pending : List Word} {stack : List (Word × List Word)}
      (hstack : search.stack = (vertex, next :: pending) :: stack) (hpath : next ∉ search.path)
      (hdone : next ∉ search.done) :
      Steps successors search
        (.ok ({ search with stack := (vertex, pending) :: stack }.enter successors next))

theorem steps_step (hstack : search.stack ≠ []) :
    search.Steps successors (search.step successors) := by
  unfold Search.step
  split
  · rename_i hnil
    exact absurd hnil hstack
  · rename_i hleaves
    exact .leaves hleaves
  · rename_i hfollows
    dsimp only
    split_ifs with hpath hdone
    · exact .meets hfollows (List.contains_iff_mem.1 hpath)
    · exact .passes hfollows (List.contains_iff_mem.1 hdone)
    · exact .enters hfollows (fun hmem => hpath (List.contains_iff_mem.2 hmem))
        fun hmem => hdone (List.contains_iff_mem.2 hmem)

/-- A step keeps a search sound, and loses no vertex that it found. -/
theorem Search.Steps.sound (h : search.Steps successors (.ok after)) (hsound : search.Sound successors) :
    after.Sound successors ∧ ∀ vertex, vertex ∈ search.path ∨ vertex ∈ search.done →
      vertex ∈ after.path ∨ vertex ∈ after.done := by
  obtain ⟨hpath, hframes, hordered⟩ := hsound
  cases h with
  | @leaves vertex stack hstack =>
    rw [hstack] at hpath hframes
    have herase : search.path.erase vertex = stack.map (·.1) := by
      rw [hpath, List.map_cons, List.erase_cons_head]
    refine ⟨⟨herase, (hframes.tail.mono (List.subset_cons_self _ _)).lower List.mem_cons_self,
      .cons hordered hframes.successors_done⟩, fun other hother => ?_⟩
    rw [hpath, List.map_cons, List.mem_cons] at hother
    dsimp only
    rw [herase, List.mem_cons]
    tauto
  | @passes vertex next pending stack hstack hdone =>
    rw [hstack] at hpath hframes
    exact ⟨⟨hpath, hframes.follow.lower hdone, hordered⟩, fun _ => id⟩
  | @enters vertex next pending stack hstack =>
    rw [hstack] at hpath hframes
    have hentered : ({ search with stack := (vertex, pending) :: stack }.enter successors next).Sound
        successors := sound_enter hpath hframes.follow hordered
    refine ⟨hentered, fun other hother => ?_⟩
    exact hother.imp_left (List.mem_cons_of_mem _)

/-- A vertex that is met again lies on a cycle. -/
theorem Search.Steps.cycle {stop : Stop} (h : search.Steps successors (.error stop))
    (hsound : search.Sound successors) :
    ∃ name, stop = .cycle name ∧ TransGen (fun a b => b ∈ successors a) name name := by
  cases h with
  | @meets vertex next pending stack hstack hnext =>
    refine ⟨next, rfl, ?_⟩
    have hframes := hsound.frames
    rw [hsound.path, hstack] at hnext
    rw [hstack] at hframes
    exact hframes.follow.reaches hnext

/-! ### The number of steps -/

variable {edges : PairIndex Word Word}

/-- The edges that lead from neither a vertex of the path nor one that is done. -/
def Search.unseen (edges : PairIndex Word Word) (search : Search) : List (Word × Word) :=
  edges.pairs.filter fun edge => !search.path.contains edge.1 && !search.done.contains edge.1

/-- An upper bound of the steps to come: each edge is followed once, and each vertex that is entered is
left once. -/
def Search.weight (edges : PairIndex Word Word) (search : Search) : ℕ :=
  3 * (search.unseen edges).length + (search.stack.map fun frame => 2 * frame.2.length + 1).sum

/-- Where a vertex is entered, all edges from it are seen. -/
theorem length_unseen_enter (successors : Word → List Word) (edges : PairIndex Word Word)
    (hpath : vertex ∉ search.path) (hdone : vertex ∉ search.done) :
    (search.unseen edges).length =
      ((search.enter successors vertex).unseen edges).length + (edges.get vertex).length := by
  unfold Search.unseen Search.enter PairIndex.get
  dsimp only
  induction edges.pairs with
  | nil => rfl
  | cons edge pairs ih =>
    rw [List.filter_cons, List.filter_cons, List.filterMap_cons, List.contains_cons]
    by_cases hsource : edge.1 = vertex
    · simp only [hsource, BEq.rfl, Bool.true_or, Bool.not_true, Bool.false_eq_true,
        if_false, if_true, List.length_cons, hpath, hdone, List.contains_eq_mem, decide_false,
        Bool.not_false, Bool.and_true]
      simp only [List.contains_eq_mem] at ih
      omega
    · have hne : (edge.1 == vertex) = false := by simpa using hsource
      simp only [hne, Bool.false_or, hsource, if_false]
      split_ifs
      · rw [List.length_cons, List.length_cons, ih]
        omega
      · exact ih

theorem weight_enter_le (search : Search) (hcount : (successors vertex).length ≤ (edges.get vertex).length)
    (hpath : vertex ∉ search.path) (hdone : vertex ∉ search.done) :
    (search.enter successors vertex).weight edges ≤ search.weight edges + 1 := by
  have hlength := length_unseen_enter successors edges hpath hdone
  simp only [Search.weight, hlength]
  simp only [Search.enter, List.map_cons, List.sum_cons]
  omega

theorem Search.Steps.weight_lt (h : search.Steps successors (.ok after)) (hsound : search.Sound successors)
    (hcount : ∀ vertex, (successors vertex).length ≤ (edges.get vertex).length) :
    after.weight edges < search.weight edges := by
  cases h with
  | @leaves vertex stack hstack =>
    have hunseen : Search.unseen edges
        { stack, path := search.path.erase vertex, done := vertex :: search.done } =
          search.unseen edges := by
      refine List.filter_congr fun edge _ => ?_
      have hpath := hsound.path
      rw [hstack, List.map_cons] at hpath
      dsimp only
      rw [hpath, List.erase_cons_head, List.contains_cons, List.contains_cons]
      cases edge.1 == vertex <;> simp
    simp only [Search.weight, hunseen]
    simp only [hstack, List.map_cons, List.sum_cons, List.length_nil]
    omega
  | @passes vertex next pending stack hstack =>
    simp only [Search.weight, Search.unseen, hstack, List.map_cons, List.sum_cons, List.length_cons]
    omega
  | @enters vertex next pending stack hstack hpath hdone =>
    have hle := weight_enter_le { search with stack := (vertex, pending) :: stack } (hcount next) hpath hdone
    refine Nat.lt_of_le_of_lt hle ?_
    simp only [Search.weight, Search.unseen, hstack, List.map_cons, List.sum_cons, List.length_cons]
    omega

/-! ### Runs -/

/-- What a search can come to: it ends with an empty path and some vertices done, or it finds a cycle.
It does not run out of steps. -/
inductive Ends (successors : Word → List Word) (vertices : List Word) : Except Stop Search → Prop
  | finished {search : Search} (hsound : search.Sound successors) (hstack : search.stack = [])
      (hdone : vertices ⊆ search.done) : Ends successors vertices (.ok search)
  | cycle {name : Word} (hcycle : TransGen (fun a b => b ∈ successors a) name name) :
      Ends successors vertices (.error (.cycle name))

theorem ends_run (hcount : ∀ vertex, (successors vertex).length ≤ (edges.get vertex).length)
    {budget : ℕ} (hsound : search.Sound successors) (hbudget : search.weight edges < budget) :
    Ends successors (search.path ++ search.done) (search.run successors budget) := by
  induction budget generalizing search with
  | zero => omega
  | succ budget ih =>
    rw [Search.run]
    split_ifs with hempty
    · have hnil := List.isEmpty_iff.1 hempty
      refine .finished hsound hnil ?_
      rw [hsound.path, hnil]
      exact List.Subset.refl _
    · have hsteps : search.Steps successors (search.step successors) :=
        steps_step fun hnil => hempty (List.isEmpty_iff.2 hnil)
      generalize search.step successors = answer at hsteps
      cases answer with
      | error stop =>
        obtain ⟨name, rfl, hcycle⟩ := hsteps.cycle hsound
        exact .cycle hcycle
      | ok after =>
        obtain ⟨hafter, hkept⟩ := hsteps.sound hsound
        have hlt := hsteps.weight_lt hsound hcount
        change Ends successors _ (after.run successors budget)
        have hends := ih hafter (by omega)
        generalize after.run successors budget = answer at hends
        cases hends with
        | finished hlast hstack hdone =>
          refine .finished hlast hstack fun vertex hvertex => hdone ?_
          exact List.mem_append.2 (hkept vertex (List.mem_append.1 hvertex))
        | cycle hcycle => exact .cycle hcycle

theorem ends_visit (hcount : ∀ vertex, (successors vertex).length ≤ (edges.get vertex).length)
    (hsound : search.Sound successors) (hstack : search.stack = []) (root : Word) :
    Ends successors (root :: search.done) (search.visit successors (3 * edges.size + 2) root) := by
  have hpath : search.path = [] := by
    rw [hsound.path, hstack]
    rfl
  unfold Search.visit
  split_ifs with hdone
  · exact .finished hsound hstack
      (List.cons_subset.2 ⟨List.contains_iff_mem.1 hdone, List.Subset.refl _⟩)
  · have hnot : root ∉ search.done := fun hmem => hdone (List.contains_iff_mem.2 hmem)
    have hweight : search.weight edges ≤ 3 * edges.size := by
      have := List.length_filter_le
        (fun edge : Word × Word => !search.path.contains edge.1 && !search.done.contains edge.1) edges.pairs
      simp only [Search.weight, Search.unseen, hstack, List.map_nil, List.sum_nil, PairIndex.size]
      omega
    have henter := weight_enter_le search (hcount root) (hpath ▸ List.not_mem_nil) hnot
    have hframes : Frames successors search.done (some root) search.stack := hstack ▸ .nil
    have hbudget : (search.enter successors root).weight edges < 3 * edges.size + 2 := by omega
    have hends := ends_run hcount (sound_enter hsound.path hframes hsound.ordered) hbudget
    rw [Search.enter, hpath] at hends
    rw [Search.enter, hpath]
    exact hends

/-- All that is followed from some roots ends, with the roots done or with a cycle. -/
theorem ends_explore (hcount : ∀ vertex, (successors vertex).length ≤ (edges.get vertex).length)
    (roots : List Word) : Ends successors roots (explore successors (3 * edges.size + 2) roots) := by
  have hfold (search : Search) (hsound : search.Sound successors) (hstack : search.stack = []) :
      Ends successors (roots ++ search.done)
        (roots.foldlM (Search.visit successors (3 * edges.size + 2)) search) := by
    induction roots generalizing search with
    | nil => exact .finished hsound hstack (List.Subset.refl _)
    | cons root roots ih =>
      rw [List.foldlM_cons]
      have hfirst := ends_visit hcount hsound hstack root
      generalize search.visit successors (3 * edges.size + 2) root = answer at hfirst
      cases hfirst with
      | cycle hcycle => exact .cycle hcycle
      | @finished middle hmiddle hempty hdone =>
        change Ends successors _ (roots.foldlM (Search.visit successors (3 * edges.size + 2)) middle)
        have hrest := ih middle hmiddle hempty
        generalize roots.foldlM (Search.visit successors (3 * edges.size + 2)) middle = answer at hrest
        cases hrest with
        | cycle hcycle => exact .cycle hcycle
        | finished hlast hnil hall =>
          refine .finished hlast hnil fun vertex hvertex => hall ?_
          rw [List.cons_append, List.mem_cons, List.mem_append] at hvertex
          rw [List.mem_append]
          rcases hvertex with rfl | hvertex | hvertex
          · exact .inr (hdone List.mem_cons_self)
          · exact .inl hvertex
          · exact .inr (hdone (List.mem_cons_of_mem _ hvertex))
  have hends := hfold {} ⟨rfl, .nil, .nil⟩ rfl
  rwa [List.append_nil] at hends

end LiveProse.UnitCycle
