import LiveProse.Proofs.Grammar.Histories
import Mathlib.Data.List.Chain

/-! Which name is reported for a unit cycle depends on the order in which the edges are listed: the search
takes its roots in the order of their words, but the successors of a vertex as they come. Whatever the order,
the path that comes back into itself starts at the first vertex from which there is a way into a cycle, and
has no vertex twice (`ComesBack`). Where the vertices of such a path list the next one first, the search goes
along it (`run_of_leads`); so each name at which one closes is reported in some order. -/

namespace LiveProse

namespace UnitCycle

open Relation

/-! ### Orders -/

/-- An order in which the keys of an index, and the values under each of them, may be listed. -/
structure EdgeOrder (edges : PairIndex Word Word) where
  keys : List Word
  get : Word → List Word
  keys_perm : keys.Perm edges.keys
  get_perm : ∀ key, (get key).Perm (edges.get key)

namespace EdgeOrder

variable {edges : PairIndex Word Word}

/-- The order in which the index itself lists what is in it. -/
def own (edges : PairIndex Word Word) : EdgeOrder edges where
  keys := edges.keys
  get := edges.get
  keys_perm := .refl _
  get_perm _ := .refl _

/-- The order in which one value of each key is preferred to the others. -/
def preferring (edges : PairIndex Word Word) (preferred : Word → Word) : EdgeOrder edges where
  keys := edges.keys
  get key :=
    if preferred key ∈ edges.get key then preferred key :: (edges.get key).erase (preferred key)
    else edges.get key
  keys_perm := .refl _
  get_perm key := by
    split_ifs with hmem
    · exact (List.perm_cons_erase hmem).symm
    · exact .refl _

/-- The roots of the search. -/
def roots (order : EdgeOrder edges) : List Word :=
  order.keys.mergeSort fun a b => a.index ≤ b.index

/-- Follows all edges as they are listed. -/
def explore (order : EdgeOrder edges) : Except Stop Search :=
  UnitCycle.explore order.get (3 * edges.size + 2) order.roots

/-- The name that is found when the edges are listed so. -/
def find? (order : EdgeOrder edges) : Option Word :=
  match order.explore with
  | .error (.cycle name) => some name
  | .error .exhausted | .ok _ => none

theorem mem_get (order : EdgeOrder edges) {vertex next : Word} :
    next ∈ order.get vertex ↔ next ∈ edges.get vertex :=
  (order.get_perm vertex).mem_iff

theorem length_get_le (order : EdgeOrder edges) (vertex : Word) :
    (order.get vertex).length ≤ (edges.get vertex).length :=
  (order.get_perm vertex).length_eq.le

theorem mem_roots_of_edge (order : EdgeOrder edges) {vertex next : Word} (h : next ∈ order.get vertex) :
    vertex ∈ order.roots := by
  have hkeys : vertex ∈ UnitCycle.roots edges := UnitCycle.mem_roots_of_edge (order.mem_get.1 h)
  rw [UnitCycle.roots, List.mem_mergeSort] at hkeys
  rw [roots, List.mem_mergeSort]
  exact order.keys_perm.mem_iff.2 hkeys

theorem pairwise_roots (order : EdgeOrder edges) :
    order.roots.Pairwise fun a b => a.index ≤ b.index := by
  have hsorted : order.roots.Pairwise fun a b => decide (a.index ≤ b.index) = true := by
    apply List.pairwise_mergeSort
    · intro a b c hab hbc
      simp only [decide_eq_true_eq] at hab hbc ⊢
      exact Nat.le_trans hab hbc
    · intro a b
      rw [Bool.or_eq_true, decide_eq_true_iff, decide_eq_true_iff]
      exact Nat.le_total a.index b.index
  exact hsorted.imp of_decide_eq_true

theorem ends_explore (order : EdgeOrder edges) : Ends order.get order.roots order.explore :=
  UnitCycle.ends_explore order.length_get_le order.roots

end EdgeOrder

/-! ### Paths that come back -/

/-- A path of different vertices, the last of which has an edge back to one of them. -/
structure Lasso (r : Word → Word → Prop) (path : List Word) (name : Word) : Prop where
  chain : (path ++ [name]).IsChain r
  nodup : path.Nodup
  back : name ∈ path

/-- There is a way from the vertex into a cycle. -/
def Circling (r : Word → Word → Prop) (vertex : Word) : Prop :=
  ∃ name, ReflTransGen r vertex name ∧ TransGen r name name

/-- A path comes back to the name that starts at the first vertex from which there is a way into a
cycle. -/
def ComesBack (r : Word → Word → Prop) (name : Word) : Prop :=
  ∃ path, Lasso r path name ∧
    ∀ first ∈ path.head?, ∀ other, Circling r other → first.index ≤ other.index

variable {r : Word → Word → Prop} {path : List Word} {name : Word}

theorem transGen_of_isChain {first last : Word} {middle : List Word}
    (h : (first :: (middle ++ [last])).IsChain r) : TransGen r first last := by
  induction middle generalizing first with
  | nil => exact .single (List.isChain_pair.1 h)
  | cons next middle ih =>
    rw [List.cons_append, List.isChain_cons_cons] at h
    exact .head h.1 (ih h.2)

theorem Lasso.transGen (h : Lasso r path name) {vertex : Word} (hvertex : vertex ∈ path) :
    TransGen r vertex name := by
  obtain ⟨before, after, hpath⟩ := List.append_of_mem hvertex
  have hchain := h.chain
  rw [hpath, List.append_assoc] at hchain
  exact transGen_of_isChain hchain.right_of_append

theorem Lasso.circling (h : Lasso r path name) {vertex : Word} (hvertex : vertex ∈ path) :
    Circling r vertex :=
  ⟨name, (h.transGen hvertex).to_reflTransGen, h.transGen h.back⟩

theorem ComesBack.transGen (h : ComesBack r name) : TransGen r name name := by
  obtain ⟨path, hlasso, -⟩ := h
  exact hlasso.transGen hlasso.back

theorem Circling.exists_edge {vertex : Word} (h : Circling r vertex) : ∃ next, r vertex next := by
  obtain ⟨name, hway, hcycle⟩ := h
  obtain ⟨next, hedge, -⟩ := TransGen.head'_iff.1 (TransGen.trans_right hway hcycle)
  exact ⟨next, hedge⟩

variable {successors : Word → List Word} {search after : Search} {done : List Word} {root vertex : Word}
variable {edges : PairIndex Word Word} {budget : ℕ}

/-- From what is done no way leads into a cycle. -/
theorem Ordered.not_circling (h : Ordered successors done) (hvertex : vertex ∈ done) :
    ¬Circling (fun a b => b ∈ successors a) vertex := by
  rintro ⟨name, hway, hcycle⟩
  have hname : name ∈ done := by
    clear hcycle
    induction hway with
    | refl => exact hvertex
    | tail _ hedge ih => exact h.mem_of_edge ih hedge
  exact h.not_transGen hname hcycle

/-! ### The path of a search -/

/-- Every vertex of a path is a successor of the one below. -/
theorem Frames.chain {stack : List (Word × List Word)} {next : Word}
    (h : Frames successors done (some next) stack) :
    (next :: stack.map (·.1)).IsChain fun a b => a ∈ successors b := by
  induction stack generalizing next with
  | nil => exact .singleton next
  | cons frame stack ih =>
    cases h with
    | cons hlinked _ _ hbelow => exact .cons_cons (hlinked next rfl) (ih hbelow)

/-- What holds of a search that went out from a root. -/
structure Search.Rooted (successors : Word → List Word) (root : Word) (search : Search) : Prop where
  sound : search.Sound successors
  nodup : search.path.Nodup
  start : ∀ last ∈ search.path.getLast?, last = root

theorem Search.Steps.rooted (h : search.Steps successors (.ok after))
    (hsearch : search.Rooted successors root) : after.Rooted successors root := by
  obtain ⟨hsound, hnodup, hstart⟩ := hsearch
  suffices after.path.Nodup ∧ ∀ last ∈ after.path.getLast?, last = root from
    ⟨(h.sound hsound).1, this.1, this.2⟩
  cases h with
  | @leaves vertex stack hstack =>
    have hpath : search.path = vertex :: stack.map (·.1) := by
      rw [hsound.path, hstack]
      rfl
    rw [hpath] at hnodup hstart
    dsimp only
    rw [hpath, List.erase_cons_head]
    refine ⟨(List.nodup_cons.1 hnodup).2, fun last hlast => hstart last ?_⟩
    exact List.mem_getLast?_cons hlast
  | passes => exact ⟨hnodup, hstart⟩
  | @enters vertex next pending stack hstack hpath hdone =>
    have hne : search.path ≠ [] := by
      rw [hsound.path, hstack]
      exact List.cons_ne_nil _ _
    refine ⟨List.nodup_cons.2 ⟨hpath, hnodup⟩, fun last hlast => hstart last ?_⟩
    obtain ⟨head, tail, hcons⟩ := List.exists_cons_of_ne_nil hne
    simp only [Search.enter] at hlast
    rw [hcons] at hlast ⊢
    rwa [List.getLast?_cons_cons] at hlast

/-- Where a search stops at a name, its path comes back there. -/
theorem Search.Rooted.lasso_of_meets (hsearch : search.Rooted successors root)
    (h : search.Steps successors (.error (.cycle name))) :
    Lasso (fun a b => b ∈ successors a) search.path.reverse name ∧
      search.path.reverse.head? = some root := by
  obtain ⟨hsound, hnodup, hstart⟩ := hsearch
  cases h with
  | @meets vertex next pending stack hstack hname =>
    have hpath := hsound.path
    have hframes := hsound.frames
    rw [hstack] at hpath hframes
    have hchain := hframes.follow.chain
    rw [List.map_cons] at hpath hchain
    rw [← hpath] at hchain
    refine ⟨⟨?_, List.nodup_reverse.2 hnodup, List.mem_reverse.2 hname⟩, ?_⟩
    · rw [← List.reverse_cons]
      exact List.isChain_reverse.2 hchain
    · rw [List.head?_reverse]
      have hlast := List.getLast?_eq_some_getLast (List.ne_nil_of_mem hname)
      rw [hlast, hstart _ hlast]

theorem Search.Rooted.lasso_of_run (hsearch : search.Rooted successors root)
    (hrun : search.run successors budget = .error (.cycle name)) :
    ∃ path, Lasso (fun a b => b ∈ successors a) path name ∧ path.head? = some root := by
  induction budget generalizing search with
  | zero => cases hrun
  | succ budget ih =>
    rw [Search.run] at hrun
    split_ifs at hrun with hempty
    have hsteps : search.Steps successors (search.step successors) :=
      steps_step fun hnil => hempty (List.isEmpty_iff.2 hnil)
    generalize search.step successors = answer at hsteps hrun
    cases answer with
    | error stop =>
      obtain rfl : stop = .cycle name := Except.error.inj hrun
      exact ⟨_, hsearch.lasso_of_meets hsteps⟩
    | ok after => exact ih (hsteps.rooted hsearch) hrun

/-- A search whose path is empty goes out from the next root. -/
theorem rooted_enter (hsound : search.Sound successors) (hstack : search.stack = []) (root : Word) :
    (search.enter successors root).Rooted successors root := by
  have hpath : search.path = [] := by
    rw [hsound.path, hstack]
    rfl
  have hframes : Frames successors search.done (some root) search.stack := hstack ▸ .nil
  refine ⟨sound_enter hsound.path hframes hsound.ordered, ?_, ?_⟩
  · simp [Search.enter, hpath]
  · simp [Search.enter, hpath]

theorem lasso_of_visit (hsound : search.Sound successors) (hstack : search.stack = [])
    (hvisit : search.visit successors budget root = .error (.cycle name)) :
    ∃ path, Lasso (fun a b => b ∈ successors a) path name ∧ path.head? = some root := by
  unfold Search.visit at hvisit
  split_ifs at hvisit
  exact (rooted_enter hsound hstack root).lasso_of_run hvisit

/-! ### Whatever the order -/

/-- The path that comes back starts at the first vertex from which there is a way into a cycle: the roots
before it were done. -/
theorem comesBack_of_visits (hcount : ∀ vertex, (successors vertex).length ≤ (edges.get vertex).length)
    {roots : List Word} (hsorted : roots.Pairwise fun a b => a.index ≤ b.index)
    (hroots : ∀ vertex, Circling (fun a b => b ∈ successors a) vertex → vertex ∈ roots)
    (hsound : search.Sound successors) (hstack : search.stack = [])
    (hvisits : roots.foldlM (Search.visit successors (3 * edges.size + 2)) search =
      .error (.cycle name)) : ComesBack (fun a b => b ∈ successors a) name := by
  induction roots generalizing search with
  | nil => cases hvisits
  | cons root roots ih =>
    rw [List.foldlM_cons] at hvisits
    obtain ⟨hleast, hsorted⟩ := List.pairwise_cons.1 hsorted
    have hends := ends_visit hcount hsound hstack root
    have hlasso : search.visit successors (3 * edges.size + 2) root = .error (.cycle name) →
        ∃ path, Lasso (fun a b => b ∈ successors a) path name ∧ path.head? = some root :=
      lasso_of_visit hsound hstack
    generalize search.visit successors (3 * edges.size + 2) root = answer at hends hlasso hvisits
    cases hends with
    | cycle hcycle =>
      obtain ⟨path, hlasso, hhead⟩ := hlasso hvisits
      refine ⟨path, hlasso, fun first hfirst other hother => ?_⟩
      obtain rfl : root = first := Option.some.inj (hhead.symm.trans hfirst)
      rcases List.mem_cons.1 (hroots other hother) with rfl | hother
      · exact Nat.le_refl _
      · exact hleast other hother
    | finished hmiddle hempty hdone =>
      refine ih hsorted (fun vertex hvertex => ?_) hmiddle hempty hvisits
      refine (List.mem_cons.1 (hroots vertex hvertex)).resolve_left ?_
      rintro rfl
      exact hmiddle.ordered.not_circling (hdone List.mem_cons_self) hvertex

/-- Whatever the order, the name that is found is one at which a path comes back. -/
theorem EdgeOrder.comesBack_of_find? (order : EdgeOrder edges) (h : order.find? = some name) :
    ComesBack (fun a b => b ∈ order.get a) name := by
  have hexplore : order.explore = .error (.cycle name) := by
    have hends := order.ends_explore
    unfold EdgeOrder.find? at h
    generalize order.explore = answer at h hends
    cases hends with
    | finished => cases h
    | cycle => rw [Option.some.inj h]
  refine comesBack_of_visits order.length_get_le order.pairwise_roots (fun vertex hvertex => ?_)
    ⟨rfl, .nil, .nil⟩ rfl hexplore
  obtain ⟨next, hedge⟩ := hvertex.exists_edge
  exact order.mem_roots_of_edge hedge

/-- Whatever the order, a name is found where there is a cycle. -/
theorem EdgeOrder.exists_find? (order : EdgeOrder edges)
    (hcycle : TransGen (fun a b => b ∈ order.get a) name name) : ∃ found, order.find? = some found := by
  have hends := order.ends_explore
  unfold EdgeOrder.find?
  generalize order.explore = answer at hends
  cases hends with
  | finished hsound _ hdone =>
    refine absurd hcycle (hsound.ordered.acyclic fun a b hedge => hdone ?_)
    exact order.mem_roots_of_edge hedge
  | @cycle found => exact ⟨found, rfl⟩

/-! ### Every path in some order -/

/-- Where the vertices of a way back into the path list the next one first, the search goes this way,
unless it runs out of steps. -/
theorem run_of_leads {stack : List (Word × List Word)} {tail : List Word}
    (hstack : search.stack = (vertex, successors vertex) :: stack)
    (hleads : (vertex :: (tail ++ [name])).IsChain fun a b => (successors a).head? = some b)
    (hnodup : tail.Nodup) (hpath : ∀ other ∈ tail, other ∉ search.path)
    (hdone : ∀ other ∈ tail, other ∉ search.done) (hback : name ∈ search.path ∨ name ∈ tail) :
    search.run successors budget = .error .exhausted ∨
      search.run successors budget = .error (.cycle name) := by
  -- each turn enters the first successor of the last name, so the search goes down the lasso
  induction budget generalizing search vertex stack tail with
  | zero => exact .inl rfl
  | succ budget ih =>
    cases tail with
    | nil =>
      rw [List.nil_append, List.isChain_pair, List.head?_eq_some_iff] at hleads
      obtain ⟨pending, hsuccessors⟩ := hleads
      have hname : name ∈ search.path := hback.resolve_right List.not_mem_nil
      rw [hsuccessors] at hstack
      right
      simp only [Search.run, Search.step, hstack, List.isEmpty_cons, Bool.false_eq_true, if_false,
        List.contains_iff_mem, hname, if_true]
      rfl
    | cons next tail =>
      rw [List.cons_append, List.isChain_cons_cons, List.head?_eq_some_iff] at hleads
      obtain ⟨⟨pending, hsuccessors⟩, hleads⟩ := hleads
      obtain ⟨hnext, hnodup⟩ := List.nodup_cons.1 hnodup
      rw [hsuccessors] at hstack
      have hrun : search.run successors (budget + 1) =
          ({ search with stack := (vertex, pending) :: stack }.enter successors next).run successors
            budget := by
        simp only [Search.run, Search.step, hstack, List.isEmpty_cons, Bool.false_eq_true, if_false,
          List.contains_iff_mem, hpath next List.mem_cons_self, hdone next List.mem_cons_self]
        rfl
      rw [hrun]
      refine ih rfl hleads hnodup (fun other hother hmem => ?_)
        (fun other hother => hdone other (List.mem_cons_of_mem _ hother)) ?_
      · rcases List.mem_cons.1 hmem with rfl | hmem
        · exact hnext hother
        · exact hpath other (List.mem_cons_of_mem _ hother) hmem
      · rcases hback with hback | hback
        · exact .inl (List.mem_cons_of_mem _ hback)
        · rcases List.mem_cons.1 hback with rfl | hback
          · exact .inl List.mem_cons_self
          · exact .inr hback

/-- What comes after a vertex on a way along a path and then to a name. -/
def following (path : List Word) (name vertex : Word) : Word :=
  ((path ++ [name])[path.idxOf vertex + 1]?).getD name

/-- Along a path that comes back each vertex lists the next one first, if that is the one it prefers. -/
theorem Lasso.leads (h : Lasso (fun a b => b ∈ edges.get a) path name) :
    (path ++ [name]).IsChain fun a b =>
      ((EdgeOrder.preferring edges (following path name)).get a).head? = some b := by
  rw [List.isChain_iff_getElem]
  intro index hindex
  have hlt : index < path.length := by simpa using hindex
  have hget : (path ++ [name])[index] = path[index] := List.getElem_append_left hlt
  have hedge : (path ++ [name])[index + 1] ∈ edges.get path[index] :=
    hget ▸ List.isChain_iff_getElem.1 h.chain index hindex
  have hnext : following path name path[index] = (path ++ [name])[index + 1] := by
    rw [following, h.nodup.idxOf_getElem, List.getElem?_eq_getElem hindex, Option.getD_some]
  rw [hget, EdgeOrder.preferring]
  dsimp only
  rw [hnext, if_pos hedge, List.head?_cons]

variable {first : Word} {tail : List Word}

/-- Where the vertices of a path that comes back list the next one first, a visit of its first vertex finds
the name at which it does. -/
theorem visit_of_leads (hcount : ∀ vertex, (successors vertex).length ≤ (edges.get vertex).length)
    (hlasso : Lasso (fun a b => b ∈ successors a) (first :: tail) name)
    (hleads : (first :: tail ++ [name]).IsChain fun a b => (successors a).head? = some b)
    (hsound : search.Sound successors) (hstack : search.stack = []) :
    search.visit successors (3 * edges.size + 2) first = .error (.cycle name) := by
  have hnew {other : Word} (hother : other ∈ first :: tail) : other ∉ search.done := fun hdone =>
    hsound.ordered.not_circling hdone (hlasso.circling hother)
  have hvisit : search.visit successors (3 * edges.size + 2) first =
      (search.enter successors first).run successors (3 * edges.size + 2) := by
    rw [Search.visit, if_neg fun hdone => hnew List.mem_cons_self (List.contains_iff_mem.1 hdone)]
  have hpath : (search.enter successors first).path = [first] := by
    rw [Search.enter, hsound.path, hstack]
    rfl
  obtain ⟨hhead, hnodup⟩ := List.nodup_cons.1 hlasso.nodup
  have hends := ends_visit hcount hsound hstack first
  rw [hvisit] at hends ⊢
  have hrun : (search.enter successors first).run successors (3 * edges.size + 2) = .error .exhausted ∨
      (search.enter successors first).run successors (3 * edges.size + 2) = .error (.cycle name) := by
    refine run_of_leads rfl hleads hnodup (fun other hother hmem => ?_)
      (fun other hother => hnew (List.mem_cons_of_mem _ hother)) ?_
    · rw [hpath, List.mem_singleton] at hmem
      exact hhead (hmem ▸ hother)
    · rw [hpath, List.mem_singleton]
      exact List.mem_cons.1 hlasso.back
  rcases hrun with hrun | hrun
  · rw [hrun] at hends
    cases hends
  · exact hrun

/-- The search comes to the first vertex from which there is a way into a cycle, because there is none from
the roots before it. -/
theorem visits_of_leads (hcount : ∀ vertex, (successors vertex).length ≤ (edges.get vertex).length)
    {roots : List Word} (hsorted : roots.Pairwise fun a b => a.index ≤ b.index) (hfirst : first ∈ roots)
    (hleast : ∀ other, Circling (fun a b => b ∈ successors a) other → first.index ≤ other.index)
    (hlasso : Lasso (fun a b => b ∈ successors a) (first :: tail) name)
    (hleads : (first :: tail ++ [name]).IsChain fun a b => (successors a).head? = some b)
    (hsound : search.Sound successors) (hstack : search.stack = []) :
    roots.foldlM (Search.visit successors (3 * edges.size + 2)) search = .error (.cycle name) := by
  induction roots generalizing search with
  | nil => cases hfirst
  | cons root roots ih =>
    rw [List.foldlM_cons]
    obtain ⟨hbefore, hsorted⟩ := List.pairwise_cons.1 hsorted
    by_cases hroot : first = root
    · rw [← hroot, visit_of_leads hcount hlasso hleads hsound hstack]
      rfl
    · have hrest : first ∈ roots := (List.mem_cons.1 hfirst).resolve_left hroot
      have hends := ends_visit hcount hsound hstack root
      have hlasso {found : Word} :
          search.visit successors (3 * edges.size + 2) root = .error (.cycle found) →
            ∃ path, Lasso (fun a b => b ∈ successors a) path found ∧ path.head? = some root :=
        lasso_of_visit hsound hstack
      generalize search.visit successors (3 * edges.size + 2) root = answer at hends hlasso
      cases hends with
      | cycle =>
        obtain ⟨path, hlasso, hhead⟩ := hlasso rfl
        have hle := hleast root (hlasso.circling (List.mem_of_mem_head? hhead))
        have hindex : first.index = root.index := Nat.le_antisymm hle (hbefore first hrest)
        exact absurd (congrArg Word.mk hindex) hroot
      | finished hmiddle hempty => exact ih hsorted hrest hmiddle hempty

/-- Each name at which a path comes back is found in some order. -/
theorem ComesBack.exists_order (h : ComesBack (fun a b => b ∈ edges.get a) name) :
    ∃ order : EdgeOrder edges, order.find? = some name := by
  obtain ⟨path, hlasso, hleast⟩ := h
  obtain ⟨first, tail, rfl⟩ := List.exists_cons_of_ne_nil (List.ne_nil_of_mem hlasso.back)
  let order := EdgeOrder.preferring edges (following (first :: tail) name)
  have hedges : (fun a b => b ∈ order.get a) = fun a b => b ∈ edges.get a := by
    funext a b
    exact propext order.mem_get
  obtain ⟨next, hedge⟩ := (hlasso.circling List.mem_cons_self).exists_edge
  have hexplore : order.explore = .error (.cycle name) :=
    visits_of_leads order.length_get_le order.pairwise_roots
      (order.mem_roots_of_edge (order.mem_get.2 hedge)) (hedges ▸ hleast first rfl) (hedges ▸ hlasso)
      hlasso.leads ⟨rfl, .nil, .nil⟩ rfl
  refine ⟨order, ?_⟩
  rw [EdgeOrder.find?, hexplore]

/-- The names that are found in some order are those at which a path comes back. -/
theorem exists_order_iff :
    (∃ order : EdgeOrder edges, order.find? = some name) ↔ ComesBack (fun a b => b ∈ edges.get a) name := by
  constructor
  · rintro ⟨order, hfind⟩
    have hback := order.comesBack_of_find? hfind
    simpa only [order.mem_get] using hback
  · exact ComesBack.exists_order

/-- Where no name is found in one order, none is found in any. -/
theorem EdgeOrder.find?_eq_none (one other : EdgeOrder edges) (h : one.find? = none) : other.find? = none := by
  cases hfind : other.find? with
  | none => rfl
  | some name =>
    have hcycle := (exists_order_iff.1 ⟨other, hfind⟩).transGen
    simp only [← one.mem_get] at hcycle
    obtain ⟨found, hfound⟩ := one.exists_find? hcycle
    rw [h] at hfound
    cases hfound

end UnitCycle

namespace Grammar

open Relation UnitCycle

/-- The unit edges when a production comes to those that are defined. -/
def unitEdges (grammar : Grammar) (production : Production) : PairIndex Word Word :=
  UnitCycle.edges (grammar.toList.map (·.2) ++ [production])

/-- Checks that a production could be defined, where the unit edges are listed in some order. -/
def validateBy (grammar : Grammar) (production : Production) (vocabulary : Vocabulary)
    (order : EdgeOrder (grammar.unitEdges production)) : Except GrammarError Unit :=
  if production.slots.isEmpty then .error .emptyProduction
  else match production.slots.findIdx? (·.isEmpty) with
  | some slot => .error (.emptySlot slot)
  | none =>
    if !production.hasContent then .error .epsilonOnly
    else match grammar.find? production with
    | some existing => .error (.duplicateProduction existing)
    | none => match order.find? with
      | some name => .error (.unitCycle (vocabulary.lookup name))
      | none => .ok ()

variable {grammar : Grammar} {production : Production} {vocabulary : Vocabulary}

theorem validateBy_own (grammar : Grammar) (production : Production) (vocabulary : Vocabulary) :
    grammar.validateBy production vocabulary (.own _) = grammar.validate production vocabulary := rfl

/-- What a production is checked against. -/
def bare (grammar : Grammar) : Grammar :=
  { productions := grammar.productions, ids := grammar.ids }

theorem bare_define (grammar : Grammar) (production : Production) :
    (grammar.define production).1.bare =
      { productions := grammar.bare.productions ++ [some production]
        ids := grammar.bare.ids.insert production ⟨grammar.bare.productions.length⟩ } := rfl

theorem validate_bare (grammar : Grammar) (production : Production) (vocabulary : Vocabulary) :
    grammar.validate production vocabulary = grammar.bare.validate production vocabulary := rfl

theorem validateBy_bare (grammar : Grammar) (production : Production) (vocabulary : Vocabulary)
    (preferred : Word → Word) :
    grammar.validateBy production vocabulary (.preferring _ preferred) =
      grammar.bare.validateBy production vocabulary (.preferring _ preferred) := rfl

/-- The answer is that of the search, unless there is another fault, which is the answer in every order. -/
theorem validateBy_cases (grammar : Grammar) (production : Production) (vocabulary : Vocabulary) :
    (∃ error, (∀ text, error ≠ .unitCycle text) ∧
      ∀ order, grammar.validateBy production vocabulary order = .error error) ∨
    ∀ order, grammar.validateBy production vocabulary order =
      match order.find? with
      | some name => .error (.unitCycle (vocabulary.lookup name))
      | none => .ok () := by
  unfold validateBy
  by_cases hslots : production.slots.isEmpty = true
  · simp only [hslots, if_true]
    exact .inl ⟨.emptyProduction, nofun, fun _ => rfl⟩
  simp only [hslots, Bool.false_eq_true, if_false]
  cases production.slots.findIdx? (·.isEmpty) with
  | some slot => exact .inl ⟨.emptySlot slot, nofun, fun _ => rfl⟩
  | none =>
    by_cases hcontent : production.hasContent = true
    · simp only [hcontent, Bool.not_true, Bool.false_eq_true, if_false]
      cases grammar.find? production with
      | some existing => exact .inl ⟨.duplicateProduction existing, nofun, fun _ => rfl⟩
      | none => exact .inr fun _ => rfl
    · simp only [hcontent, Bool.not_false, if_true]
      exact .inl ⟨.epsilonOnly, nofun, fun _ => rfl⟩

/-- Where no name could derive itself before, every cycle goes through the result of the production that
comes. -/
theorem UnitOrdered.through_result (h : grammar.UnitOrdered) {name : Word}
    (hcycle : TransGen (Edge (grammar.toList.map (·.2) ++ [production])) name name) :
    ReflTransGen (Edge (grammar.toList.map (·.2) ++ [production])) name production.result.name ∧
      ReflTransGen (Edge (grammar.toList.map (·.2) ++ [production])) production.result.name name := by
  obtain ⟨rank, hrank⟩ := h
  have hedge {a b : Word} (hab : Edge (grammar.toList.map (·.2) ++ [production]) a b) :
      a = production.result.name ∨ rank b < rank a := by
    obtain ⟨other, hother, rfl, hpasses⟩ := hab
    rcases List.mem_append.1 hother with hother | hother
    · obtain ⟨⟨id, other⟩, hmem, rfl⟩ := List.mem_map.1 hother
      exact .inr (hrank id other (mem_toList.1 hmem) _ (Production.mem_unitTargets_iff.2 hpasses))
    · rw [List.mem_singleton.1 hother]
      exact .inl rfl
  have hway {a b : Word} (hab : TransGen (Edge (grammar.toList.map (·.2) ++ [production])) a b) :
      (ReflTransGen (Edge (grammar.toList.map (·.2) ++ [production])) a production.result.name ∧
        ReflTransGen (Edge (grammar.toList.map (·.2) ++ [production])) production.result.name b) ∨
      rank b < rank a := by
    induction hab with
    | single hab =>
      rcases hedge hab with rfl | hlt
      · exact .inl ⟨.refl, .single hab⟩
      · exact .inr hlt
    | tail hway hbc ih =>
      rcases ih with ⟨hto, hfrom⟩ | hlt
      · exact .inl ⟨hto, hfrom.tail hbc⟩
      · rcases hedge hbc with rfl | hless
        · exact .inl ⟨hway.to_reflTransGen, .single hbc⟩
        · exact .inr (Nat.lt_trans hless hlt)
  exact (hway hcycle).resolve_right (Nat.lt_irrefl _)

/-- Unless a unit cycle is reported, the answer is the same in every order. -/
theorem range_validateBy_of_ne
    (h : ∀ text, grammar.validate production vocabulary ≠ .error (.unitCycle text)) :
    Set.range (grammar.validateBy production vocabulary) = {grammar.validate production vocabulary} := by
  have hsame (order : EdgeOrder (grammar.unitEdges production)) :
      grammar.validateBy production vocabulary order = grammar.validate production vocabulary := by
    rw [← validateBy_own] at h ⊢
    rcases validateBy_cases grammar production vocabulary with ⟨error, -, herror⟩ | hsearch
    · rw [herror, herror]
    · rw [hsearch] at h
      cases hown : (EdgeOrder.own (grammar.unitEdges production)).find? with
      | some name =>
        rw [hown] at h
        exact absurd rfl (h _)
      | none => rw [hsearch, hsearch, hown, EdgeOrder.find?_eq_none _ order hown]
  ext answer
  constructor
  · rintro ⟨order, rfl⟩
    exact hsame order
  · rintro rfl
    exact ⟨.own _, rfl⟩

/-- If a unit cycle is reported, the answers over all orders are those with a name at which a path comes
back. -/
theorem range_validateBy_of_unitCycle {text : Text}
    (h : grammar.validate production vocabulary = .error (.unitCycle text)) :
    Set.range (grammar.validateBy production vocabulary) =
      {report | ∃ name, ComesBack (fun a b => b ∈ (grammar.unitEdges production).get a) name ∧
        report = .error (.unitCycle (vocabulary.lookup name))} := by
  rw [← validateBy_own] at h
  rcases validateBy_cases grammar production vocabulary with ⟨error, hother, herror⟩ | hsearch
  · rw [herror] at h
    exact absurd (Except.error.inj h) (hother text)
  · ext report
    constructor
    · rintro ⟨order, rfl⟩
      cases hfind : order.find? with
      | some name => exact ⟨name, exists_order_iff.1 ⟨order, hfind⟩, by rw [hsearch, hfind]⟩
      | none =>
        rw [hsearch, order.find?_eq_none _ hfind] at h
        cases h
    · rintro ⟨name, hback, rfl⟩
      obtain ⟨order, hname⟩ := hback.exists_order
      exact ⟨order, by rw [hsearch, hname]⟩

/-- The answers when a production is checked, over all orders in which the unit edges may be listed. Unless a
unit cycle is reported there is one answer. If one is reported, then in every order, and the names that are
reported are those at which a path comes back that starts at the first name from which there is a way into a
cycle; each of them lies on a cycle through the result of the production. So the order is of no consequence
exactly if all these names have the text that is reported. -/
theorem performAll_validateBy (changes : List Change) (production : Production)
    (vocabulary : Vocabulary) :
    let grammar := (performAll {} changes).1
    let leads := Edge (grammar.toList.map (·.2) ++ [production])
    let answer := grammar.validate production vocabulary
    let answers := Set.range (grammar.validateBy production vocabulary)
    answer ∈ answers ∧
    ((∀ text, answer ≠ .error (.unitCycle text)) → answers = {answer}) ∧
    (∀ text, answer = .error (.unitCycle text) →
      answers = {report | ∃ name, ComesBack leads name ∧
        report = .error (.unitCycle (vocabulary.lookup name))}) ∧
    (∀ name, ComesBack leads name → TransGen leads name name ∧
      ReflTransGen leads name production.result.name ∧ ReflTransGen leads production.result.name name) ∧
    (answers.Subsingleton ↔ ∀ text, answer = .error (.unitCycle text) →
      ∀ name, ComesBack leads name → vocabulary.lookup name = text) := by
  intro grammar leads answer answers
  have hanswer : answer ∈ answers := ⟨.own _, validateBy_own grammar production vocabulary⟩
  have hleads : (fun a b => b ∈ (grammar.unitEdges production).get a) = leads := by
    funext a b
    exact propext mem_get_edges
  have hone : (∀ text, answer ≠ .error (.unitCycle text)) → answers = {answer} := range_validateBy_of_ne
  have hcycle (text : Text) (htext : answer = .error (.unitCycle text)) :
      answers = {report | ∃ name, ComesBack leads name ∧
        report = .error (.unitCycle (vocabulary.lookup name))} :=
    hleads ▸ range_validateBy_of_unitCycle htext
  refine ⟨hanswer, hone, hcycle, fun name hname => ⟨hname.transGen, ?_⟩, ?_⟩
  · exact (Reached.empty.performAll changes).unitOrdered.through_result hname.transGen
  constructor
  · intro hsubsingleton text htext name hname
    have hreport : .error (.unitCycle (vocabulary.lookup name)) ∈ answers := by
      rw [hcycle text htext]
      exact ⟨name, hname, rfl⟩
    have heq := hsubsingleton hreport (htext ▸ hanswer)
    exact GrammarError.unitCycle.inj (Except.error.inj heq)
  · intro htexts
    by_cases hother : ∀ text, answer ≠ .error (.unitCycle text)
    · rw [hone hother]
      exact Set.subsingleton_singleton
    · obtain ⟨text, htext⟩ := not_forall_not.1 hother
      rw [hcycle text htext]
      rintro _ ⟨name, hname, rfl⟩ _ ⟨other, hother, rfl⟩
      rw [htexts text htext name hname, htexts text htext other hother]

/-- A production that takes in nothing but a name. -/
def allowing (result name : Nat) : Production :=
  ⟨.subsentence, ⟨⟨result⟩, 0⟩, [.ofList [.nonterminal ⟨⟨name⟩, 0⟩]]⟩

/-- Two ways lead from the first name to the fourth one, by the second and the third or by the third alone. -/
def twoWays : List Change :=
  [.define (allowing 1 2) {}, .define (allowing 1 3) {}, .define (allowing 2 3) {},
    .define (allowing 3 4) {}]

theorem performAll_twoWays : (performAll {} twoWays).1 =
    ((((define {} (allowing 1 2)).1.define (allowing 1 3)).1.define (allowing 2 3)).1.define
      (allowing 3 4)).1 := by
  have hfirst : ({} : Grammar).validate (allowing 1 2) {} = .ok () := by cbv
  have hsecond : (define {} (allowing 1 2)).1.validate (allowing 1 3) {} = .ok () := by
    rw [validate_bare, bare_define]
    cbv
  have hthird : ((define {} (allowing 1 2)).1.define (allowing 1 3)).1.validate (allowing 2 3) {} =
      .ok () := by
    rw [validate_bare, bare_define, bare_define]
    cbv
  have hfourth : (((define {} (allowing 1 2)).1.define (allowing 1 3)).1.define
      (allowing 2 3)).1.validate (allowing 3 4) {} = .ok () := by
    rw [validate_bare, bare_define, bare_define, bare_define]
    cbv
  simp only [twoWays, performAll, perform, hfirst, hsecond, hthird, hfourth]

/-- If the fourth name may be the second one as well, it depends on the way that is listed first whether the
path comes back to the second name or to the third. -/
theorem validateBy_twoWays :
    let grammar := (performAll {} twoWays).1
    let names : Vocabulary := ⟨[[], ['a'], ['b'], ['c'], ['d']]⟩
    grammar.validateBy (allowing 4 2) names (.preferring _ fun _ => ⟨2⟩) = .error (.unitCycle ['b']) ∧
      grammar.validateBy (allowing 4 2) names (.preferring _ fun _ => ⟨3⟩) = .error (.unitCycle ['c']) := by
  dsimp only
  rw [performAll_twoWays]
  constructor
  all_goals
    rw [validateBy_bare, bare_define, bare_define, bare_define, bare_define]
    cbv

end Grammar

end LiveProse
