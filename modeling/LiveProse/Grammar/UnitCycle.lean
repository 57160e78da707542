import LiveProse.Grammar.Production
import LiveProse.Store.PairIndex

/-!
Unit cycles: names that could derive themselves over the same tokens. An edge leads from the result
of a production to each name that it can turn into the result by itself. The search goes depth
first, from the names in the order of their words, and keeps the path it is on.
-/

namespace LiveProse.UnitCycle

/-- A depth-first search under way. -/
structure Search where
  /-- The vertices of the path, the last one first, each with those of its successors that are still
  to be followed. -/
  stack : List (Word × List Word) := []
  /-- The vertices of the path. -/
  path : List Word := []
  /-- The vertices from which everything has been followed. -/
  done : List Word := []
deriving DecidableEq, Repr

/-- Why a search stops early. -/
inductive Stop where
  /-- A vertex of the path was met again. -/
  | cycle (name : Word)
  /-- There are no steps left. -/
  | exhausted
deriving DecidableEq, Repr

/-- Puts a vertex at the end of the path. -/
def Search.enter (successors : Word → List Word) (search : Search) (vertex : Word) : Search :=
  { search with
    stack := (vertex, successors vertex) :: search.stack
    path := vertex :: search.path }

/-- Follows one edge from the end of the path, or leaves its last vertex if no edge is left there. -/
def Search.step (successors : Word → List Word) (search : Search) : Except Stop Search :=
  match search.stack with
  | [] => .ok search
  | (vertex, []) :: stack =>
    .ok { stack, path := search.path.erase vertex, done := vertex :: search.done }
  | (vertex, next :: pending) :: stack =>
    let search := { search with stack := (vertex, pending) :: stack }
    if search.path.contains next then .error (.cycle next)
    else if search.done.contains next then .ok search
    else .ok (search.enter successors next)

/-- Takes steps until the path is empty. -/
def Search.run (successors : Word → List Word) : Nat → Search → Except Stop Search
  | 0, _ => .error .exhausted
  | budget + 1, search =>
    if search.stack.isEmpty then .ok search
    else search.step successors >>= run successors budget

/-- Follows everything from a vertex, unless that has been done. -/
def Search.visit (successors : Word → List Word) (budget : Nat) (search : Search) (root : Word) :
    Except Stop Search :=
  if search.done.contains root then .ok search
  else (search.enter successors root).run successors budget

/-- Follows everything from some vertices, from each of them in at most so many steps. -/
def explore (successors : Word → List Word) (budget : Nat) (roots : List Word) :
    Except Stop Search :=
  roots.foldlM (Search.visit successors budget) {}

/-- The edges of some productions. -/
def edges (productions : List Production) : PairIndex Word Word :=
  productions.foldl (fun index production =>
    production.unitTargets.foldl (·.insert production.result.name ·) index) {}

/-- The names that edges lead from, in the order of their words. -/
def roots (edges : PairIndex Word Word) : List Word :=
  edges.keys.mergeSort fun a b => a.index ≤ b.index

/-- Follows all edges. A search takes at most three steps for each edge and two more. -/
def exploreAll (edges : PairIndex Word Word) : Except Stop Search :=
  explore edges.get (3 * edges.size + 2) (roots edges)

/-- A name on a cycle of the unit graph of some productions. -/
def find? (productions : List Production) : Option Word :=
  match exploreAll (edges productions) with
  | .error (.cycle name) => some name
  | .error .exhausted | .ok _ => none

end LiveProse.UnitCycle
