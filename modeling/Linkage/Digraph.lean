import Std.Data.HashSet

/-!
Finite directed graphs. `reachAmong` searches in rounds of one step, and `components` groups the vertices that reach
each other.
-/
namespace Linkage

/-- A directed graph by its vertices and the tail and head of each edge. -/
structure Digraph (α : Type) where
  vertices : List α
  edges : List (α × α)
deriving Repr

namespace Digraph

variable {α : Type} [BEq α] [Hashable α]

/-- Turns every edge round. -/
def reverse (g : Digraph α) : Digraph α := ⟨g.vertices, g.edges.map Prod.swap⟩

/-- The heads of the edges whose tail is one of the given vertices. -/
def successors (g : Digraph α) (tails : List α) : Std.HashSet α :=
  let set := Std.HashSet.ofList tails
  Std.HashSet.ofList ((g.edges.filter fun e => set.contains e.1).map Prod.snd)

/-- The listed vertices that are in a set. -/
def within (set : Std.HashSet α) (vs : List α) : List α := vs.filter set.contains

/-- The listed vertices that are not in a set. -/
def without (set : Std.HashSet α) (vs : List α) : List α := vs.filter fun v => !set.contains v

theorem length_without_le (set : Std.HashSet α) (vs : List α) : (without set vs).length ≤ vs.length :=
  List.length_filter_le _ _

theorem length_without_lt {set : Std.HashSet α} {vs : List α} (h : within set vs ≠ []) :
    (without set vs).length < vs.length := by
  have hpos : 0 < (within set vs).length := List.length_pos_iff.mpr h
  have hsum := List.length_eq_countP_add_countP set.contains (l := vs)
  simp only [within, without, ← List.countP_eq_length_filter] at hpos ⊢
  simp only [Bool.not_eq_true, Bool.decide_eq_false] at hsum
  omega

/-- The vertices among `unseen` that at most `limit` steps lead to from `frontier`. A round takes what it finds out of
`unseen`, so there is a last one. -/
def reachAmong (g : Digraph α) (limit : Option Nat) (frontier unseen : List α) : List α :=
  if limit = some 0 then []
  else
    let heads := g.successors frontier
    if _ : within heads unseen = [] then []
    else within heads unseen ++ g.reachAmong (limit.map (· - 1)) (within heads unseen) (without heads unseen)
termination_by unseen.length
decreasing_by exact length_without_lt ‹_›

/-- The vertices that a vertex leads to in one or more steps. -/
def reach (g : Digraph α) (v : α) : Std.HashSet α := Std.HashSet.ofList (g.reachAmong none [v] g.vertices)

/-- The vertices that a vertex leads to and that lead back to it. -/
def equivalents (g : Digraph α) (v : α) : Std.HashSet α :=
  let back := g.reverse.reach v
  (g.reach v).filter back.contains

/-- Groups the given vertices: a vertex stands with all later ones that it leads to and that lead back to it. -/
def componentsAmong (g : Digraph α) : List α → List (List α)
  | [] => []
  | v :: rest =>
    let group := g.equivalents v
    (v :: within group rest) :: g.componentsAmong (without group rest)
termination_by vs => vs.length
decreasing_by
  have := length_without_le (g.equivalents v) rest
  simp only [List.length_cons]
  omega

/-- The strongly connected components, and the vertices within one, in the order of the vertices. -/
def components (g : Digraph α) : List (List α) := g.componentsAmong g.vertices

end Digraph

end Linkage
