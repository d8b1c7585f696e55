import Linkage.Digraph
import Linkage.Distinct
import Linkage.Model

/-!
The graphs that the references of a model span. Members with one text are one vertex, owned by the first of them.
`dependencies` is a bounded search in the graph of the members, `cycles` are components of the graph of the classes.
-/
namespace Linkage
namespace Model

/-- Sources and destinations in the order of the references. -/
def mentioned (m : Model) : List Member := m.edges.flatMap fun a => [a.source, a.dest]

/-- The members by rising text, one for each text. -/
def members (m : Model) : List Member := sortDistinctBy Member.text m.mentioned

/-- The graph of the members, by their texts. -/
def memberGraph (m : Model) : Digraph String :=
  ⟨m.members.map (·.text), (m.edges.map fun a => (a.source.text, a.dest.text)).eraseDups⟩

/-- The references that lead from one class to another, by the names of the classes. -/
def classLinks (m : Model) : List (String × String) :=
  (m.edges.map fun a => (a.source.owner, a.dest.owner)).filter fun e => e.1 != e.2

/-- The graph of the classes that refer to other classes or are referred to by them. -/
def classGraph (m : Model) : Digraph String :=
  ⟨sortDistinct (m.classLinks.flatMap fun e => [e.1, e.2]), m.classLinks.eraseDups⟩

/-- The number of references that a depth allows; a depth that is not positive sets no limit. -/
def depthLimit (depth : Int) : Option Nat := if depth ≤ 0 then none else some depth.toNat

/-- The other classes that own a member which at most `depth` references lead to from a member of class `c`. What
`accepts` refuses is left out of the answer, not out of the search. -/
def dependencies (m : Model) (c : String) (depth : Option Nat) (accepts : String → Bool) : List String :=
  let own := m.members.filter (·.owner == c)
  let others := m.members.filter (·.owner != c)
  let reached := m.memberGraph.reachAmong depth (own.map (·.text)) (others.map (·.text))
  let owners := (others.filter fun v => reached.contains v.text).map (·.owner)
  (sortDistinct owners).filter accepts

/-- The groups of two and more classes that lead to each other. -/
def cycles (m : Model) : List (List String) := m.classGraph.components.filter fun group => 2 ≤ group.length

end Model

namespace Digraph

/-- The heads of the edges that leave a vertex, in rising order. -/
def targets (g : Digraph String) (v : String) : List String :=
  sortDistinct ((g.edges.filter (·.1 == v)).map Prod.snd)

end Digraph

end Linkage
