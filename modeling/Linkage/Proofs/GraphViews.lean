import Mathlib.Tactic.TFAE
import Linkage.Model.Graph
import Linkage.Neo4j
import Linkage.Proofs.Distinct
import Linkage.Proofs.Keys

/-!
The graph of the members and the exported graph are two views of the references of a model. Their vertices are always
the same. The first has one edge for all references between two texts, the second one link for each reference, so that
their edges are the same exactly where no two references have the same texts. Otherwise the links of one edge overwrite
each other's number once they are loaded.
-/
namespace Linkage

namespace Access

/-- The texts of both members. -/
def ends (a : Access) : String × String := (a.source.text, a.dest.text)

end Access

namespace ExportLink

def ends (l : ExportLink) : String × String := (l.source, l.target)

end ExportLink

namespace Neo4j

def Row.link? : Row → Option ExportLink
  | .member _ => none
  | .dependency link => some link

/-- The links that some statements load, in the order in which they are run. -/
def linksOf (statements : List (Phase × Statement)) : List ExportLink :=
  (statements.flatMap fun s => s.2.rows.getD []).filterMap Row.link?

/-- The number that is left between two members: each link sets it anew. -/
def countKept (statements : List (Phase × Statement)) (e : String × String) : Option Nat :=
  ((linksOf statements).filter (·.ends == e)).getLast?.map (·.count)

theorem flatten_batches {α : Type} (size : Nat) (xs : List α) : (batches size xs).flatten = xs := by
  induction xs using batches.induct size with
  | case1 => simp [batches]
  | case2 x rest ih => simp [batches, ih]

theorem flatMap_batches_rows (phase : Phase) (query : String) (size : Nat) (rows : List Row) :
    ((batches size rows).map fun batch => (phase, (⟨query, some batch⟩ : Statement))).flatMap
      (fun s => s.2.rows.getD []) = rows := by
  rw [List.flatMap_map]
  exact List.flatMap_id'.trans (flatten_batches size rows)

/-- However the rows are cut, every link is loaded once and in its order. -/
theorem linksOf_statements (options : Options) (g : ExportGraph) : linksOf (statements options g) = g.links := by
  have hmembers : (g.nodes.map Row.member).filterMap Row.link? = [] := by
    simp [List.filterMap_map, Function.comp_def, Row.link?]
  have hlinks : (g.links.map Row.dependency).filterMap Row.link? = g.links := by
    simp [List.filterMap_map, Function.comp_def, Row.link?]
  have hbefore : ((if options.clean then [(Phase.clean, (⟨cleanQuery, none⟩ : Statement))] else []) ++
      indexQueries.map fun query => (Phase.index, (⟨query, none⟩ : Statement))).flatMap
        (fun s => s.2.rows.getD []) = [] := by
    cases options.clean <;> simp [indexQueries]
  simp only [linksOf, statements]
  rw [List.flatMap_append, List.flatMap_append, hbefore, flatMap_batches_rows, flatMap_batches_rows,
    List.nil_append, List.filterMap_append, hmembers, hlinks, List.nil_append]

end Neo4j

namespace Member

/-- Where owners have no point, the text tells the member. -/
theorem text_inj {a b : Member} (ha : '.' ∉ a.owner.toList) (hb : '.' ∉ b.owner.toList) (h : a.text = b.text) :
    a = b := by
  obtain ⟨howner, hname⟩ := append_separator_inj rfl ha hb h
  cases a
  cases b
  simp_all

end Member

/-- The last of some positive numbers is their sum only if it is alone. -/
theorem getLast?_eq_sum_iff {ns : List Nat} (hpos : ∀ n ∈ ns, 0 < n) : ns.getLast? = some ns.sum ↔ ns.length = 1 := by
  rcases List.eq_nil_or_concat' ns with rfl | ⟨before, last, rfl⟩
  · simp
  · cases before with
    | nil => simp
    | cons n before =>
      have hn : 0 < n := hpos n (by simp)
      have hlast : (n :: before ++ [last]).getLast? = some last := List.getLast?_concat
      have hsum : (n :: before ++ [last]).sum = n + before.sum + last := by simp [Nat.add_assoc]
      have hlength : (n :: before ++ [last]).length = before.length + 2 := by simp
      rw [hlast, hsum, hlength, Option.some_inj]
      omega

namespace Model

/-- No two references of the model have the same texts. -/
def TellsApart (m : Model) : Prop := ∀ a ∈ m.edges, ∀ b ∈ m.edges, a.ends = b.ends → a = b

/-- Both views have the same vertices and the same edges, each once, and no loaded link overwrites another. -/
structure ViewsAgree (m : Model) : Prop where
  members : m.exportGraph.nodes.map (·.member) = m.members
  vertices : m.exportGraph.nodes.map (·.id) = m.memberGraph.vertices
  distinct : (m.exportGraph.links.map (·.ends)).Nodup
  edges (e : String × String) : e ∈ m.exportGraph.links.map (·.ends) ↔ e ∈ m.memberGraph.edges
  order : m.exportGraph.nodes.length = m.memberGraph.vertices.length
  size : m.exportGraph.links.length = m.memberGraph.edges.length
  loaded (options : Neo4j.Options) :
    ((Neo4j.linksOf (Neo4j.statements options m.exportGraph)).map (·.ends)).Nodup

theorem memberGraph_edges (m : Model) : m.memberGraph.edges = (m.edges.map (·.ends)).eraseDups := rfl

theorem exportGraph_members (m : Model) : m.exportGraph.nodes.map (·.member) = m.members := by
  have hcancel : (fun node : ExportNode => node.member) ∘ m.exportNode = id := rfl
  rw [exportGraph, List.map_map, hcancel, List.map_id]
  rfl

theorem exportGraph_ids (m : Model) : m.exportGraph.nodes.map (·.id) = m.memberGraph.vertices := by
  rw [memberGraph, ← exportGraph_members, List.map_map]
  rfl

theorem map_ends_links (m : Model) : m.exportGraph.links.map (·.ends) = m.edges.eraseDups.map (·.ends) := by
  rw [exportGraph, List.map_map]
  rfl

/-- Without repeats the links of the export are the edges between the members. -/
theorem eraseDups_ends_links (m : Model) : (m.exportGraph.links.map (·.ends)).eraseDups = m.memberGraph.edges := by
  rw [map_ends_links, memberGraph_edges, eraseDups_map_eraseDups]

theorem mem_ends_links_iff (m : Model) (e : String × String) :
    e ∈ m.exportGraph.links.map (·.ends) ↔ e ∈ m.memberGraph.edges := by
  rw [← eraseDups_ends_links, List.mem_eraseDups]

theorem nodup_ends_links_iff (m : Model) : (m.exportGraph.links.map (·.ends)).Nodup ↔ m.TellsApart := by
  rw [map_ends_links, List.nodup_map_iff_inj_on (nodup_eraseDups m.edges)]
  simp only [List.mem_eraseDups]
  rfl

theorem length_links_eq_iff (m : Model) :
    m.exportGraph.links.length = m.memberGraph.edges.length ↔ m.TellsApart := by
  rw [← nodup_ends_links_iff, ← length_eraseDups_eq_iff, eraseDups_ends_links, List.length_map]

/-- The links of one edge, counted as they say, are its references. -/
theorem sum_count_links (m : Model) (e : String × String) :
    ((m.exportGraph.links.filter (·.ends == e)).map (·.count)).sum = m.edges.countP (·.ends == e) := by
  rw [← sum_count_filter_eraseDups, exportGraph, List.filter_map, List.map_map]
  rfl

theorem count_pos {m : Model} {l : ExportLink} (h : l ∈ m.exportGraph.links) : 0 < l.count := by
  obtain ⟨a, ha, rfl⟩ := List.mem_map.mp h
  exact List.count_pos_iff.mpr (List.mem_eraseDups.mp ha)

theorem viewsAgree_iff (m : Model) : m.ViewsAgree ↔ m.TellsApart := by
  constructor
  · exact fun h => (nodup_ends_links_iff m).mp h.distinct
  · intro h
    have hdistinct := (nodup_ends_links_iff m).mpr h
    have hids := exportGraph_ids m
    refine ⟨exportGraph_members m, hids, hdistinct, mem_ends_links_iff m, ?_, (length_links_eq_iff m).mpr h, ?_⟩
    · rw [← hids, List.length_map]
    · intro options
      rwa [Neo4j.linksOf_statements]

/-- The links between two texts. -/
def linksBetween (m : Model) (e : String × String) : List ExportLink := m.exportGraph.links.filter (·.ends == e)

theorem countKept_eq (m : Model) (options : Neo4j.Options) (e : String × String) :
    Neo4j.countKept (Neo4j.statements options m.exportGraph) e = (m.linksBetween e).getLast?.map (·.count) := by
  rw [Neo4j.countKept, Neo4j.linksOf_statements]
  rfl

/-- The number that is left is that of all references between the texts exactly if one link alone sets it. -/
theorem countKept_eq_iff (m : Model) (options : Neo4j.Options) (e : String × String) :
    Neo4j.countKept (Neo4j.statements options m.exportGraph) e = some (m.edges.countP (·.ends == e)) ↔
      (m.linksBetween e).length = 1 := by
  have hpos : ∀ n ∈ (m.linksBetween e).map (·.count), 0 < n := by
    intro n hn
    obtain ⟨l, hl, rfl⟩ := List.mem_map.mp hn
    exact count_pos (List.mem_filter.mp hl).1
  rw [countKept_eq, ← List.getLast?_map, ← sum_count_links]
  exact (getLast?_eq_sum_iff hpos).trans (by rw [List.length_map])

/-- Between the texts of each edge there is one link exactly if texts tell the references apart. -/
theorem forall_length_linksBetween_iff (m : Model) :
    (∀ e ∈ m.memberGraph.edges, (m.linksBetween e).length = 1) ↔ m.TellsApart := by
  have hcount (e : String × String) : (m.linksBetween e).length = (m.exportGraph.links.map (·.ends)).count e := by
    rw [linksBetween, List.count, List.countP_map, List.countP_eq_length_filter]
    rfl
  rw [← nodup_ends_links_iff, List.nodup_iff_count_eq_one]
  simp only [hcount, mem_ends_links_iff]

theorem tellsApart_of_undotted {m : Model} (h : ∀ a ∈ m.mentioned, '.' ∉ a.owner.toList) : m.TellsApart := by
  have hsource {a : Access} (ha : a ∈ m.edges) : '.' ∉ a.source.owner.toList :=
    h _ (List.mem_flatMap.mpr ⟨a, ha, by simp⟩)
  have hdest {a : Access} (ha : a ∈ m.edges) : '.' ∉ a.dest.owner.toList :=
    h _ (List.mem_flatMap.mpr ⟨a, ha, by simp⟩)
  intro a ha b hb hends
  obtain ⟨hs, hd⟩ := Prod.mk.inj hends
  have hs := Member.text_inj (hsource ha) (hsource hb) hs
  have hd := Member.text_inj (hdest ha) (hdest hb) hd
  cases a
  cases b
  simp_all

/-- Both views have the texts of the mentioned members for vertices, each owned by the first member with the text. The
edges between the members are the links of the export without repeats, and the numbers of the links with one pair of
texts add up to the references with it. The views agree exactly if the texts tell the references apart; so they do
where no owner has a point. Only then do as many links as edges exist, and only then do all numbers survive loading. -/
theorem graph_views (m : Model) :
    (m.exportGraph.nodes.map (·.member) = m.members ∧ m.exportGraph.nodes.map (·.id) = m.memberGraph.vertices ∧
      m.memberGraph.vertices.Pairwise (· < ·) ∧
      (∀ v, v ∈ m.memberGraph.vertices ↔ ∃ a ∈ m.mentioned, a.text = v) ∧
      ∀ a, a ∈ m.members ↔ m.mentioned.find? (·.text == a.text) = some a) ∧
    (m.exportGraph.links.map (·.ends)).eraseDups = m.memberGraph.edges ∧
    (∀ e, ((m.exportGraph.links.filter (·.ends == e)).map (·.count)).sum = m.edges.countP (·.ends == e)) ∧
    [m.TellsApart, m.ViewsAgree, m.exportGraph.links.length = m.memberGraph.edges.length,
      ∀ options, ∀ e ∈ m.memberGraph.edges,
        Neo4j.countKept (Neo4j.statements options m.exportGraph) e = some (m.edges.countP (·.ends == e))].TFAE ∧
    ((∀ a ∈ m.mentioned, '.' ∉ a.owner.toList) → m.ViewsAgree) := by
  have hrising : m.memberGraph.vertices.Pairwise (· < ·) :=
    List.pairwise_map.mpr (rising_sortDistinctBy Member.text m.mentioned)
  have hvertices (v : String) : v ∈ m.memberGraph.vertices ↔ ∃ a ∈ m.mentioned, a.text = v :=
    (mem_map_sortDistinctBy Member.text).trans List.mem_map
  have hfirst (a : Member) : a ∈ m.members ↔ m.mentioned.find? (·.text == a.text) = some a :=
    mem_sortDistinctBy Member.text
  refine ⟨⟨exportGraph_members m, exportGraph_ids m, hrising, hvertices, hfirst⟩, eraseDups_ends_links m,
    sum_count_links m, ?_, ?_⟩
  · tfae_have 1 ↔ 2 := (viewsAgree_iff m).symm
    tfae_have 1 ↔ 3 := (length_links_eq_iff m).symm
    tfae_have 1 ↔ 4 := by
      simp only [countKept_eq_iff, forall_length_linksBetween_iff]
      exact ⟨fun h _ => h, fun h => h ⟨1, false⟩⟩
    tfae_finish
  · intro h
    exact (viewsAgree_iff m).mpr (tellsApart_of_undotted h)

/-- A model whose class `p` refers to the members `b.c` of `a` and `c` of `a.b`. -/
def dotted : Model :=
  (empty.add ⟨"p", "p.class", 1, [⟨⟨"p", "m"⟩, ⟨"a", "b.c"⟩⟩, ⟨⟨"p", "m"⟩, ⟨"a.b", "c"⟩⟩]⟩).1

/-- Two members with the text `a.b.c` make one edge and two links. -/
theorem dotted_views_differ : ¬ dotted.ViewsAgree ∧ dotted.memberGraph.edges = [("p.m", "a.b.c")] ∧
    dotted.exportGraph.links.map (fun l => (l.ends, l.count)) =
      [(("p.m", "a.b.c"), 1), (("p.m", "a.b.c"), 1)] := by
  have hends : dotted.exportGraph.links.map (·.ends) = [("p.m", "a.b.c"), ("p.m", "a.b.c")] := by decide
  refine ⟨fun h => ?_, by decide, by decide⟩
  have hdistinct := h.distinct
  rw [hends] at hdistinct
  simp at hdistinct

end Model

end Linkage
