import Linkage.Proofs.ByteOrder
import Linkage.Proofs.GraphViews
import Linkage.Proofs.Reachability

/-!
The dependencies of a class are a bounded reachability. A search from the texts that the class owns takes the texts of
other owners for unseen; a path that comes back to the class can be cut at its last text there, so that what is found
through unseen texts only is all that can be reached.
-/
namespace Linkage
namespace Model

/-- The owner of a text: that of the first member mentioned with it. -/
def ownerOf? (m : Model) (v : String) : Option String := (m.mentioned.find? (·.text == v)).map (·.owner)

/-- A reference leads from the first text to the second. -/
def TextRefers (m : Model) (v w : String) : Prop := ∃ a ∈ m.edges, a.source.text = v ∧ a.dest.text = w

/-- From a text of the first owner a path leads to one of the second, with at most as many references as a positive
depth says. -/
def LeadsToOwner (m : Model) (depth : Int) (c o : String) : Prop :=
  ∃ v w, m.ownerOf? v = some c ∧ m.ownerOf? w = some o ∧
    ∃ n : Nat, (depth ≤ 0 ∨ (n : Int) ≤ depth) ∧ Leads m.TextRefers n v w

/-- A search from the texts of a class through all other texts finds these, in whatever order it goes through them. -/
def Finds (m : Model) (c : String) (limit : Option Nat) (found : List String) : Prop :=
  ∃ starts others : List String, (∀ v, v ∈ starts ↔ m.ownerOf? v = some c) ∧
    (∀ v, v ∈ others ↔ ∃ o, m.ownerOf? v = some o ∧ o ≠ c) ∧ m.memberGraph.Search limit starts others found

section

variable {m : Model} {c : String} {v w : String}

theorem mem_memberGraph_edges : (v, w) ∈ m.memberGraph.edges ↔ m.TextRefers v w := by
  simp [memberGraph_edges, TextRefers, Access.ends]

theorem ownerOf?_eq_some_iff {o : String} :
    m.ownerOf? v = some o ↔ ∃ a ∈ m.members, a.text = v ∧ a.owner = o := by
  simp only [ownerOf?, Option.map_eq_some_iff, members, mem_sortDistinctBy]
  constructor
  · rintro ⟨a, hfind, rfl⟩
    have htext : a.text = v := by simpa using List.find?_some hfind
    exact ⟨a, htext ▸ hfind, htext, rfl⟩
  · rintro ⟨a, hfind, rfl, rfl⟩
    exact ⟨a, hfind, rfl⟩

theorem mem_memberGraph_vertices : v ∈ m.memberGraph.vertices ↔ ∃ o, m.ownerOf? v = some o := by
  simp only [memberGraph, List.mem_map, ownerOf?_eq_some_iff]
  constructor
  · rintro ⟨a, ha, rfl⟩
    exact ⟨a.owner, a, ha, rfl, rfl⟩
  · rintro ⟨o, a, ha, rfl, -⟩
    exact ⟨a, ha, rfl⟩

/-- Every text that is mentioned has an owner. -/
theorem exists_ownerOf?_of_mem {a : Member} (h : a ∈ m.mentioned) : ∃ o, m.ownerOf? a.text = some o := by
  have hsome : (m.mentioned.find? (·.text == a.text)).isSome := List.find?_isSome.mpr ⟨a, h, by simp⟩
  obtain ⟨b, hb⟩ := Option.isSome_iff_exists.mp hsome
  exact ⟨b.owner, by simp [ownerOf?, hb]⟩

theorem TextRefers.exists_owners (h : m.TextRefers v w) :
    (∃ o, m.ownerOf? v = some o) ∧ ∃ o, m.ownerOf? w = some o := by
  obtain ⟨a, ha, rfl, rfl⟩ := h
  constructor
  · exact exists_ownerOf?_of_mem (List.mem_flatMap.mpr ⟨a, ha, by simp⟩)
  · exact exists_ownerOf?_of_mem (List.mem_flatMap.mpr ⟨a, ha, by simp⟩)

/-- What a search from a class finds: the texts of others that a path within the limit leads to. -/
theorem Finds.mem_iff {limit : Option Nat} {found : List String} (h : m.Finds c limit found) :
    w ∈ found ↔ (∃ o, m.ownerOf? w = some o ∧ o ≠ c) ∧
      ∃ v n, m.ownerOf? v = some c ∧ Digraph.Allows limit n ∧ Leads m.TextRefers n v w := by
  obtain ⟨starts, others, hstarts, hothers, hsearch⟩ := h
  rw [hsearch.mem_iff]
  constructor
  · intro hreached
    have hw := (hothers w).mp hreached.mem_unseen
    obtain ⟨v, hv, n, -, hlimit, hpath⟩ := hreached
    exact ⟨hw, v, n, (hstarts v).mp hv, hlimit, hpath.mono fun a b hab => mem_memberGraph_edges.mp hab.1⟩
  · rintro ⟨⟨o, ho, hne⟩, v, n, hv, hlimit, hpath⟩
    obtain ⟨u, hu, k, hk, hrest⟩ := hpath.after_last (P := fun v => m.ownerOf? v = some c) hv
    have hrest : Leads (fun a b => m.memberGraph.Steps a b ∧ b ∈ others) k u w := by
      refine hrest.mono fun a b hab => ⟨mem_memberGraph_edges.mpr hab.1, (hothers b).mpr ?_⟩
      obtain ⟨-, p, hp⟩ := hab.1.exists_owners
      exact ⟨p, hp, fun heq => hab.2 (heq ▸ hp)⟩
    have hpos : 0 < k := by
      rcases Nat.eq_zero_or_pos k with rfl | hpos
      · cases hrest
        exact absurd (Option.some.inj (ho.symm.trans hu)) hne
      · exact hpos
    exact ⟨u, (hstarts u).mpr hu, k, hpos, hlimit.mono hk, hrest⟩

end

theorem mem_map_text_filter {m : Model} {p : String → Bool} {v : String} :
    v ∈ (m.members.filter fun a => p a.owner).map (·.text) ↔ ∃ o, m.ownerOf? v = some o ∧ p o = true := by
  simp only [List.mem_map, List.mem_filter, ownerOf?_eq_some_iff]
  constructor
  · rintro ⟨a, ⟨ha, hp⟩, rfl⟩
    exact ⟨a.owner, ⟨a, ha, rfl, rfl⟩, hp⟩
  · rintro ⟨o, ⟨a, ha, rfl, rfl⟩, hp⟩
    exact ⟨a, ⟨ha, hp⟩, rfl⟩

/-- The texts that the search behind `dependencies` finds. -/
def reachedTexts (m : Model) (c : String) (limit : Option Nat) : List String :=
  m.memberGraph.reachAmong limit ((m.members.filter (·.owner == c)).map (·.text))
    ((m.members.filter (·.owner != c)).map (·.text))

theorem finds_reachedTexts (m : Model) (c : String) (limit : Option Nat) :
    m.Finds c limit (m.reachedTexts c limit) := by
  refine ⟨_, _, fun v => ?_, fun v => ?_, Digraph.search_reachAmong _ _ _ _⟩
  · simp [mem_map_text_filter (p := (· == c))]
  · simp [mem_map_text_filter (p := (· != c))]

/-- Whatever order a search uses, the dependencies are the owners of what it finds. -/
theorem dependencies_eq_of_finds {m : Model} {c : String} {limit : Option Nat} {found : List String}
    (h : m.Finds c limit found) (accepts : String → Bool) :
    m.dependencies c limit accepts = (sortDistinct (found.filterMap m.ownerOf?)).filter accepts := by
  refine congrArg (List.filter accepts) (sortDistinct_congr fun o => ?_)
  simp only [List.mem_map, List.mem_filter, List.contains_iff_mem, List.mem_filterMap, ownerOf?_eq_some_iff]
  have hfound (w : String) : w ∈ found ↔ w ∈ m.reachedTexts c limit := by
    rw [h.mem_iff, (finds_reachedTexts m c limit).mem_iff]
  constructor
  · rintro ⟨a, ⟨⟨ha, -⟩, hreached⟩, rfl⟩
    exact ⟨a.text, (hfound _).mpr hreached, a, ha, rfl, rfl⟩
  · rintro ⟨v, hv, a, ha, rfl, rfl⟩
    obtain ⟨⟨o, ho, hne⟩, -⟩ := h.mem_iff.mp hv
    have howner : a.owner = o := by
      have hown : m.ownerOf? a.text = some a.owner := ownerOf?_eq_some_iff.mpr ⟨a, ha, rfl, rfl⟩
      exact Option.some.inj (hown.symm.trans ho)
    exact ⟨a, ⟨⟨ha, by simpa [howner] using hne⟩, (hfound _).mp hv⟩, rfl⟩

theorem mem_dependencies_iff {m : Model} {c o : String} {limit : Option Nat} {accepts : String → Bool} :
    o ∈ m.dependencies c limit accepts ↔ o ≠ c ∧ accepts o = true ∧
      ∃ v w, m.ownerOf? v = some c ∧ m.ownerOf? w = some o ∧
        ∃ n, Digraph.Allows limit n ∧ Leads m.TextRefers n v w := by
  have hfinds := finds_reachedTexts m c limit
  rw [dependencies_eq_of_finds hfinds, List.mem_filter, mem_sortDistinct, List.mem_filterMap]
  constructor
  · rintro ⟨⟨w, hw, ho⟩, haccepts⟩
    obtain ⟨⟨p, hp, hne⟩, v, n, hv, hlimit, hpath⟩ := hfinds.mem_iff.mp hw
    obtain rfl : p = o := Option.some.inj (hp.symm.trans ho)
    exact ⟨hne, haccepts, v, w, hv, ho, n, hlimit, hpath⟩
  · rintro ⟨hne, haccepts, v, w, hv, ho, n, hlimit, hpath⟩
    exact ⟨⟨w, hfinds.mem_iff.mpr ⟨⟨o, ho, hne⟩, v, n, hv, hlimit, hpath⟩, ho⟩, haccepts⟩

theorem allows_depthLimit {depth : Int} {n : Nat} :
    Digraph.Allows (depthLimit depth) n ↔ depth ≤ 0 ∨ (n : Int) ≤ depth := by
  unfold depthLimit Digraph.Allows
  split
  · simp [*]
  · simp only [Option.mem_def, Option.some.injEq, forall_eq']
    omega

/-- No depth beyond the number of the texts changes anything. -/
theorem dependencies_of_length_le {m : Model} {depth : Int} (h : (m.memberGraph.vertices.length : Int) ≤ depth)
    (c : String) (accepts : String → Bool) :
    m.dependencies c (depthLimit depth) accepts = m.dependencies c (depthLimit 0) accepts := by
  by_cases hdepth : depth ≤ 0
  · simp [depthLimit, hdepth]
  · have hothers : ((m.members.filter (·.owner != c)).map (·.text)).length ≤ depth.toNat := by
      have hlength : m.memberGraph.vertices.length = m.members.length := by simp [memberGraph]
      have hfilter := List.length_filter_le (·.owner != c) m.members
      simp only [List.length_map]
      omega
    have hreached : m.reachedTexts c (depthLimit depth) = m.reachedTexts c (depthLimit 0) := by
      simp only [reachedTexts, depthLimit, hdepth, if_false, Int.le_refl, if_true]
      exact Digraph.reachAmong_of_length_le hothers
    rw [dependencies_eq_of_finds (finds_reachedTexts m c _), dependencies_eq_of_finds (finds_reachedTexts m c _),
      hreached]

/-- The texts are the vertices, each with an owner, and the references between them are the edges, so that a search
looks for nothing that is missing. The dependencies of a class rise in byte order. They are the other owners that the
filter accepts and of which some text is at the end of a path from a text of the class, with at most as many steps as a
positive depth says; they are found in whatever order a search goes through the texts. With a larger depth there are
more of them, up to all that there are without a limit. -/
theorem dependencies_reachable (m : Model) (c : String) (accepts : String → Bool) :
    let answer (depth : Int) : List String := m.dependencies c (depthLimit depth) accepts
    ((∀ v, v ∈ m.memberGraph.vertices ↔ ∃ o, m.ownerOf? v = some o) ∧
      ∀ v w, ((v, w) ∈ m.memberGraph.edges ↔ m.TextRefers v w) ∧
        (m.TextRefers v w → v ∈ m.memberGraph.vertices ∧ w ∈ m.memberGraph.vertices)) ∧
    (∀ depth, (answer depth).Pairwise (fun o p => utf8Bytes o < utf8Bytes p) ∧
      (∀ o, o ∈ answer depth ↔ o ≠ c ∧ accepts o = true ∧ m.LeadsToOwner depth c o) ∧
      ∀ found, m.Finds c (depthLimit depth) found →
        answer depth = (sortDistinct (found.filterMap m.ownerOf?)).filter accepts) ∧
    (∀ d d', 0 < d → d ≤ d' → answer d ⊆ answer d') ∧ (∀ d, answer d ⊆ answer 0) ∧
    ∀ d, (m.memberGraph.vertices.length : Int) ≤ d → answer d = answer 0 := by
  intro answer
  have hmem (depth : Int) (o : String) :
      o ∈ answer depth ↔ o ≠ c ∧ accepts o = true ∧ m.LeadsToOwner depth c o := by
    simp only [answer, mem_dependencies_iff, allows_depthLimit, LeadsToOwner]
  have hgrows {d d' : Int} (h : ∀ n : Nat, d ≤ 0 ∨ (n : Int) ≤ d → d' ≤ 0 ∨ (n : Int) ≤ d') :
      answer d ⊆ answer d' := by
    intro o ho
    obtain ⟨hne, haccepts, v, w, hv, hw, n, hdepth, hpath⟩ := (hmem d o).mp ho
    exact (hmem d' o).mpr ⟨hne, haccepts, v, w, hv, hw, n, h n hdepth, hpath⟩
  refine ⟨⟨fun v => mem_memberGraph_vertices, fun v w => ⟨mem_memberGraph_edges, fun h => ?_⟩⟩,
    fun depth => ⟨?_, hmem depth, ?_⟩, fun d d' hpos hle => hgrows fun n => by omega,
    fun d => hgrows fun n _ => .inl (Int.le_refl 0), fun d hd => ?_⟩
  · exact ⟨mem_memberGraph_vertices.mpr h.exists_owners.1, mem_memberGraph_vertices.mpr h.exists_owners.2⟩
  · exact ((rising_sortDistinct _).filter _).imp utf8Bytes_lt_iff.mpr
  · exact fun found hfound => dependencies_eq_of_finds hfound accepts
  · exact dependencies_of_length_le hd c accepts

end Model
end Linkage
