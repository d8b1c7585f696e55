import Linkage.Model.Graph
import Linkage.Proofs.ByteOrder
import Linkage.Proofs.Distinct
import Linkage.Proofs.Reachability

/-!
The groups of classes that refer to each other in a circle. `Decomposes` says what strongly connected components are, in
whatever order and however they are found. `componentsAmong` finds them: the vertices that it takes out with one vertex
are linked to nothing that it leaves. From the classes of two and more vertices, sorted and put in the order of their
first vertex, comes one list only.
-/
namespace Linkage

variable {α : Type}

/-- Each of two elements leads to the other, or they are the same. -/
def Linked (R : α → α → Prop) (v w : α) : Prop := Relation.ReflTransGen R v w ∧ Relation.ReflTransGen R w v

namespace Linked

variable {R : α → α → Prop} {u v w : α}

theorem refl : Linked R v v := ⟨.refl, .refl⟩

theorem symm (h : Linked R v w) : Linked R w v := ⟨h.2, h.1⟩

theorem trans (h : Linked R u v) (h' : Linked R v w) : Linked R u w := ⟨h.1.trans h'.1, h'.2.trans h.2⟩

/-- Linked elements are linked to the same ones. -/
theorem congr_left (h : Linked R u v) : Linked R u w ↔ Linked R v w := ⟨h.symm.trans, h.trans⟩

theorem iff_transGen (hne : v ≠ w) : Linked R v w ↔ Relation.TransGen R v w ∧ Relation.TransGen R w v := by
  simp only [Linked, Relation.reflTransGen_iff_eq_or_transGen, hne, hne.symm, false_or]

end Linked

namespace Digraph

/-- The groups are the strongly connected components among some vertices. -/
structure Decomposes (g : Digraph α) (vs : List α) (groups : List (List α)) : Prop where
  nonempty : ∀ group ∈ groups, group ≠ []
  nodup : ∀ group ∈ groups, group.Nodup
  linked : ∀ group ∈ groups, ∀ v ∈ group, ∀ w, w ∈ group ↔ w ∈ vs ∧ Linked g.Steps v w
  covers : ∀ v ∈ vs, ∃ group ∈ groups, v ∈ group
  disjoint : groups.Pairwise List.Disjoint

section

variable {g : Digraph α} {vs : List α} {groups : List (List α)}

theorem Decomposes.mem_of_mem {group : List α} {v : α} (h : g.Decomposes vs groups) (hgroup : group ∈ groups)
    (hv : v ∈ group) : v ∈ vs :=
  ((h.linked group hgroup v hv v).mp hv).1

/-- A class of linked vertices can be put before the components of what it leaves. -/
theorem Decomposes.cons {group left : List α} {v : α} (hv : v ∈ vs) (hnodup : group.Nodup)
    (hgroup : ∀ w, w ∈ group ↔ w ∈ vs ∧ Linked g.Steps v w)
    (hleft : ∀ w, w ∈ left ↔ w ∈ vs ∧ ¬ Linked g.Steps v w) (h : g.Decomposes left groups) :
    g.Decomposes vs (group :: groups) where
  nonempty := by
    intro taken htaken
    rcases List.mem_cons.mp htaken with rfl | htaken
    · exact List.ne_nil_of_mem ((hgroup v).mpr ⟨hv, .refl⟩)
    · exact h.nonempty taken htaken
  nodup := by
    intro taken htaken
    rcases List.mem_cons.mp htaken with rfl | htaken
    · exact hnodup
    · exact h.nodup taken htaken
  linked := by
    intro taken htaken u hu w
    rcases List.mem_cons.mp htaken with rfl | htaken
    · rw [hgroup, ((hgroup u).mp hu).2.congr_left]
    · -- what is linked to a vertex that is left is left as well
      have hfree : ¬ Linked g.Steps v u := ((hleft u).mp (h.mem_of_mem htaken hu)).2
      rw [h.linked taken htaken u hu, hleft]
      constructor
      · exact fun hw => ⟨hw.1.1, hw.2⟩
      · exact fun hw => ⟨⟨hw.1, fun hvw => hfree (hvw.trans hw.2.symm)⟩, hw.2⟩
  covers := by
    intro w hw
    by_cases hlinked : Linked g.Steps v w
    · exact ⟨group, by simp, (hgroup w).mpr ⟨hw, hlinked⟩⟩
    · obtain ⟨taken, htaken, hmem⟩ := h.covers w ((hleft w).mpr ⟨hw, hlinked⟩)
      exact ⟨taken, by simp [htaken], hmem⟩
  disjoint := by
    refine List.pairwise_cons.mpr ⟨fun taken htaken w hw hw' => ?_, h.disjoint⟩
    exact ((hleft w).mp (h.mem_of_mem htaken hw')).2 ((hgroup w).mp hw).2

theorem steps_reverse {v w : α} : g.reverse.Steps v w ↔ g.Steps w v := by
  simp [Steps, reverse]

theorem transGen_reverse {v w : α} : Relation.TransGen g.reverse.Steps v w ↔ Relation.TransGen g.Steps w v := by
  have hsame : g.reverse.Steps = Function.swap g.Steps := by
    funext a b
    exact propext steps_reverse
  rw [hsame, Relation.transGen_swap]

end

section

variable [BEq α] [Hashable α] {g : Digraph α} {v w : α}

/-- A component lists its vertices in the order of all. -/
theorem sublist_of_mem_componentsAmong {vs group : List α} (h : group ∈ g.componentsAmong vs) : group.Sublist vs := by
  fun_induction g.componentsAmong vs with
  | case1 => simp at h
  | case2 v rest set ih =>
    rcases List.mem_cons.mp h with rfl | h
    · exact List.filter_sublist.cons_cons v
    · exact ((ih h).trans List.filter_sublist).cons v

/-- The components stand in the order of their first vertices. -/
theorem heads_componentsAmong_sublist (g : Digraph α) (vs : List α) :
    ((g.componentsAmong vs).filterMap List.head?).Sublist vs := by
  fun_induction g.componentsAmong vs with
  | case1 => exact .slnil
  | case2 v rest set ih => exact (ih.trans List.filter_sublist).cons_cons v

variable [LawfulBEq α]

/-- Where all edges lead to vertices, a search without a limit finds what any path leads to. -/
theorem contains_reach (hheads : ∀ v w, g.Steps v w → w ∈ g.vertices) :
    (g.reach v).contains w = true ↔ Relation.TransGen g.Steps v w := by
  have hsame : (fun a b => g.Steps a b ∧ b ∈ g.vertices) = g.Steps := by
    funext a b
    exact propext (and_iff_left_of_imp (hheads a b))
  simp only [reach, Std.HashSet.contains_ofList, List.contains_iff_mem, mem_reachAmong, Reached, List.mem_singleton,
    exists_eq_left, Allows, Option.mem_def, reduceCtorEq, false_implies, implies_true, true_and, hsame]
  exact Leads.exists_pos_iff

theorem contains_equivalents (hends : ∀ v w, g.Steps v w → v ∈ g.vertices ∧ w ∈ g.vertices) (hne : v ≠ w) :
    (g.equivalents v).contains w = true ↔ Linked g.Steps v w := by
  have hback : (g.reverse.reach v).contains w = true ↔ Relation.TransGen g.Steps w v := by
    rw [contains_reach fun a b h => (hends b a (steps_reverse.mp h)).1, transGen_reverse]
  rw [Linked.iff_transGen hne, ← contains_reach fun a b h => (hends a b h).2, ← hback]
  simp [equivalents]

theorem decomposes_componentsAmong (hends : ∀ v w, g.Steps v w → v ∈ g.vertices ∧ w ∈ g.vertices) {vs : List α}
    (hnodup : vs.Nodup) : g.Decomposes vs (g.componentsAmong vs) := by
  fun_induction g.componentsAmong vs with
  | case1 => exact ⟨by simp, by simp, by simp, by simp, .nil⟩
  | case2 v rest group ih =>
    obtain ⟨hfresh, hrest⟩ := List.nodup_cons.mp hnodup
    have hgroup {w : α} (hw : w ∈ rest) : group.contains w = true ↔ Linked g.Steps v w :=
      contains_equivalents hends fun heq => hfresh (heq ▸ hw)
    refine .cons (List.mem_cons_self) ?_ (fun w => ?_) (fun w => ?_) (ih (hrest.filter _))
    · exact List.nodup_cons.mpr ⟨fun h => hfresh (mem_within.mp h).1, hrest.filter _⟩
    · rw [List.mem_cons, List.mem_cons, mem_within]
      constructor
      · rintro (rfl | ⟨hw, hc⟩)
        · exact ⟨.inl rfl, .refl⟩
        · exact ⟨.inr hw, (hgroup hw).mp hc⟩
      · rintro ⟨rfl | hw, hlinked⟩
        · exact .inl rfl
        · exact .inr ⟨hw, (hgroup hw).mpr hlinked⟩
    · rw [List.mem_cons, mem_without]
      constructor
      · exact fun ⟨hw, hc⟩ => ⟨.inr hw, fun hlinked => hc ((hgroup hw).mpr hlinked)⟩
      · rintro ⟨rfl | hw, hfree⟩
        · exact absurd .refl hfree
        · exact ⟨hw, fun hc => hfree ((hgroup hw).mp hc)⟩

end

end Digraph

/-- The list begins with a smaller text than the other one. -/
def Before (a b : List String) : Prop := ∃ v ∈ a.head?, ∃ w ∈ b.head?, utf8Bytes v < utf8Bytes w

theorem Before.asymm {a b : List String} (h : Before a b) : ¬ Before b a := by
  rintro ⟨v, hv, w, hw, hlt⟩
  obtain ⟨v', hv', w', hw', hlt'⟩ := h
  obtain rfl : v' = w := Option.some.inj (hv'.symm.trans hw)
  obtain rfl : w' = v := Option.some.inj (hw'.symm.trans hv)
  exact lt_asymm (utf8Bytes_lt_iff.mp hlt) (utf8Bytes_lt_iff.mp hlt')

namespace Model

/-- The first class refers to the second, which is another one. -/
def Refers (m : Model) (v w : String) : Prop := v ≠ w ∧ ∃ a ∈ m.edges, a.source.owner = v ∧ a.dest.owner = w

/-- The groups of two and more, each of them sorted. -/
def sortedGroups (found : List (List String)) : List (List String) :=
  (found.filter fun group => 2 ≤ group.length).map fun group => group.mergeSort fun a b => decide (a ≤ b)

/-- The sorted groups are put in the order of their first texts. -/
def Arranges (found result : List (List String)) : Prop :=
  result.Perm (sortedGroups found) ∧ result.Pairwise fun a b => ∀ v ∈ a.head?, ∀ w ∈ b.head?, v ≤ w

variable {m : Model} {v w : String}

theorem mem_classLinks : (v, w) ∈ m.classLinks ↔ m.Refers v w := by
  simp only [classLinks, List.mem_filter, List.mem_map, Prod.mk.injEq, bne_iff_ne, Refers]
  exact and_comm

theorem steps_classGraph : m.classGraph.Steps v w ↔ m.Refers v w := by
  rw [← mem_classLinks]
  exact List.mem_eraseDups

theorem mem_classGraph_vertices : v ∈ m.classGraph.vertices ↔ ∃ w, m.Refers v w ∨ m.Refers w v := by
  simp only [classGraph, mem_sortDistinct, List.mem_flatMap, Prod.exists, mem_classLinks, List.mem_cons,
    List.not_mem_nil, or_false]
  constructor
  · rintro ⟨a, b, h, rfl | rfl⟩
    · exact ⟨b, .inl h⟩
    · exact ⟨a, .inr h⟩
  · rintro ⟨w, h | h⟩
    · exact ⟨v, w, h, .inl rfl⟩
    · exact ⟨w, v, h, .inr rfl⟩

theorem linked_classGraph : Linked m.classGraph.Steps v w ↔ Linked m.Refers v w := by
  have hsame : m.classGraph.Steps = m.Refers := by
    funext a b
    exact propext steps_classGraph
  rw [hsame]

/-- A class that is linked to another one is a vertex. -/
theorem mem_vertices_of_linked (hne : v ≠ w) (h : Linked m.Refers v w) : v ∈ m.classGraph.vertices := by
  obtain ⟨u, hstep, -⟩ := (Relation.ReflTransGen.cases_head h.1).resolve_left hne
  exact mem_classGraph_vertices.mpr ⟨u, .inl hstep⟩

theorem decomposes_components (m : Model) :
    m.classGraph.Decomposes m.classGraph.vertices m.classGraph.components := by
  refine Digraph.decomposes_componentsAmong (fun v w h => ?_) ((rising_sortDistinct _).imp ne_of_lt)
  have hrefers := steps_classGraph.mp h
  exact ⟨mem_classGraph_vertices.mpr ⟨w, .inl hrefers⟩, mem_classGraph_vertices.mpr ⟨v, .inr hrefers⟩⟩

section

variable {found result : List (List String)} {group : List String}

/-- A component is all that is linked to one of its classes. -/
theorem mem_component_iff (h : m.classGraph.Decomposes m.classGraph.vertices found) (hgroup : group ∈ found)
    (hv : v ∈ group) : w ∈ group ↔ Linked m.Refers v w := by
  rw [h.linked group hgroup v hv, linked_classGraph]
  refine and_iff_right_of_imp fun hlinked => ?_
  by_cases heq : w = v
  · exact heq ▸ h.mem_of_mem hgroup hv
  · exact mem_vertices_of_linked heq hlinked.symm

theorem exists_other (hnodup : group.Nodup) (htwo : 2 ≤ group.length) (v : String) : ∃ w ∈ group, w ≠ v := by
  by_contra hnone
  have hsub : group ⊆ [v] := fun w hw => by simpa using not_not.mp fun hne => hnone ⟨w, hw, hne⟩
  have hle := (hnodup.subperm hsub).length_le
  simp only [List.length_singleton] at hle
  omega

/-- In whatever order they list them, the components of two and more classes are the classes of two and more elements
of the linkage. -/
theorem exists_perm_iff (h : m.classGraph.Decomposes m.classGraph.vertices found) (hnodup : group.Nodup) :
    (∃ taken ∈ found, 2 ≤ taken.length ∧ group.Perm taken) ↔
      2 ≤ group.length ∧ ∃ v, ∀ w, w ∈ group ↔ Linked m.Refers v w := by
  constructor
  · rintro ⟨taken, htaken, htwo, hperm⟩
    obtain ⟨v, hv⟩ := List.exists_mem_of_ne_nil taken (h.nonempty taken htaken)
    exact ⟨hperm.length_eq ▸ htwo, v, fun w => hperm.mem_iff.trans (mem_component_iff h htaken hv)⟩
  · rintro ⟨htwo, v, hclass⟩
    obtain ⟨w, hw, hne⟩ := exists_other hnodup htwo v
    obtain ⟨taken, htaken, hv⟩ := h.covers v (mem_vertices_of_linked hne.symm ((hclass w).mp hw))
    have hperm : group.Perm taken := (List.perm_ext_iff_of_nodup hnodup (h.nodup taken htaken)).mpr fun u => by
      rw [hclass, mem_component_iff h htaken hv]
    exact ⟨taken, htaken, hperm.length_eq ▸ htwo, hperm⟩

theorem mem_sortedGroups (hnodup : ∀ taken ∈ found, taken.Nodup) :
    group ∈ sortedGroups found ↔
      group.Pairwise (· < ·) ∧ ∃ taken ∈ found, 2 ≤ taken.length ∧ group.Perm taken := by
  simp only [sortedGroups, List.mem_map, List.mem_filter, decide_eq_true_eq]
  constructor
  · rintro ⟨taken, ⟨htaken, htwo⟩, rfl⟩
    exact ⟨rising_mergeSort (hnodup taken htaken), taken, htaken, htwo, List.mergeSort_perm _ _⟩
  · rintro ⟨hrising, taken, htaken, htwo, hperm⟩
    refine ⟨taken, ⟨htaken, htwo⟩, ?_⟩
    exact ((List.mergeSort_perm _ _).trans hperm.symm).eq_of_pairwise
      (fun _ _ _ _ hlt hgt => absurd hgt (lt_asymm hlt)) (rising_mergeSort (hnodup taken htaken)) hrising

theorem disjoint_sortedGroups (hdisjoint : found.Pairwise List.Disjoint) :
    (sortedGroups found).Pairwise List.Disjoint := by
  refine List.pairwise_map.mpr ((hdisjoint.filter _).imp fun hab v hv hv' => ?_)
  exact hab (List.mem_mergeSort.mp hv) (List.mem_mergeSort.mp hv')

theorem exists_head_of_mem_sortedGroups (hgroup : group ∈ sortedGroups found) : ∃ v ∈ group.head?, v ∈ group := by
  obtain ⟨taken, htaken, rfl⟩ := List.mem_map.mp hgroup
  have htwo : 2 ≤ (taken.mergeSort fun a b => decide (a ≤ b)).length := by
    rw [List.length_mergeSort]
    exact of_decide_eq_true (List.mem_filter.mp htaken).2
  cases hsorted : taken.mergeSort fun a b => decide (a ≤ b) with
  | nil => simp [hsorted] at htwo
  | cons v rest => exact ⟨v, rfl, List.mem_cons_self⟩

theorem mem_sortedGroups_iff (h : m.classGraph.Decomposes m.classGraph.vertices found) :
    group ∈ sortedGroups found ↔
      2 ≤ group.length ∧ group.Pairwise (· < ·) ∧ ∃ v, ∀ w, w ∈ group ↔ Linked m.Refers v w := by
  rw [mem_sortedGroups h.nodup, and_left_comm]
  exact and_congr_right fun hrising => exists_perm_iff h (hrising.imp ne_of_lt)

/-- Whatever finds the components, the sorted groups are the same. -/
theorem perm_sortedGroups {found' : List (List String)} (h : m.classGraph.Decomposes m.classGraph.vertices found)
    (h' : m.classGraph.Decomposes m.classGraph.vertices found') : (sortedGroups found).Perm (sortedGroups found') := by
  have hnodup {found : List (List String)} (h : m.classGraph.Decomposes m.classGraph.vertices found) :
      (sortedGroups found).Nodup := by
    refine (disjoint_sortedGroups h.disjoint).imp_of_mem fun ha _ hab heq => ?_
    obtain ⟨v, -, hv⟩ := exists_head_of_mem_sortedGroups ha
    exact hab hv (heq ▸ hv)
  refine (List.perm_ext_iff_of_nodup (hnodup h) (hnodup h')).mpr fun group => ?_
  rw [mem_sortedGroups_iff h, mem_sortedGroups_iff h']

/-- Disjoint groups have distinct first texts, so that the order of the groups is strict. -/
theorem Arranges.pairwise_before (h : Arranges found result) (hdisjoint : found.Pairwise List.Disjoint) :
    result.Pairwise fun a b => a.Disjoint b ∧ Before a b := by
  have hsorted : result.Pairwise List.Disjoint :=
    (h.1.pairwise_iff List.Disjoint.symm).mpr (disjoint_sortedGroups hdisjoint)
  refine (hsorted.and h.2).imp_of_mem fun {a b} ha hb ⟨hab, hle⟩ => ⟨hab, ?_⟩
  obtain ⟨v, hv, hva⟩ := exists_head_of_mem_sortedGroups (h.1.mem_iff.mp ha)
  obtain ⟨w, hw, hwb⟩ := exists_head_of_mem_sortedGroups (h.1.mem_iff.mp hb)
  refine ⟨v, hv, w, hw, utf8Bytes_lt_iff.mpr (lt_of_le_of_ne (hle v hv w hw) ?_)⟩
  rintro rfl
  exact hab hva hwb

end

/-- The components come sorted and ordered already, since the vertices are. -/
theorem arranges_cycles (m : Model) : Arranges m.classGraph.components m.cycles := by
  have hvertices : m.classGraph.vertices.Pairwise (· < ·) := rising_sortDistinct _
  constructor
  · have hsorted : ∀ group ∈ m.cycles, (group.mergeSort fun a b => decide (a ≤ b)) = group := by
      intro group hgroup
      have hsub := Digraph.sublist_of_mem_componentsAmong (List.mem_filter.mp hgroup).1
      refine List.mergeSort_of_pairwise ((hvertices.sublist hsub).imp fun hlt => ?_)
      exact decide_eq_true (le_of_lt hlt)
    have hsame : m.cycles.map (fun group => group.mergeSort fun a b => decide (a ≤ b)) = m.cycles := by
      rw [List.map_congr_left hsorted, List.map_id']
    exact .of_eq hsame.symm
  · have hheads := Digraph.heads_componentsAmong_sublist m.classGraph m.classGraph.vertices
    have hsub : (m.cycles.filterMap List.head?).Sublist m.classGraph.vertices :=
      (List.filter_sublist.filterMap _).trans hheads
    exact List.pairwise_filterMap.mp ((hvertices.sublist hsub).imp le_of_lt)

theorem mem_cycles_iff {group : List String} :
    group ∈ m.cycles ↔ 2 ≤ group.length ∧ group.Pairwise (· < ·) ∧ ∃ v, ∀ w, w ∈ group ↔ Linked m.Refers v w := by
  rw [m.arranges_cycles.1.mem_iff, mem_sortedGroups_iff m.decomposes_components]

/-- Components, in whatever order they are found, can be arranged in one way only. -/
theorem arranges_iff {found result : List (List String)}
    (h : m.classGraph.Decomposes m.classGraph.vertices found) : Arranges found result ↔ result = m.cycles := by
  have hfound := m.decomposes_components
  have hcycles := m.arranges_cycles
  constructor
  · intro hresult
    have hperm : result.Perm m.cycles := hresult.1.trans ((perm_sortedGroups h hfound).trans hcycles.1.symm)
    exact hperm.eq_of_pairwise (fun _ _ _ _ hab hba => absurd hba.2 hab.2.asymm) (hresult.pairwise_before h.disjoint)
      (hcycles.pairwise_before hfound.disjoint)
  · rintro rfl
    exact ⟨hcycles.1.trans (perm_sortedGroups hfound h), hcycles.2⟩

/-- Two distinct classes stand in one cycle where each leads to the other. -/
theorem exists_common_cycle_iff (hne : v ≠ w) :
    (∃ group ∈ m.cycles, v ∈ group ∧ w ∈ group) ↔ Linked m.Refers v w := by
  have hfound := m.decomposes_components
  constructor
  · rintro ⟨group, hgroup, hv, hw⟩
    exact (mem_component_iff hfound (List.mem_filter.mp hgroup).1 hv).mp hw
  · intro hlinked
    obtain ⟨group, hgroup, hv⟩ := hfound.covers v (mem_vertices_of_linked hne hlinked)
    have hw : w ∈ group := (mem_component_iff hfound hgroup hv).mpr hlinked
    have htwo : 2 ≤ group.length := by
      have hpair : [v, w].Nodup := by simp [hne]
      exact (hpair.subperm (by simp [hv, hw])).length_le
    exact ⟨group, List.mem_filter.mpr ⟨hgroup, decide_eq_true htwo⟩, hv, hw⟩

/-- A class in a cycle refers to another one of the cycle. -/
theorem exists_refers_in_cycle {group : List String} (hgroup : group ∈ m.cycles) (hv : v ∈ group) :
    ∃ w ∈ group, m.Refers v w := by
  have hclass {w : String} : w ∈ group ↔ Linked m.Refers v w :=
    mem_component_iff m.decomposes_components (List.mem_filter.mp hgroup).1 hv
  obtain ⟨htwo, hrising, -⟩ := mem_cycles_iff.mp hgroup
  obtain ⟨w, hw, hne⟩ := exists_other (hrising.imp ne_of_lt) htwo v
  have hlinked := hclass.mp hw
  obtain ⟨u, hstep, hrest⟩ := (Relation.ReflTransGen.cases_head hlinked.1).resolve_left hne.symm
  exact ⟨u, hclass.mpr ⟨.single hstep, hrest.trans hlinked.2⟩, hstep⟩

theorem exists_refers_of_mem_cycle {group : List String} (hgroup : group ∈ m.cycles) (hv : v ∈ group) :
    ∃ w, m.Refers v w := by
  obtain ⟨w, -, hstep⟩ := exists_refers_in_cycle hgroup hv
  exact ⟨w, hstep⟩

/-- The graph has an edge for each two distinct owners with a reference between them, and its vertices are the ends of
the edges. The cycles are the classes of two and more elements of the linkage, each in rising byte order; they are
disjoint and rise with their first elements. Two distinct classes share a cycle where each leads to the other, and a
class that refers to no other one is in none. From the components in any order, sorting makes this list and no other. -/
theorem cycles_linked (m : Model) :
    ((∀ v w, (v, w) ∈ m.classGraph.edges ↔ m.Refers v w) ∧
      ∀ v, v ∈ m.classGraph.vertices ↔ ∃ w, m.Refers v w ∨ m.Refers w v) ∧
    (∀ group, group ∈ m.cycles ↔ 2 ≤ group.length ∧ group.Pairwise (fun v w => utf8Bytes v < utf8Bytes w) ∧
      ∃ v, ∀ w, w ∈ group ↔ Linked m.Refers v w) ∧
    m.cycles.Pairwise (fun a b => a.Disjoint b ∧ Before a b) ∧
    (∀ v w, v ≠ w → ((∃ group ∈ m.cycles, v ∈ group ∧ w ∈ group) ↔ Linked m.Refers v w)) ∧
    (∀ v, (∀ a ∈ m.edges, a.source.owner = v → a.dest.owner = v) → ∀ group ∈ m.cycles, v ∉ group) ∧
    m.classGraph.Decomposes m.classGraph.vertices m.classGraph.components ∧
    ∀ found result, m.classGraph.Decomposes m.classGraph.vertices found →
      (Arranges found result ↔ result = m.cycles) := by
  refine ⟨⟨fun v w => steps_classGraph, fun v => mem_classGraph_vertices⟩, fun group => ?_,
    m.arranges_cycles.pairwise_before m.decomposes_components.disjoint, fun v w => exists_common_cycle_iff,
    fun v hself group hgroup hv => ?_, m.decomposes_components, fun found result => arranges_iff⟩
  · simp only [utf8Bytes_lt_iff]
    exact mem_cycles_iff
  · obtain ⟨w, hne, a, ha, hsource, hdest⟩ := exists_refers_of_mem_cycle hgroup hv
    exact hne ((hself a ha hsource).symm.trans hdest)

end Model
end Linkage
