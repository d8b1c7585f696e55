import Linkage.Proofs.Cycles
import Linkage.Proofs.Dependencies

/-!
Paths between members become paths between classes. Where no owner has a point, all members with one text have one
owner, so that a reference between two texts stays within a class or is one between classes. Without the steps that
stay, a path from text to text is one from class to class, and it is not longer. Hence the dependencies of a class can
be reached between the classes too, and classes that depend on each other stand in one cycle.
-/
namespace Linkage
namespace Model

section

variable {m : Model} {v w c o : String} (h : ∀ a ∈ m.mentioned, '.' ∉ a.owner.toList)

include h

/-- A text is owned by the owner of every member that has it. -/
theorem ownerOf?_text {a : Member} (ha : a ∈ m.mentioned) : m.ownerOf? a.text = some a.owner := by
  obtain ⟨o, ho⟩ := exists_ownerOf?_of_mem ha
  obtain ⟨b, hb, htext, rfl⟩ := ownerOf?_eq_some_iff.mp ho
  have hmentioned : b ∈ m.mentioned := List.mem_of_find?_eq_some ((mem_sortDistinctBy Member.text).mp hb)
  obtain rfl := Member.text_inj (h b hmentioned) (h a ha) htext
  exact ho

/-- The owners of the two ends of a reference. -/
theorem ownerOf?_ends {a : Access} (ha : a ∈ m.edges) :
    m.ownerOf? a.source.text = some a.source.owner ∧ m.ownerOf? a.dest.text = some a.dest.owner := by
  constructor
  · exact ownerOf?_text h (List.mem_flatMap.mpr ⟨a, ha, by simp⟩)
  · exact ownerOf?_text h (List.mem_flatMap.mpr ⟨a, ha, by simp⟩)

/-- A step between texts stays within a class or leads to another one. -/
theorem TextRefers.eq_or_refers (hstep : m.TextRefers v w) (hv : m.ownerOf? v = some c) (hw : m.ownerOf? w = some o) :
    c = o ∨ m.Refers c o := by
  obtain ⟨a, ha, rfl, rfl⟩ := hstep
  obtain ⟨hsource, hdest⟩ := ownerOf?_ends h ha
  obtain rfl : a.source.owner = c := Option.some.inj (hsource.symm.trans hv)
  obtain rfl : a.dest.owner = o := Option.some.inj (hdest.symm.trans hw)
  by_cases heq : a.source.owner = a.dest.owner
  · exact .inl heq
  · exact .inr ⟨heq, a, ha, rfl, rfl⟩

/-- A path between texts leads between their owners, with no more steps. -/
theorem leads_refers_of_leads {n : Nat} (hpath : Leads m.TextRefers n v w) (hv : m.ownerOf? v = some c)
    (hw : m.ownerOf? w = some o) : ∃ k ≤ n, Leads m.Refers k c o := by
  induction hpath generalizing o with
  | refl =>
    obtain rfl : c = o := Option.some.inj (hv.symm.trans hw)
    exact ⟨0, Nat.le_refl 0, .refl⟩
  | tail _ hlast ih =>
    obtain ⟨p, hp⟩ := hlast.exists_owners.1
    obtain ⟨k, hk, hbefore⟩ := ih hv hp
    rcases hlast.eq_or_refers h hp hw with rfl | hrefers
    · exact ⟨k, Nat.le_succ_of_le hk, hbefore⟩
    · exact ⟨k + 1, Nat.succ_le_succ hk, .tail hbefore hrefers⟩

/-- What a class depends on is reached from it between the classes, within the same depth. -/
theorem exists_leads_of_mem_dependencies {depth : Int} {accepts : String → Bool}
    (ho : o ∈ m.dependencies c (depthLimit depth) accepts) :
    ∃ n : Nat, 0 < n ∧ (depth ≤ 0 ∨ (n : Int) ≤ depth) ∧ Leads m.Refers n c o := by
  obtain ⟨hne, -, v, w, hv, hw, n, hlimit, hpath⟩ := mem_dependencies_iff.mp ho
  obtain ⟨k, hk, hclasses⟩ := leads_refers_of_leads h hpath hv hw
  have hpos : 0 < k := by
    rcases Nat.eq_zero_or_pos k with rfl | hpos
    · cases hclasses
      exact absurd rfl hne
    · exact hpos
  exact ⟨k, hpos, allows_depthLimit.mp (hlimit.mono hk), hclasses⟩

/-- A class that another one refers to is among its dependencies at every depth. -/
theorem Refers.mem_dependencies (hstep : m.Refers c o) (depth : Int) :
    o ∈ m.dependencies c (depthLimit depth) fun _ => true := by
  obtain ⟨hne, a, ha, rfl, rfl⟩ := hstep
  obtain ⟨hsource, hdest⟩ := ownerOf?_ends h ha
  have hpath : Leads m.TextRefers 1 a.source.text a.dest.text := .tail .refl ⟨a, ha, rfl, rfl⟩
  refine mem_dependencies_iff.mpr ⟨hne.symm, rfl, _, _, hsource, hdest, 1, allows_depthLimit.mpr ?_, hpath⟩
  omega

end

/-- Where no owner has a point, a class that another one depends on is reached from it in the graph of the classes, with
at most as many steps as a positive depth says. If each of two classes depends on the other, at whatever depths, they
stand in one cycle. And every class of a cycle depends on another class of it, the same one at every depth. -/
theorem dependencies_and_cycles (m : Model) (h : ∀ a ∈ m.mentioned, '.' ∉ a.owner.toList) :
    let answer (c : String) (depth : Int) : List String := m.dependencies c (depthLimit depth) fun _ => true
    (∀ a b depth, b ∈ answer a depth →
      (∃ n : Nat, 0 < n ∧ (depth ≤ 0 ∨ (n : Int) ≤ depth) ∧ Leads m.classGraph.Steps n a b) ∧
      ∀ depth', a ∈ answer b depth' → ∃ group ∈ m.cycles, a ∈ group ∧ b ∈ group) ∧
    ∀ group ∈ m.cycles, ∀ c ∈ group, ∃ d ∈ group, d ≠ c ∧ ∀ depth, d ∈ answer c depth := by
  intro answer
  refine ⟨fun a b depth hb => ⟨?_, fun depth' ha => ?_⟩, fun group hgroup c hc => ?_⟩
  · obtain ⟨n, hpos, hdepth, hpath⟩ := exists_leads_of_mem_dependencies h hb
    exact ⟨n, hpos, hdepth, hpath.mono fun v w => steps_classGraph.mpr⟩
  · have hne : a ≠ b := (mem_dependencies_iff.mp ha).1
    obtain ⟨n, -, -, hto⟩ := exists_leads_of_mem_dependencies h hb
    obtain ⟨n', -, -, hback⟩ := exists_leads_of_mem_dependencies h ha
    exact (exists_common_cycle_iff hne).mpr ⟨Leads.exists_iff.mp ⟨n, hto⟩, Leads.exists_iff.mp ⟨n', hback⟩⟩
  · obtain ⟨d, hd, hrefers⟩ := exists_refers_in_cycle hgroup hc
    exact ⟨d, hd, hrefers.1.symm, fun depth => hrefers.mem_dependencies h depth⟩

/-- Three classes that refer to each other in a circle, one of them by way of a member of its own. -/
def circle : Model where
  classes :=
    [⟨"A", "A.class", 1, [⟨⟨"A", "a"⟩, ⟨"B", "b"⟩⟩]⟩,
      ⟨"B", "B.class", 2, [⟨⟨"B", "b"⟩, ⟨"B", "c"⟩⟩, ⟨⟨"B", "c"⟩, ⟨"C", "d"⟩⟩]⟩,
      ⟨"C", "C.class", 3, [⟨⟨"C", "d"⟩, ⟨"A", "e"⟩⟩]⟩]
  rising := by decide

theorem circle_dependencies : "C" ∈ circle.dependencies "A" (depthLimit 0) (fun _ => true) ∧
    "A" ∈ circle.dependencies "C" (depthLimit 1) (fun _ => true) := by
  constructor
  · have hpath : Leads circle.TextRefers 3 "A.a" "C.d" :=
      .tail (.tail (.tail .refl ⟨⟨⟨"A", "a"⟩, ⟨"B", "b"⟩⟩, by decide, rfl, rfl⟩)
        ⟨⟨⟨"B", "b"⟩, ⟨"B", "c"⟩⟩, by decide, rfl, rfl⟩) ⟨⟨⟨"B", "c"⟩, ⟨"C", "d"⟩⟩, by decide, rfl, rfl⟩
    exact mem_dependencies_iff.mpr ⟨by decide, rfl, "A.a", "C.d", by decide, by decide, 3, nofun, hpath⟩
  · have hpath : Leads circle.TextRefers 1 "C.d" "A.e" :=
      .tail .refl ⟨⟨⟨"C", "d"⟩, ⟨"A", "e"⟩⟩, by decide, rfl, rfl⟩
    exact mem_dependencies_iff.mpr
      ⟨by decide, rfl, "C.d", "A.e", by decide, by decide, 1, allows_depthLimit.mpr (by decide), hpath⟩

theorem circle_consistent : (∀ a ∈ circle.mentioned, '.' ∉ a.owner.toList) ∧
    ∃ group ∈ circle.cycles, "A" ∈ group ∧ "C" ∈ group ∧
      ∃ d ∈ group, d ≠ "A" ∧ ∀ depth, d ∈ circle.dependencies "A" (depthLimit depth) fun _ => true := by
  have hundotted : ∀ a ∈ circle.mentioned, '.' ∉ a.owner.toList := by decide
  obtain ⟨hforth, hback⟩ := circle_dependencies
  obtain ⟨hreach, hcycle⟩ := dependencies_and_cycles circle hundotted
  obtain ⟨group, hgroup, ha, hc⟩ := (hreach "A" "C" 0 hforth).2 1 hback
  exact ⟨hundotted, group, hgroup, ha, hc, hcycle group hgroup "A" ha⟩

end Model
end Linkage
