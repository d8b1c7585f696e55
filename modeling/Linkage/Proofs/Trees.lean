import Linkage.Location
import Linkage.Proofs.CleanPaths
import Linkage.Proofs.Run

/-! Well-formed trees, and what names lead to in them. -/
namespace Linkage

open Linkage.Path

namespace FileTree

/-- In every directory the entries have names, and different ones. -/
inductive WellFormed : FileTree → Prop
  | file (data : Bytes) : WellFormed (.file data)
  | directory {cs : List (String × FileTree)} (names : ∀ c ∈ cs, IsName c.1) (distinct : (cs.map (·.1)).Nodup)
    (below : ∀ c ∈ cs, WellFormed c.2) : WellFormed (.directory cs)

mutual

def isWellFormed : FileTree → Bool
  | .file _ => true
  | .directory cs => (cs.map (·.1)).Nodup && areWellFormed cs

def areWellFormed : List (String × FileTree) → Bool
  | [] => true
  | (n, t) :: rest => decide (IsName n) && t.isWellFormed && areWellFormed rest

end

mutual

theorem isWellFormed_iff (t : FileTree) : t.isWellFormed ↔ t.WellFormed := by
  cases t with
  | file data => simp [isWellFormed, WellFormed.file]
  | directory cs =>
    rw [isWellFormed, Bool.and_eq_true, decide_eq_true_eq, areWellFormed_iff cs]
    constructor
    · rintro ⟨distinct, h⟩
      exact .directory (fun c hc => (h c hc).1) distinct fun c hc => (h c hc).2
    · rintro (_ | ⟨names, distinct, below⟩)
      exact ⟨distinct, fun c hc => ⟨names c hc, below c hc⟩⟩

theorem areWellFormed_iff (cs : List (String × FileTree)) :
    areWellFormed cs ↔ ∀ c ∈ cs, IsName c.1 ∧ c.2.WellFormed := by
  match cs with
  | [] => simp [areWellFormed]
  | (n, t) :: rest => simp [areWellFormed, isWellFormed_iff t, areWellFormed_iff rest]

end

instance (t : FileTree) : Decidable t.WellFormed := decidable_of_iff _ (isWellFormed_iff t)

/-- The names lead from one tree to another. -/
inductive LeadsTo : FileTree → List String → FileTree → Prop
  | here (tree : FileTree) : LeadsTo tree [] tree
  | into {cs : List (String × FileTree)} {n : String} {child tree : FileTree} {ns : List String} (hmem : (n, child) ∈ cs)
    (h : LeadsTo child ns tree) : LeadsTo (.directory cs) (n :: ns) tree

theorem lookup_eq_some_iff {cs : List (String × FileTree)} (hd : (cs.map (·.1)).Nodup) {n : String} {t : FileTree} :
    cs.lookup n = some t ↔ (n, t) ∈ cs := by
  induction cs with
  | nil => simp
  | cons c cs ih =>
    obtain ⟨name, child⟩ := c
    obtain ⟨hfresh, hd⟩ := List.nodup_cons.mp hd
    by_cases hn : n = name
    · subst hn
      have hother : (n, t) ∉ cs := fun hmem => hfresh (List.mem_map.mpr ⟨_, hmem, rfl⟩)
      simp [hother, eq_comm]
    · rw [List.lookup_cons, beq_false_of_ne hn]
      simpa [hn] using ih hd

theorem follow_name {n : String} (hn : IsName n) (above : List FileTree) (cs : List (String × FileTree))
    (ns : List String) :
    follow above (.directory cs) (n :: ns) = match cs.lookup n with
      | none => .error .notExist
      | some child => follow (.directory cs :: above) child ns := by
  conv => lhs; unfold follow
  exact (if_neg (by simp [hn.1, hn.2.1])).trans (if_neg hn.2.2.1)

theorem follow_eq_ok_iff {tree t : FileTree} (hw : tree.WellFormed) {ns : List String} (hns : ∀ n ∈ ns, IsName n)
    (above : List FileTree) : follow above tree ns = .ok t ↔ LeadsTo tree ns t := by
  induction ns generalizing tree above with
  | nil =>
    constructor
    · rintro ⟨⟩
      exact .here t
    · rintro ⟨⟩
      rfl
  | cons n ns ih =>
    obtain ⟨hn, hns⟩ := List.forall_mem_cons.mp hns
    cases hw with
    | file data =>
      constructor
      · rintro ⟨⟩
      · rintro ⟨⟩
    | @directory cs names distinct below =>
      rw [follow_name hn]
      cases hchild : cs.lookup n with
      | none =>
        constructor
        · rintro ⟨⟩
        · rintro (_ | ⟨hmem, -⟩)
          rw [(lookup_eq_some_iff distinct).mpr hmem] at hchild
          cases hchild
      | some child =>
        have hmem := (lookup_eq_some_iff distinct).mp hchild
        refine (ih (below _ hmem) hns _).trans ⟨.into hmem, ?_⟩
        rintro (_ | ⟨hmem', h⟩)
        rw [(lookup_eq_some_iff distinct).mpr hmem'] at hchild
        cases hchild
        exact h

namespace LeadsTo

variable {tree t : FileTree} {ns : List String}

theorem wellFormed_and_names (h : LeadsTo tree ns t) (hw : tree.WellFormed) : t.WellFormed ∧ ∀ n ∈ ns, IsName n := by
  induction h with
  | here => exact ⟨hw, by simp⟩
  | into hmem _ ih =>
    cases hw with
    | directory names distinct below =>
      obtain ⟨ht, hns⟩ := ih (below _ hmem)
      exact ⟨ht, List.forall_mem_cons.mpr ⟨names _ hmem, hns⟩⟩

/-- The last name is that of an entry in the directory that the others lead to. -/
theorem append_iff {n : String} : LeadsTo tree (ns ++ [n]) t ↔ ∃ cs, LeadsTo tree ns (.directory cs) ∧ (n, t) ∈ cs := by
  induction ns generalizing tree with
  | nil =>
    constructor
    · rintro (_ | ⟨hmem, ⟨⟩⟩)
      exact ⟨_, .here _, hmem⟩
    · rintro ⟨cs, ⟨⟩, hmem⟩
      exact .into hmem (.here t)
  | cons m ns ih =>
    constructor
    · rintro (_ | ⟨hmem, h⟩)
      obtain ⟨cs, hcs, ht⟩ := ih.mp h
      exact ⟨cs, .into hmem hcs, ht⟩
    · rintro ⟨cs, (_ | ⟨hmem, h⟩), ht⟩
      exact .into hmem (ih.mpr ⟨cs, h, ht⟩)

end LeadsTo

/-! Finding. -/

section

variable {tree t : FileTree} {ns : List String}

theorem find_ofNames (hd : tree.isDirectory) (hw : tree.WellFormed) (hns : ∀ n ∈ ns, IsName n) :
    tree.find (ofNames ns) = .ok t ↔ LeadsTo tree ns t := by
  rw [find, parts_ofNames hns]
  dsimp only
  split
  · next hnil =>
    subst hnil
    cases tree with
    | file data => cases hd
    | directory cs => exact follow_eq_ok_iff hw hns []
  · exact follow_eq_ok_iff hw hns []

theorem existsAt_iff (hd : tree.isDirectory) (hw : tree.WellFormed) (hns : ∀ n ∈ ns, IsName n) :
    tree.existsAt (ofNames ns) ↔ ∃ t, LeadsTo tree ns t := by
  simp only [← find_ofNames hd hw hns, existsAt]
  cases tree.find (ofNames ns) <;> simp [Except.toOption]

theorem isDirectoryAt_iff (hd : tree.isDirectory) (hw : tree.WellFormed) (hns : ∀ n ∈ ns, IsName n) :
    tree.isDirectoryAt (ofNames ns) ↔ ∃ cs, LeadsTo tree ns (.directory cs) := by
  simp only [← find_ofNames hd hw hns, isDirectoryAt]
  cases tree.find (ofNames ns) with
  | error => simp [Except.toOption]
  | ok found => cases found <;> simp [Except.toOption, isDirectory]

theorem list_of_leads (hd : tree.isDirectory) (hw : tree.WellFormed) {cs : List (String × FileTree)}
    (h : LeadsTo tree ns (.directory cs)) :
    tree.list (ofNames ns) = .ok (cs.mergeSort fun a b => decide (a.1 ≤ b.1)) := by
  have hfind := (find_ofNames hd hw (h.wellFormed_and_names hw).2).mpr h
  rw [list, findFor, hfind]
  rfl

/-- What can be listed is a directory. -/
theorem leads_of_list (hd : tree.isDirectory) (hw : tree.WellFormed) (hns : ∀ n ∈ ns, IsName n)
    {entries : List (String × FileTree)} (h : tree.list (ofNames ns) = .ok entries) :
    ∃ cs, LeadsTo tree ns (.directory cs) ∧ entries = cs.mergeSort fun a b => decide (a.1 ≤ b.1) := by
  cases hfind : tree.find (ofNames ns) with
  | error fault =>
    rw [list, findFor, hfind] at h
    cases h
  | ok found =>
    cases found with
    | file data =>
      rw [list, findFor, hfind] at h
      cases h
    | directory cs =>
      have hcs := (find_ofNames hd hw hns).mp hfind
      exact ⟨cs, hcs, Except.ok.inj (h.symm.trans (list_of_leads hd hw hcs))⟩

/-- The entries that are listed are those that names lead to. -/
theorem entries_of_list (hd : tree.isDirectory) (hw : tree.WellFormed) (hns : ∀ n ∈ ns, IsName n)
    {entries : List (String × FileTree)} (h : tree.list (ofNames ns) = .ok entries) :
    (entries.map (·.1)).Nodup ∧ ∀ n t, (n, t) ∈ entries ↔ LeadsTo tree (ns ++ [n]) t := by
  obtain ⟨cs, hcs, rfl⟩ := leads_of_list hd hw hns h
  constructor
  · have hperm := (List.mergeSort_perm cs fun a b => decide (a.1 ≤ b.1)).map (·.1)
    cases (hcs.wellFormed_and_names hw).1 with
    | directory names distinct below => exact hperm.nodup_iff.mpr distinct
  · intro n t
    rw [List.mem_mergeSort, LeadsTo.append_iff]
    refine ⟨fun hmem => ⟨cs, hcs, hmem⟩, ?_⟩
    rintro ⟨cs', hcs', hmem⟩
    have hfind := (find_ofNames hd hw hns).mpr hcs
    rw [(find_ofNames hd hw hns).mpr hcs'] at hfind
    cases hfind
    exact hmem

end

end FileTree

/-- Paths are seen from an absolute one, and the files are in directories. -/
structure Workplace.WellFormed (place : Workplace) : Prop where
  working : isRooted place.working
  directory : place.files.isDirectory
  files : place.files.WellFormed

instance (place : Workplace) : Decidable place.WellFormed :=
  decidable_of_iff (isRooted place.working ∧ place.files.isDirectory ∧ place.files.WellFormed)
    ⟨fun h => ⟨h.1, h.2.1, h.2.2⟩, fun h => ⟨h.working, h.directory, h.files⟩⟩

end Linkage
