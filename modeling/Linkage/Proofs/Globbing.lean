import Mathlib.Data.List.Forall2
import Mathlib.Data.List.Nodup
import Linkage.Proofs.Stars
import Linkage.Proofs.Trees

/-!
The paths that a pattern for paths finds: those in which every name is matched by the pattern at its place.
-/
namespace Linkage

open Linkage.Path Linkage.FileTree

theorem forall₂_append_singleton_iff {α β : Type} {R : α → β → Prop} {as : List α} {a : α} {bs : List β} :
    List.Forall₂ R (as ++ [a]) bs ↔ ∃ bs' b, bs = bs' ++ [b] ∧ List.Forall₂ R as bs' ∧ R a b := by
  induction as generalizing bs with
  | nil =>
    constructor
    · rintro (_ | ⟨h, ⟨⟩⟩)
      exact ⟨[], _, rfl, .nil, h⟩
    · rintro ⟨_, b, rfl, ⟨⟩, h⟩
      exact .cons h .nil
  | cons x as ih =>
    constructor
    · rintro (_ | ⟨h, hs⟩)
      obtain ⟨bs', b, rfl, hs, hb⟩ := ih.mp hs
      exact ⟨_ :: bs', b, rfl, .cons h hs, hb⟩
    · rintro ⟨_, b, rfl, (_ | ⟨h, hs⟩), hb⟩
      exact .cons h (ih.mpr ⟨_, b, rfl, hs, hb⟩)

namespace Glob

theorem hasMeta_ofNames {ns : List String} : hasMeta (ofNames ns) = false ↔ ∀ n ∈ ns, hasMeta n = false := by
  simp only [hasMeta_eq_false_iff]
  exact forall_mem_ofNames (by simp [Plain])

theorem simple_of_mem_parts {pattern : String} (h : ∀ c ∈ pattern.toList, Simple c) :
    ∀ n ∈ parts pattern, ∀ c ∈ n.toList, Simple c := by
  rw [← forall_mem_ofNames (by simp [Simple]), ofNames_parts, String.toList_append]
  simpa [Simple] using h

/-- Every name is matched by the pattern at its place. -/
def Matches (parts names : List String) : Prop := List.Forall₂ (fun part n => matchName part n = .ok true) parts names

theorem matches_simple_iff {parts ns : List String} (hparts : ∀ part ∈ parts, ∀ c ∈ part.toList, Simple c)
    (hns : ∀ n ∈ ns, IsName n) :
    Matches parts ns ↔ List.Forall₂ (fun part n => Covers part.toList n.toList) parts ns := by
  unfold Matches
  induction parts generalizing ns with
  | nil => cases ns <;> simp
  | cons part parts ih =>
    obtain ⟨hpart, hparts⟩ := List.forall_mem_cons.mp hparts
    cases ns with
    | nil => simp
    | cons n ns =>
      obtain ⟨hn, hns⟩ := List.forall_mem_cons.mp hns
      obtain ⟨b, hb, hcovers⟩ := matchName_simple hpart hn.2.2.2
      rw [List.forall₂_cons, List.forall₂_cons, ih hparts hns, ← hcovers, hb, Except.ok.injEq]

/-- Names that nothing stands in for stand for themselves. -/
theorem matches_append_iff {parts rest ns : List String} (hparts : ∀ part ∈ parts, hasMeta part = false)
    (hns : ∀ n ∈ ns, IsName n) : Matches (parts ++ rest) ns ↔ ∃ s, ns = parts ++ s ∧ Matches rest s := by
  induction parts generalizing ns with
  | nil => simp
  | cons part parts ih =>
    obtain ⟨hpart, hparts⟩ := List.forall_mem_cons.mp hparts
    cases ns with
    | nil => simp [Matches]
    | cons n ns =>
      obtain ⟨hn, hns⟩ := List.forall_mem_cons.mp hns
      have hrest : List.Forall₂ _ (parts ++ rest) ns ↔ _ := ih hparts hns
      rw [Matches, List.cons_append, List.forall₂_cons, matchName_literal hpart hn.2.2.2, hrest]
      grind

/-- The paths are those that the patterns for the names find, each of them once. -/
structure Found (tree : FileTree) (parts : List String) (found : List String) : Prop where
  nodup : found.Nodup
  mem_iff : ∀ path, path ∈ found ↔ ∃ ns t, Matches parts ns ∧ LeadsTo tree ns t ∧ path = ofNames ns

variable {tree : FileTree} (hd : tree.isDirectory) (hw : tree.WellFormed)

include hd hw

theorem inDirectory_eq_ok {ns : List String} (hns : ∀ n ∈ ns, IsName n) {part : String} {found : List String}
    (h : inDirectory tree (ofNames ns) part = .ok found) :
    found.Nodup ∧ ∀ path, path ∈ found ↔
      ∃ n t, LeadsTo tree (ns ++ [n]) t ∧ matchName part n = .ok true ∧ path = ofNames (ns ++ [n]) := by
  unfold inDirectory at h
  cases hlist : tree.list (ofNames ns) with
  | error e =>
    rw [hlist] at h
    obtain rfl : [] = found := Except.ok.inj h
    refine ⟨.nil, fun path => ⟨by simp, ?_⟩⟩
    rintro ⟨n, t, hleads, -⟩
    obtain ⟨cs, hcs, -⟩ := LeadsTo.append_iff.mp hleads
    rw [list_of_leads hd hw hcs] at hlist
    cases hlist
  | ok entries =>
    rw [hlist] at h
    dsimp only at h
    obtain ⟨names, hnames, h⟩ := bind_eq_ok_iff.mp h
    obtain rfl : names.map (join (ofNames ns)) = found := Except.ok.inj h
    obtain ⟨hsub, hmem⟩ := filterM_eq_ok hnames
    obtain ⟨hnodup, hentry⟩ := entries_of_list hd hw hns hlist
    have hleads {n : String} : n ∈ entries.map (·.1) ↔ ∃ t, LeadsTo tree (ns ++ [n]) t := by simp [hentry]
    have hname {n : String} (hn : n ∈ names) : IsName n := by
      obtain ⟨t, ht⟩ := hleads.mp (hsub.subset hn)
      exact (ht.wellFormed_and_names hw).2 n (by simp)
    have hjoin {n : String} (hn : n ∈ names) := join_name hns (hname hn)
    constructor
    · refine (hnodup.sublist hsub).map_on fun n hn m hm heq => ?_
      have happend {n : String} (hn : n ∈ names) : ∀ x ∈ ns ++ [n], IsName x :=
        List.forall_mem_append.mpr ⟨hns, by simpa using hname hn⟩
      rw [hjoin hn, hjoin hm, ofNames_inj (happend hn) (happend hm)] at heq
      simpa using heq
    · intro path
      rw [List.mem_map]
      constructor
      · rintro ⟨n, hn, rfl⟩
        obtain ⟨hentry, hmatch⟩ := (hmem n).mp hn
        obtain ⟨t, ht⟩ := hleads.mp hentry
        exact ⟨n, t, ht, hmatch, hjoin hn⟩
      · rintro ⟨n, t, ht, hmatch, rfl⟩
        have hn := (hmem n).mpr ⟨hleads.mpr ⟨t, ht⟩, hmatch⟩
        exact ⟨n, hn, hjoin hn⟩

/-- A pattern in which only stars have a meaning does not fail. -/
theorem exists_inDirectory {ns : List String} (hns : ∀ n ∈ ns, IsName n) {part : String}
    (hpart : ∀ c ∈ part.toList, Simple c) : ∃ found, inDirectory tree (ofNames ns) part = .ok found := by
  unfold inDirectory
  cases hlist : tree.list (ofNames ns) with
  | error e => exact ⟨[], rfl⟩
  | ok entries =>
    obtain ⟨-, hentry⟩ := entries_of_list hd hw hns hlist
    have hmatch : ∀ n ∈ entries.map (·.1), ∃ b, matchName part n = .ok b := by
      intro n hn
      obtain ⟨⟨n, t⟩, hmem, rfl⟩ := List.mem_map.mp hn
      have hname := (((hentry n t).mp hmem).wellFormed_and_names hw).2 n (by simp)
      obtain ⟨b, hb, -⟩ := matchName_simple hpart hname.2.2.2
      exact ⟨b, hb⟩
    obtain ⟨names, hnames⟩ := exists_filterM_eq_ok hmatch
    exact ⟨names.map (join (ofNames ns)), by dsimp only; rw [hnames]; rfl⟩

omit hd hw in
theorem existing_cons (part : String) (before : List String) :
    existing tree (part :: before) = do
      let _ ← matchName (ofNames (before.reverse ++ [part])) ""
      if !hasMeta (ofNames (before.reverse ++ [part])) then
        return if tree.existsAt (ofNames (before.reverse ++ [part])) then [ofNames (before.reverse ++ [part])] else []
      if !hasMeta (ofNames before.reverse) then inDirectory tree (ofNames before.reverse) part
      else
        let directories ← existing tree before
        return (← directories.mapM fun d => inDirectory tree d part).flatten := by
  have hpath : (if before.isEmpty then "/" ++ part else "/" ++ String.intercalate "/" before.reverse ++ "/" ++ part) =
      ofNames (before.reverse ++ [part]) := by
    cases before with
    | nil => simp [ofNames]
    | cons b before =>
      rw [ofNames_append_singleton (by simp)]
      rfl
  rw [existing, hpath]
  rfl

theorem found_literal {parts : List String} (hnames : ∀ n ∈ parts, IsName n)
    (hparts : hasMeta (ofNames parts) = false) :
    Found tree parts (if tree.existsAt (ofNames parts) then [ofNames parts] else []) := by
  refine ⟨by split <;> simp, fun path => ?_⟩
  have hmem : path ∈ (if tree.existsAt (ofNames parts) then [ofNames parts] else []) ↔
      tree.existsAt (ofNames parts) ∧ path = ofNames parts := by
    split <;> simp_all
  rw [hmem, existsAt_iff hd hw hnames]
  constructor
  · rintro ⟨⟨t, ht⟩, rfl⟩
    have hmatches : Matches (parts ++ []) parts :=
      (matches_append_iff (hasMeta_ofNames.mp hparts) hnames).mpr ⟨[], by simp, .nil⟩
    exact ⟨parts, t, by simpa using hmatches, ht, rfl⟩
  · rintro ⟨ns, t, hmatches, ht, rfl⟩
    have hns := (ht.wellFormed_and_names hw).2
    rw [← List.append_nil parts, matches_append_iff (hasMeta_ofNames.mp hparts) hns] at hmatches
    obtain ⟨s, rfl, ⟨⟩⟩ := hmatches
    rw [List.append_nil] at *
    exact ⟨⟨t, ht⟩, rfl⟩

theorem found_inDirectory {before : List String} {part : String} (hnames : ∀ n ∈ before, IsName n)
    (hbefore : hasMeta (ofNames before) = false) {found : List String}
    (h : inDirectory tree (ofNames before) part = .ok found) : Found tree (before ++ [part]) found := by
  obtain ⟨hnodup, hmem⟩ := inDirectory_eq_ok hd hw hnames h
  refine ⟨hnodup, fun path => (hmem path).trans ⟨?_, ?_⟩⟩
  · rintro ⟨n, t, ht, hmatch, rfl⟩
    refine ⟨_, t, ?_, ht, rfl⟩
    rw [matches_append_iff (hasMeta_ofNames.mp hbefore) (ht.wellFormed_and_names hw).2]
    exact ⟨[n], rfl, .cons hmatch .nil⟩
  · rintro ⟨ns, t, hmatches, ht, rfl⟩
    rw [matches_append_iff (hasMeta_ofNames.mp hbefore) (ht.wellFormed_and_names hw).2] at hmatches
    obtain ⟨_, rfl, (_ | ⟨hmatch, ⟨⟩⟩)⟩ := hmatches
    exact ⟨_, t, ht, hmatch, rfl⟩

theorem Found.flatten {before : List String} {part : String} {directories : List String} {lists : List (List String)}
    (h : Found tree before directories) (hlists : directories.mapM (fun d => inDirectory tree d part) = .ok lists) :
    Found tree (before ++ [part]) lists.flatten := by
  have hlist {d : String} (hmem : d ∈ directories) :
      inDirectory tree d part = .ok ((inDirectory tree d part).toOption.getD []) := by
    obtain ⟨list, -, hlist⟩ := (exists_eq_ok_of_mapM hlists).1 d hmem
    rw [hlist]
    rfl
  rw [eq_map_of_mapM hlists [], ← List.flatMap_def]
  constructor
  · rw [List.nodup_flatMap]
    constructor
    · intro d hmem
      obtain ⟨ns, t, -, ht, rfl⟩ := (h.mem_iff d).mp hmem
      exact (inDirectory_eq_ok hd hw (ht.wellFormed_and_names hw).2 (hlist hmem)).1
    · refine h.nodup.imp_of_mem fun {d d'} hmem hmem' hne path hpath hpath' => hne ?_
      -- a path tells the directory that it is in
      obtain ⟨ns, t, -, ht, rfl⟩ := (h.mem_iff d).mp hmem
      obtain ⟨ns', t', -, ht', rfl⟩ := (h.mem_iff d').mp hmem'
      have hentries := (inDirectory_eq_ok hd hw (ht.wellFormed_and_names hw).2 (hlist hmem)).2
      have hentries' := (inDirectory_eq_ok hd hw (ht'.wellFormed_and_names hw).2 (hlist hmem')).2
      obtain ⟨n, _, hn, -, rfl⟩ := (hentries path).mp hpath
      obtain ⟨n', _, hn', -, heq⟩ := (hentries' _).mp hpath'
      rw [ofNames_inj (hn.wellFormed_and_names hw).2 (hn'.wellFormed_and_names hw).2] at heq
      rw [(List.append_inj' heq rfl).1]
  · intro path
    rw [List.mem_flatMap]
    constructor
    · rintro ⟨d, hmem, hpath⟩
      obtain ⟨ns, t, hmatches, ht, rfl⟩ := (h.mem_iff d).mp hmem
      obtain ⟨n, t', hn, hmatch, rfl⟩ :=
        ((inDirectory_eq_ok hd hw (ht.wellFormed_and_names hw).2 (hlist hmem)).2 path).mp hpath
      exact ⟨_, t', forall₂_append_singleton_iff.mpr ⟨ns, n, rfl, hmatches, hmatch⟩, hn, rfl⟩
    · rintro ⟨ns, t, hmatches, ht, rfl⟩
      obtain ⟨ns, n, rfl, hmatches, hmatch⟩ := forall₂_append_singleton_iff.mp hmatches
      obtain ⟨cs, hcs, -⟩ := LeadsTo.append_iff.mp ht
      have hmem := (h.mem_iff (ofNames ns)).mpr ⟨ns, _, hmatches, hcs, rfl⟩
      refine ⟨ofNames ns, hmem, ?_⟩
      exact ((inDirectory_eq_ok hd hw (hcs.wellFormed_and_names hw).2 (hlist hmem)).2 _).mpr ⟨n, t, ht, hmatch, rfl⟩

theorem found_existing {rev : List String} (hnames : ∀ n ∈ rev, IsName n) {found : List String}
    (h : existing tree rev = .ok found) : Found tree rev.reverse found := by
  induction rev generalizing found with
  | nil =>
    obtain rfl : ["/"] = found := Except.ok.inj h
    refine ⟨by simp, fun path => ?_⟩
    rw [List.mem_singleton]
    constructor
    · rintro rfl
      exact ⟨[], tree, .nil, .here tree, rfl⟩
    · rintro ⟨_, t, ⟨⟩, -, rfl⟩
      rfl
  | cons part before ih =>
    have hbefore : ∀ n ∈ before, IsName n := fun n hn => hnames n (List.mem_cons_of_mem _ hn)
    rw [existing_cons, bind_eq_ok_iff] at h
    obtain ⟨_, -, h⟩ := h
    rw [List.reverse_cons]
    split at h
    · next hpath =>
      obtain rfl := Except.ok.inj h
      exact found_literal hd hw (by simpa [or_imp, forall_and, and_comm] using hnames) (by simpa using hpath)
    split at h
    · next hdirectory => exact found_inDirectory hd hw (by simpa using hbefore) (by simpa using hdirectory) h
    · obtain ⟨directories, hdirectories, h⟩ := bind_eq_ok_iff.mp h
      obtain ⟨lists, hlists, h⟩ := bind_eq_ok_iff.mp h
      obtain rfl := Except.ok.inj h
      exact (ih hbefore hdirectories).flatten hd hw hlists

/-- Patterns in which only stars have a meaning do not fail. -/
theorem exists_existing {rev : List String} (hnames : ∀ n ∈ rev, IsName n)
    (hsimple : ∀ n ∈ rev, ∀ c ∈ n.toList, Simple c) : ∃ found, existing tree rev = .ok found := by
  induction rev with
  | nil => exact ⟨["/"], rfl⟩
  | cons part before ih =>
    have hbefore : ∀ n ∈ before, IsName n := fun n hn => hnames n (List.mem_cons_of_mem _ hn)
    obtain ⟨hpart, hsimple'⟩ := List.forall_mem_cons.mp hsimple
    have hpath : ∀ c ∈ (ofNames (before.reverse ++ [part])).toList, Simple c :=
      (forall_mem_ofNames (by simp [Simple])).mpr (by simpa [or_imp, forall_and, and_comm] using hsimple)
    obtain ⟨b, hb, -⟩ := matchName_simple hpath (show '/' ∉ "".toList by simp)
    rw [existing_cons, hb, ok_bind]
    split
    · exact ⟨_, rfl⟩
    split
    · exact exists_inDirectory hd hw (by simpa using hbefore) hpart
    · obtain ⟨directories, hdirectories⟩ := ih hbefore hsimple'
      have hfound := found_existing hd hw hbefore hdirectories
      obtain ⟨lists, hlists⟩ : ∃ lists, directories.mapM (fun d => inDirectory tree d part) = .ok lists := by
        refine exists_mapM_eq_ok fun d hmem => ?_
        obtain ⟨ns, t, -, ht, rfl⟩ := (hfound.mem_iff d).mp hmem
        exact exists_inDirectory hd hw (ht.wellFormed_and_names hw).2 hpart
      exact ⟨lists.flatten, by rw [hdirectories, ok_bind, hlists]; rfl⟩

/-- The paths that a pattern finds below a root, whose own names count as patterns too. -/
theorem found_paths {root : List String} (hroot : ∀ n ∈ root, IsName n) {pattern : String}
    (hpattern : ∀ n ∈ parts pattern, IsName n) {found : List String}
    (h : paths tree (join (ofNames root) pattern) = .ok found) : Found tree (root ++ parts pattern) found := by
  have hnames : ∀ n ∈ root ++ parts pattern, IsName n := List.forall_mem_append.mpr ⟨hroot, hpattern⟩
  rw [paths, join_ofNames hroot hpattern, filter_parts_ofNames hnames] at h
  rw [← List.reverse_reverse (root ++ parts pattern)]
  exact found_existing hd hw (fun n hn => hnames n (List.mem_reverse.mp hn)) h

theorem exists_paths {root : List String} (hroot : ∀ n ∈ root, IsName n) {pattern : String}
    (hpattern : ∀ n ∈ parts pattern, IsName n) (hsimple : ∀ n ∈ root ++ parts pattern, ∀ c ∈ n.toList, Simple c) :
    ∃ found, paths tree (join (ofNames root) pattern) = .ok found := by
  have hnames : ∀ n ∈ root ++ parts pattern, IsName n := List.forall_mem_append.mpr ⟨hroot, hpattern⟩
  rw [paths, join_ofNames hroot hpattern, filter_parts_ofNames hnames]
  exact exists_existing hd hw (fun n hn => hnames n (List.mem_reverse.mp hn))
    fun n hn => hsimple n (List.mem_reverse.mp hn)

end Glob

end Linkage
