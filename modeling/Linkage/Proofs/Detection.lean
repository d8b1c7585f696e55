import Linkage.Project
import Linkage.Proofs.Distinct
import Linkage.Proofs.Globbing

/-!
The directories of a project. They are looked for with the path of the root in front of each pattern, so that characters
of the root which have a meaning in patterns lead astray. Without such characters they are exactly the directories below
the root that the patterns cover.
-/
namespace Linkage
namespace Project

open Linkage.Path Linkage.FileTree Linkage.Glob

/-- Directories pattern by pattern, and by rising path for each pattern. -/
def Listed (Belongs : String → String → Prop) (patterns ds : List String) : Prop :=
  ∃ lists : List (List String), ds = lists.flatten ∧
    List.Forall₂ (fun pattern list => list.Pairwise (· < ·) ∧ ∀ d, d ∈ list ↔ Belongs pattern d) patterns lists

/-- A directory below the root to which the pattern leads if characters are put in the place of its stars. -/
def Conventional (files : FileTree) (root : List String) (pattern d : String) : Prop :=
  ∃ s, (∀ n ∈ s, IsName n) ∧ List.Forall₂ (fun part n => Covers part.toList n.toList) (parts pattern) s ∧
    d = ofNames (root ++ s) ∧ files.isDirectoryAt d

/-- A directory to which the root and the pattern lead if both are taken as patterns and are well-formed ones. -/
def Globbed (files : FileTree) (root : List String) (pattern d : String) : Prop :=
  (∃ found, paths files (join (ofNames root) pattern) = .ok found) ∧
    ∃ ns, (∀ n ∈ ns, IsName n) ∧ Matches (root ++ parts pattern) ns ∧ d = ofNames ns ∧ files.isDirectoryAt d

/-- The directory itself holds an archive, and not one of sources or of documentation. -/
def HoldsLibrary (files : FileTree) (d : String) : Prop :=
  ∃ cs n t, files.find d = .ok (.directory cs) ∧ (n, t) ∈ cs ∧ t.isDirectory = false ∧
    ".jar".toList <:+ n.toList ∧ ¬ "-sources.jar".toList <:+ n.toList ∧ ¬ "-javadoc.jar".toList <:+ n.toList

namespace Listed

variable {Belongs Other : String → String → Prop} {patterns ds : List String}

theorem mem_iff (h : Listed Belongs patterns ds) (d : String) : d ∈ ds ↔ ∃ pattern ∈ patterns, Belongs pattern d := by
  obtain ⟨lists, rfl, hlists⟩ := h
  induction hlists with
  | nil => simp
  | cons hlist _ ih => simp [hlist.2, ih]

theorem congr (h : Listed Belongs patterns ds) (hiff : ∀ pattern ∈ patterns, ∀ d, Belongs pattern d ↔ Other pattern d) :
    Listed Other patterns ds := by
  obtain ⟨lists, hds, hlists⟩ := h
  refine ⟨lists, hds, ?_⟩
  clear hds
  induction hlists with
  | nil => exact .nil
  | cons hlist _ ih =>
    obtain ⟨hpattern, hpatterns⟩ := List.forall_mem_cons.mp hiff
    exact .cons ⟨hlist.1, fun d => (hlist.2 d).trans (hpattern d)⟩ (ih hpatterns)

theorem filter (h : Listed Belongs patterns ds) {Holds : String → Prop} {holds : String → Bool}
    (hiff : ∀ d, holds d ↔ Holds d) :
    Listed (fun pattern d => Belongs pattern d ∧ Holds d) patterns (ds.filter holds) := by
  obtain ⟨lists, rfl, hlists⟩ := h
  refine ⟨lists.map (List.filter holds), List.filter_flatten, List.forall₂_map_right_iff.mpr (hlists.imp ?_)⟩
  rintro pattern list ⟨hsorted, hmem⟩
  exact ⟨hsorted.filter holds, fun d => by rw [List.mem_filter, hmem, hiff]⟩

end Listed

theorem hasLibraries_iff (files : FileTree) (d : String) : hasLibraries files d ↔ HoldsLibrary files d := by
  have hends {n suffix : String} : n.endsWith suffix ↔ suffix.toList <:+ n.toList := by
    rw [String.endsWith_eq_endsWith_toSlice, String.Slice.endsWith_string_iff, String.copy_toSlice]
  have hnot {n suffix : String} : n.endsWith suffix = false ↔ ¬ suffix.toList <:+ n.toList := by
    rw [← hends, Bool.not_eq_true]
  unfold hasLibraries hasFile FileTree.list findFor HoldsLibrary
  cases files.find d with
  | error e => simp [Except.mapError, bind, Except.bind]
  | ok t =>
    cases t with
    | file data => simp [Except.mapError, bind, Except.bind]
    | directory cs => simp [Except.mapError, bind, Except.bind, pure, Except.pure, hends, hnot, and_assoc]

section

variable {files : FileTree} (hd : files.isDirectory) (hw : files.WellFormed) {root : List String}
  (hroot : ∀ n ∈ root, IsName n)

include hd hw hroot

theorem listed_existing {patterns : List String} (hpatterns : ∀ pattern ∈ patterns, ∀ n ∈ parts pattern, IsName n) :
    Listed (Globbed files root) patterns (existing files (ofNames root) patterns) := by
  unfold existing
  rw [List.flatMap_def]
  refine ⟨_, rfl, ?_⟩
  rw [List.forall₂_map_right_iff, List.forall₂_same]
  intro pattern hpattern
  cases hfound : paths files (join (ofNames root) pattern) with
  | error e => simp [Globbed, hfound]
  | ok found =>
    have h := found_paths hd hw hroot (hpatterns pattern hpattern) hfound
    refine ⟨(rising_mergeSort h.nodup).filter _, fun d => ?_⟩
    rw [List.mem_filter, List.mem_mergeSort, h.mem_iff]
    constructor
    · rintro ⟨⟨ns, t, hmatches, ht, rfl⟩, hdirectory⟩
      exact ⟨⟨found, hfound⟩, ns, (ht.wellFormed_and_names hw).2, hmatches, rfl, hdirectory⟩
    · rintro ⟨-, ns, hns, hmatches, rfl, hdirectory⟩
      obtain ⟨cs, hcs⟩ := (isDirectoryAt_iff hd hw hns).mp hdirectory
      exact ⟨⟨ns, _, hmatches, hcs, rfl⟩, hdirectory⟩

/-- A root without characters that have a meaning in patterns leads to itself only. -/
theorem globbed_iff (hliteral : hasMeta (ofNames root) = false) {pattern : String}
    (hpattern : ∀ n ∈ parts pattern, IsName n) (hsimple : ∀ c ∈ pattern.toList, Simple c) (d : String) :
    Globbed files root pattern d ↔ Conventional files root pattern d := by
  have hplain := hasMeta_ofNames.mp hliteral
  have hparts := simple_of_mem_parts hsimple
  constructor
  · rintro ⟨-, ns, hns, hmatches, rfl, hdirectory⟩
    obtain ⟨s, rfl, hs⟩ := (matches_append_iff hplain hns).mp hmatches
    have hnames := (List.forall_mem_append.mp hns).2
    exact ⟨s, hnames, (matches_simple_iff hparts hnames).mp hs, rfl, hdirectory⟩
  · rintro ⟨s, hnames, hcovers, rfl, hdirectory⟩
    have hns : ∀ n ∈ root ++ s, IsName n := List.forall_mem_append.mpr ⟨hroot, hnames⟩
    have hall : ∀ n ∈ root ++ parts pattern, ∀ c ∈ n.toList, Simple c :=
      List.forall_mem_append.mpr ⟨fun n hn c hc => (hasMeta_eq_false_iff.mp (hplain n hn) c hc).2, hparts⟩
    refine ⟨exists_paths hd hw hroot hpattern hall, root ++ s, hns, ?_, rfl, hdirectory⟩
    exact (matches_append_iff hplain hns).mpr ⟨s, rfl, (matches_simple_iff hparts hnames).mpr hcovers⟩

theorem listed_conventional (hliteral : hasMeta (ofNames root) = false) {patterns : List String}
    (hpatterns : ∀ pattern ∈ patterns, ∀ n ∈ parts pattern, IsName n)
    (hsimple : ∀ pattern ∈ patterns, ∀ c ∈ pattern.toList, Simple c) :
    Listed (Conventional files root) patterns (existing files (ofNames root) patterns) :=
  (listed_existing hd hw hroot hpatterns).congr fun pattern hp =>
    globbed_iff hd hw hroot hliteral (hpatterns pattern hp) (hsimple pattern hp)

end

/-! The root. -/

theorem exists_names_of_mem_upward {ns : List String} (hns : ∀ n ∈ ns, IsName n) {d : String}
    (h : d ∈ upward (ofNames ns)) : ∃ r, (∀ n ∈ r, IsName n) ∧ d = ofNames r := by
  unfold upward at h
  generalize (parts (ofNames ns)).length = fuel at h
  induction fuel generalizing ns with
  | zero => exact ⟨ns, hns, by simpa [upward.go] using h⟩
  | succ fuel ih =>
    rw [upward.go] at h
    split at h
    · exact ⟨ns, hns, by simpa using h⟩
    · obtain rfl | h := List.mem_cons.mp h
      · exact ⟨ns, hns, rfl⟩
      · rw [parent_ofNames hns] at h
        exact ih (fun n hn => hns n (List.mem_of_mem_dropLast hn)) h

theorem exists_names_of_rootFrom (files : FileTree) {ns : List String} (hns : ∀ n ∈ ns, IsName n) :
    ∃ r, (∀ n ∈ r, IsName n) ∧ ((rootFrom files (ofNames ns)).getD (ofNames ns, .unknown)).1 = ofNames r := by
  cases hfound : rootFrom files (ofNames ns) with
  | none => exact ⟨ns, hns, rfl⟩
  | some found =>
    obtain ⟨d, hmem, hkind⟩ := List.exists_of_findSome?_eq_some hfound
    obtain ⟨kind, -, rfl⟩ := Option.map_eq_some_iff.mp hkind
    exact exists_names_of_mem_upward hns hmem

theorem detect_eq_ok {place : Workplace} (hplace : place.WellFormed) {path : String}
    (hpath : place.files.existsAt (absolute place.working path)) :
    ∃ project r, detect place path = .ok project ∧ project.root = ofNames r ∧ (∀ n ∈ r, IsName n) ∧
      project.classRoots = existing place.files (ofNames r) classPatterns ∧
      project.libraries = (existing place.files (ofNames r) libraryPatterns).filter (hasLibraries place.files) := by
  obtain ⟨ns, hns, habsolute⟩ := exists_names_of_absolute hplace.working path
  rw [habsolute] at hpath
  obtain ⟨found, hleads⟩ := (existsAt_iff hplace.directory hplace.files hns).mp hpath
  have hstat : place.files.stat (ofNames ns) = .ok found := by
    rw [stat, findFor, (find_ofNames hplace.directory hplace.files hns).mpr hleads]
    rfl
  obtain ⟨ms, hms, hstart⟩ : ∃ ms, (∀ n ∈ ms, IsName n) ∧
      (if found.isDirectory then ofNames ns else parent (ofNames ns)) = ofNames ms := by
    split
    · exact ⟨ns, hns, rfl⟩
    · exact ⟨_, fun n hn => hns n (List.mem_of_mem_dropLast hn), parent_ofNames hns⟩
  obtain ⟨r, hr, hroot⟩ := exists_names_of_rootFrom place.files hms
  unfold detect
  dsimp only
  rw [habsolute, hstat, ok_bind, hstart]
  refine ⟨_, r, rfl, hroot, hr, ?_, ?_⟩
  · rw [← hroot]
  · rw [← hroot]

theorem isName_classPatterns : ∀ pattern ∈ classPatterns, ∀ n ∈ parts pattern, IsName n := by decide +kernel

/-- Below every existing path a project is found, with a clean root. Its directories are those that the root and the
patterns find together, taken as patterns both. Where no character of the root has a meaning in patterns, they are the
directories below it that the patterns cover, and the libraries are those among them that hold an archive. -/
theorem detect_directories {place : Workplace} (hplace : place.WellFormed) {path : String}
    (hpath : place.files.existsAt (absolute place.working path)) :
    ∃ project r, detect place path = .ok project ∧ project.root = ofNames r ∧ (∀ n ∈ r, IsName n) ∧
      Listed (Globbed place.files r) classPatterns project.classRoots ∧
      Listed (fun pattern d => Globbed place.files r pattern d ∧ HoldsLibrary place.files d) libraryPatterns
        project.libraries ∧
      (hasMeta project.root = false →
        Listed (Conventional place.files r) classPatterns project.classRoots ∧
        Listed (fun pattern d => Conventional place.files r pattern d ∧ HoldsLibrary place.files d) libraryPatterns
          project.libraries) := by
  obtain ⟨project, r, hproject, hroot, hr, hclasses, hlibraries⟩ := detect_eq_ok hplace hpath
  have hlibraryNames : ∀ pattern ∈ libraryPatterns, ∀ n ∈ parts pattern, IsName n := by decide +kernel
  have hclassSimple : ∀ pattern ∈ classPatterns, ∀ c ∈ pattern.toList, Simple c := by simp [classPatterns, Simple]
  have hlibrarySimple : ∀ pattern ∈ libraryPatterns, ∀ c ∈ pattern.toList, Simple c := by simp [libraryPatterns, Simple]
  refine ⟨project, r, hproject, hroot, hr, ?_, ?_, fun hliteral => ?_⟩
  · rw [hclasses]
    exact listed_existing hplace.directory hplace.files hr isName_classPatterns
  · rw [hlibraries]
    exact (listed_existing hplace.directory hplace.files hr hlibraryNames).filter (hasLibraries_iff place.files)
  · rw [hroot] at hliteral
    rw [hclasses, hlibraries]
    have hlisted := listed_conventional hplace.directory hplace.files hr hliteral hlibraryNames hlibrarySimple
    exact ⟨listed_conventional hplace.directory hplace.files hr hliteral isName_classPatterns hclassSimple,
      hlisted.filter (hasLibraries_iff place.files)⟩

/-- A project in the working directory: a star leads to compiled classes, and a directory of libraries is found. -/
theorem detect_directories_of_marker :
    let place : Workplace := ⟨"/p", .directory [("p", .directory [("pom.xml", .file []), ("src", .directory []),
      ("out", .directory [("production", .directory [("x", .directory [])])]),
      ("lib", .directory [("a-sources.jar", .file []), ("a.jar", .file [])])])]⟩
    place.WellFormed ∧ place.files.existsAt (absolute place.working "src") ∧ ∃ project,
      detect place "src" = .ok project ∧ project.root = "/p" ∧ "/p/out/production/x" ∈ project.classRoots ∧
      "/p/lib" ∈ project.libraries := by
  intro place
  have hplace : place.WellFormed := by decide +kernel
  have hpath : place.files.existsAt (absolute place.working "src") := by decide +kernel
  obtain ⟨project, r, hproject, hroot, hr, -, -, hplain⟩ := detect_directories hplace hpath
  have hmarked : (detect place "src").toOption.map Project.root = some "/p" := by decide +kernel
  have hp : project.root = "/p" := by simpa [hproject, Except.toOption] using hmarked
  obtain rfl : r = ["p"] := (ofNames_inj hr (by decide)).mp (hroot.symm.trans hp)
  obtain ⟨hclasses, hlibraries⟩ := hplain (by rw [hp]; decide +kernel)
  have hliteral {n : String} (hn : ∀ c ∈ n.toList, Plain c) : Covers n.toList n.toList := (covers_plain_iff hn).mpr rfl
  refine ⟨hplace, hpath, project, hproject, hp, ?_, ?_⟩
  · refine (hclasses.mem_iff _).mpr ⟨"out/production/*", by decide, ["out", "production", "x"], by decide, ?_, rfl,
      by decide +kernel⟩
    rw [show parts "out/production/*" = ["out", "production", "*"] by decide +kernel]
    exact .cons (hliteral (by simp [Plain])) (.cons (hliteral (by simp [Plain])) (.cons (.star ['x'] .nil) .nil))
  · have hleads : LeadsTo place.files ["p", "lib"] (.directory [("a-sources.jar", .file []), ("a.jar", .file [])]) :=
      .into List.mem_cons_self (.into (by simp) (.here _))
    have hfind := (find_ofNames hplace.directory hplace.files (by decide)).mpr hleads
    refine (hlibraries.mem_iff _).mpr ⟨"lib", by decide, ⟨["lib"], by decide, ?_, rfl, by decide +kernel⟩,
      _, "a.jar", .file [], hfind, by simp, rfl, by decide, by decide, by decide⟩
    rw [show parts "lib" = ["lib"] by decide +kernel]
    exact .cons (hliteral (by simp [Plain])) .nil

/-- A root with brackets in its name is taken as a pattern that does not match it, and its own classes are missed. -/
theorem bracketed_root_missed :
    let place : Workplace := ⟨"/", .directory [
      ("a[b]", .directory [("pom.xml", .file []), ("target", .directory [("classes", .directory [])])]),
      ("ab", .directory [("target", .directory [("classes", .directory [])])])]⟩
    place.WellFormed ∧ place.files.existsAt (absolute place.working "a[b]") ∧ ∃ project,
      detect place "a[b]" = .ok project ∧ project.root = ofNames ["a[b]"] ∧
      Conventional place.files ["a[b]"] "target/classes" "/a[b]/target/classes" ∧
      "/a[b]/target/classes" ∉ project.classRoots ∧
      ¬ Listed (Conventional place.files ["a[b]"]) classPatterns project.classRoots := by
  intro place
  have hplace : place.WellFormed := by decide +kernel
  have hpath : place.files.existsAt (absolute place.working "a[b]") := by decide +kernel
  obtain ⟨project, r, hproject, hroot, hr, hclasses, -⟩ := detect_eq_ok hplace hpath
  have hmarked : (detect place "a[b]").toOption.map Project.root = some (ofNames ["a[b]"]) := by decide +kernel
  have hp : project.root = ofNames ["a[b]"] := by simpa [hproject, Except.toOption] using hmarked
  obtain rfl : r = ["a[b]"] := (ofNames_inj hr (by decide)).mp (hroot.symm.trans hp)
  have hlisted := listed_existing hplace.directory hplace.files hr isName_classPatterns
  have hconventional : Conventional place.files ["a[b]"] "target/classes" "/a[b]/target/classes" := by
    refine ⟨["target", "classes"], by decide, ?_, rfl, by decide +kernel⟩
    rw [show parts "target/classes" = ["target", "classes"] by decide +kernel]
    have hliteral {n : String} (hn : ∀ c ∈ n.toList, Plain c) : Covers n.toList n.toList := (covers_plain_iff hn).mpr rfl
    exact .cons (hliteral (by simp [Plain])) (.cons (hliteral (by simp [Plain])) .nil)
  have hmissed : "/a[b]/target/classes" ∉ project.classRoots := by
    rw [hclasses, hlisted.mem_iff]
    rintro ⟨pattern, -, -, ns, hns, hmatches, hd, -⟩
    obtain rfl : ["a[b]", "target", "classes"] = ns := (ofNames_inj (by decide) hns).mp hd
    obtain _ | ⟨hself, -⟩ := hmatches
    have hother : (matchName "a[b]" "a[b]").toOption = some false := by decide +kernel
    simp [hself, Except.toOption] at hother
  exact ⟨hplace, hpath, project, hproject, hp, hconventional, hmissed, fun h =>
    hmissed ((h.mem_iff _).mpr ⟨"target/classes", by decide, hconventional⟩)⟩

end Project

end Linkage
