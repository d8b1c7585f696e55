import Linkage.Files.Path

/-! Clean absolute paths: each is the list of the names that lead to it from the root. -/
namespace Linkage
namespace Path

/-- What an entry of a directory can be called. -/
def IsName (n : String) : Prop := n ≠ "" ∧ n ≠ "." ∧ n ≠ ".." ∧ '/' ∉ n.toList

instance (n : String) : Decidable (IsName n) := inferInstanceAs (Decidable (_ ∧ _))

/-- The path that the names lead to from the root. -/
def ofNames (ns : List String) : String := "/" ++ String.intercalate "/" ns

/-! Parts. -/

theorem parts_append_slash (a b : String) : parts (a ++ "/" ++ b) = parts a ++ parts b := by
  have hlist : (a ++ "/" ++ b).toList = a.toList ++ '/' :: b.toList := by simp
  rw [parts, hlist, List.splitOn_append_cons_self, List.map_append]
  rfl

theorem parts_of_no_slash {n : String} (h : '/' ∉ n.toList) : parts n = [n] := by
  rw [parts, List.splitOn_eq_singleton h]
  simp

theorem parts_intercalate {ns : List String} (h : ∀ n ∈ ns, IsName n) (hne : ns ≠ []) :
    parts (String.intercalate "/" ns) = ns := by
  have hslash : ∀ l ∈ ns.map String.toList, '/' ∉ l := by
    intro l hl
    obtain ⟨n, hn, rfl⟩ := List.mem_map.mp hl
    exact (h n hn).2.2.2
  rw [parts, String.toList_intercalate, show "/".toList = ['/'] from rfl,
    List.splitOn_intercalate '/' hslash (by simpa using hne), List.map_map]
  simp [Function.comp_def]

theorem no_slash_of_mem_parts {path n : String} (h : n ∈ parts path) : '/' ∉ n.toList := by
  have hsplit (cs : List Char) : ∀ l ∈ cs.splitOn '/', '/' ∉ l := by
    induction cs with
    | nil => simp
    | cons c cs ih =>
      intro l hl
      obtain ⟨first, rest, hfirst⟩ := List.exists_cons_of_ne_nil (List.splitOn_ne_nil '/' cs)
      rw [List.splitOn_cons_eq_if_modifyHead, hfirst, List.modifyHead_cons] at hl
      rw [hfirst] at ih
      grind
  obtain ⟨l, hl, rfl⟩ := List.mem_map.mp h
  simpa using hsplit _ l hl

theorem parts_ofNames {ns : List String} (h : ∀ n ∈ ns, IsName n) :
    parts (ofNames ns) = "" :: if ns = [] then [""] else ns := by
  have hparts := parts_append_slash "" (String.intercalate "/" ns)
  rw [String.empty_append] at hparts
  rw [ofNames, hparts]
  split
  · next hnil =>
    rw [hnil]
    rfl
  · next hne =>
    rw [parts_intercalate h hne]
    rfl

/-- The names of a path. -/
theorem filter_parts_ofNames {ns : List String} (h : ∀ n ∈ ns, IsName n) :
    (parts (ofNames ns)).filter (· != "") = ns := by
  rw [parts_ofNames h]
  split
  · next hnil => simp [hnil]
  · have hkept : ns.filter (· != "") = ns := List.filter_eq_self.mpr fun n hn => by simpa using (h n hn).1
    simpa using hkept

theorem ofNames_inj {ns ms : List String} (hn : ∀ n ∈ ns, IsName n) (hm : ∀ n ∈ ms, IsName n) :
    ofNames ns = ofNames ms ↔ ns = ms := by
  refine ⟨fun h => ?_, congrArg ofNames⟩
  rw [← filter_parts_ofNames hn, h, filter_parts_ofNames hm]

theorem ofNames_append_singleton {ns : List String} (hne : ns ≠ []) (n : String) :
    ofNames (ns ++ [n]) = ofNames ns ++ "/" ++ n := by
  rw [ofNames, String.intercalate_append_of_ne_nil hne (by simp), String.intercalate_singleton, ofNames]
  simp only [String.append_assoc]

theorem forall_mem_ofNames {P : Char → Prop} (hslash : P '/') {ns : List String} :
    (∀ c ∈ (ofNames ns).toList, P c) ↔ ∀ n ∈ ns, ∀ c ∈ n.toList, P c := by
  have hjoined : (∀ c ∈ (String.intercalate "/" ns).toList, P c) ↔ ∀ n ∈ ns, ∀ c ∈ n.toList, P c := by
    induction ns with
    | nil => simp
    | cons n ns ih =>
      cases ns with
      | nil => simp
      | cons m ns =>
        rw [String.intercalate_cons_cons, List.forall_mem_cons, ← ih]
        simp only [String.toList_append, List.mem_append]
        grind
  rw [← hjoined, ofNames, String.toList_append]
  simp [hslash]

theorem ofNames_parts (path : String) : ofNames (parts path) = "/" ++ path := by
  rw [← String.toList_inj, ofNames, String.toList_append, String.toList_append, String.toList_intercalate, parts,
    List.map_map]
  simp [Function.comp_def, List.intercalate_splitOn]

/-! Cleaning. -/

theorem isRooted_iff {path : String} : isRooted path ↔ ['/'] <+: path.toList := String.startsWith_string_iff

theorem isRooted_ofNames (ns : List String) : isRooted (ofNames ns) := by
  rw [isRooted_iff, ofNames, String.toList_append]
  exact List.prefix_append ..

theorem isRooted_append {a : String} (h : isRooted a) (b : String) : isRooted (a ++ b) := by
  rw [isRooted_iff] at *
  rw [String.toList_append]
  exact h.trans (List.prefix_append ..)

theorem clean_of_isRooted {path : String} (h : isRooted path) :
    clean path = ofNames ((parts path).foldl (addPart true) []).reverse := by
  simp [clean, ofNames, h]

theorem addPart_name {n : String} (h : IsName n) (rooted : Bool) (before : List String) :
    addPart rooted before n = n :: before := by
  unfold addPart
  rw [if_neg (by simp [h.1, h.2.1]), if_neg h.2.2.1]

theorem foldl_addPart_names {ns : List String} (h : ∀ n ∈ ns, IsName n) (before : List String) :
    ns.foldl (addPart true) before = ns.reverse ++ before := by
  induction ns generalizing before with
  | nil => rfl
  | cons n ns ih =>
    obtain ⟨hn, hns⟩ := List.forall_mem_cons.mp h
    rw [List.foldl_cons, ih hns, addPart_name hn]
    simp

theorem isName_of_mem_addPart {before : List String} {part : String} (h : ∀ n ∈ before, IsName n)
    (hpart : '/' ∉ part.toList) : ∀ n ∈ addPart true before part, IsName n := by
  unfold addPart
  split
  · exact h
  split
  · cases before with
    | nil => simp
    | cons last rest =>
      obtain ⟨hlast, hrest⟩ := List.forall_mem_cons.mp h
      simpa [hlast.2.2.1] using hrest
  · next hempty hdots =>
    rw [not_or] at hempty
    exact List.forall_mem_cons.mpr ⟨⟨hempty.1, hempty.2, hdots, hpart⟩, h⟩

theorem isName_of_mem_foldl {before parts : List String} (h : ∀ n ∈ before, IsName n)
    (hparts : ∀ n ∈ parts, '/' ∉ n.toList) : ∀ n ∈ parts.foldl (addPart true) before, IsName n := by
  induction parts generalizing before with
  | nil => exact h
  | cons part parts ih =>
    obtain ⟨hpart, hparts⟩ := List.forall_mem_cons.mp hparts
    exact ih (isName_of_mem_addPart h hpart) hparts

theorem exists_names_of_clean {path : String} (h : isRooted path) :
    ∃ ns, (∀ n ∈ ns, IsName n) ∧ clean path = ofNames ns := by
  refine ⟨_, fun n hn => ?_, clean_of_isRooted h⟩
  exact isName_of_mem_foldl (by simp) (fun n => no_slash_of_mem_parts) n (List.mem_reverse.mp hn)

theorem exists_names_of_absolute {working : String} (h : isRooted working) (path : String) :
    ∃ ns, (∀ n ∈ ns, IsName n) ∧ absolute working path = ofNames ns := by
  unfold absolute
  split
  · next hpath => exact exists_names_of_clean hpath
  · have hne : working ≠ "" := by
      rintro rfl
      simp [isRooted_iff] at h
    rw [join, if_neg (by simp [hne]), if_neg hne]
    exact exists_names_of_clean (isRooted_append (isRooted_append h _) _)

theorem foldl_parts_ofNames {ns : List String} (h : ∀ n ∈ ns, IsName n) :
    (parts (ofNames ns)).foldl (addPart true) [] = ns.reverse := by
  have hempty : addPart true [] "" = [] := rfl
  rw [parts_ofNames h]
  split
  · next hnil => simp [hnil, hempty]
  · rw [List.foldl_cons, hempty, foldl_addPart_names h, List.append_nil]

/-- Below a directory the names of a path are appended to its own. -/
theorem join_ofNames {ns : List String} (h : ∀ n ∈ ns, IsName n) {path : String} (hpath : ∀ n ∈ parts path, IsName n) :
    join (ofNames ns) path = ofNames (ns ++ parts path) := by
  have hne : ofNames ns ≠ "" := by simp [ofNames]
  rw [join, if_neg (by simp [hne]), if_neg hne,
    clean_of_isRooted (isRooted_append (isRooted_append (isRooted_ofNames _) _) _), parts_append_slash, List.foldl_append, foldl_parts_ofNames h, foldl_addPart_names hpath]
  simp

theorem join_name {ns : List String} (h : ∀ n ∈ ns, IsName n) {n : String} (hn : IsName n) :
    join (ofNames ns) n = ofNames (ns ++ [n]) := by
  have hparts := parts_of_no_slash hn.2.2.2
  rw [join_ofNames h (by simpa [hparts] using hn), hparts]

theorem parent_ofNames {ns : List String} (h : ∀ n ∈ ns, IsName n) : parent (ofNames ns) = ofNames ns.dropLast := by
  have hdots : parts (ofNames ns ++ "/..") = parts (ofNames ns) ++ [".."] := by
    rw [show ofNames ns ++ "/.." = ofNames ns ++ "/" ++ ".." by rw [String.append_assoc]; rfl, parts_append_slash]
    rfl
  have hup : addPart true ns.reverse ".." = ns.dropLast.reverse := by
    obtain rfl | ⟨init, last, rfl⟩ := List.eq_nil_or_concat ns
    · rfl
    · have hlast := h last (by simp)
      simp [addPart, hlast.2.2.1]
  rw [parent, clean_of_isRooted (isRooted_append (isRooted_ofNames _) _), hdots, List.foldl_append,
    foldl_parts_ofNames h, List.foldl_cons, List.foldl_nil, hup, List.reverse_reverse]

end Path

end Linkage
