import Mathlib.Data.List.Nodup
import Linkage.Model

/-!
Models that files are merged into. A file gives classes that all stand at its own location. What a model holds after
the classes of some files were added does not depend on the order of the files, nor on how often one of them was
added: for each name it is the first class of that name in the lowest file that has one.
-/
namespace Linkage

/-- The class that stays of a new one and of the one in its place, if there is any. -/
def ClassRecord.prevailing (c : ClassRecord) : Option ClassRecord → ClassRecord
  | some d => if c.location < d.location then c else d
  | none => c

namespace Model

/-- A class that stands before all others has a new name. -/
theorem find?_eq_none_of_lt {c d : ClassRecord} {rest : List ClassRecord}
    (h : (d :: rest).Pairwise fun a b => a.name < b.name) (hlt : c.name < d.name) :
    (d :: rest).find? (·.name == c.name) = none := by
  simp only [List.find?_eq_none, beq_iff_eq, List.mem_cons]
  rintro x (rfl | hx) heq
  · exact String.lt_irrefl _ (heq ▸ hlt)
  · exact String.lt_irrefl _ (heq ▸ String.lt_trans hlt ((List.pairwise_cons.mp h).1 x hx))

theorem find?_insertInto (c : ClassRecord) {ds : List ClassRecord} (h : ds.Pairwise fun a b => a.name < b.name)
    (n : String) :
    (insertInto c ds).1.find? (·.name == n) =
      if c.name = n then some (c.prevailing (ds.find? (·.name == n))) else ds.find? (·.name == n) := by
  induction ds with
  | nil => by_cases hn : c.name = n <;> simp [insertInto, hn, ClassRecord.prevailing]
  | cons d rest ih =>
    obtain ⟨-, hrest⟩ := List.pairwise_cons.mp h
    rw [insertInto]
    split
    · rename_i hlt
      by_cases hn : c.name = n
      · subst hn
        rw [find?_eq_none_of_lt h hlt]
        simp [ClassRecord.prevailing]
      · simp [hn]
    · split
      · rename_i heq
        by_cases hn : c.name = n
        · have hdn : d.name = n := heq ▸ hn
          by_cases hl : c.location < d.location <;> simp [hl, hn, hdn, ClassRecord.prevailing]
        · have hdn : d.name ≠ n := heq ▸ hn
          by_cases hl : c.location < d.location <;> simp [hl, hn, hdn]
      · rename_i hne
        by_cases hdn : d.name = n
        · have hn : c.name ≠ n := hdn ▸ hne
          simp [hn, hdn]
        · simp [hdn, ih hrest]

theorem find?_add (m : Model) (c : ClassRecord) (n : String) :
    (m.add c).1.find? n = if c.name = n then some (c.prevailing (m.find? n)) else m.find? n :=
  find?_insertInto c m.rising n

theorem nodup_names (m : Model) : m.names.Nodup := by
  rw [names, List.Nodup, List.pairwise_map]
  refine m.rising.imp fun {a b} hlt => ?_
  intro heq
  exact String.lt_irrefl b.name (heq ▸ hlt)

theorem find?_eq_some_iff {m : Model} {n : String} {c : ClassRecord} :
    m.find? n = some c ↔ c ∈ m.classes ∧ c.name = n := by
  constructor
  · intro h
    exact ⟨List.mem_of_find?_eq_some h, by simpa using List.find?_some h⟩
  · rintro ⟨hc, rfl⟩
    obtain ⟨d, hd⟩ : ∃ d, m.find? c.name = some d := by
      rw [← Option.isSome_iff_exists, find?, List.find?_isSome]
      exact ⟨c, hc, by simp⟩
    have hname : d.name = c.name := by simpa using List.find?_some hd
    rw [hd, List.inj_on_of_nodup_map m.nodup_names (List.mem_of_find?_eq_some hd) hc hname]

/-- A model is told by what it answers to names. -/
theorem ext_find? {m m' : Model} (h : ∀ n, m.find? n = m'.find? n) : m = m' := by
  have hmem (c : ClassRecord) : c ∈ m.classes ↔ c ∈ m'.classes := by
    have hc := find?_eq_some_iff (m := m) (n := c.name) (c := c)
    rw [h, find?_eq_some_iff] at hc
    simpa using hc.symm
  have hperm : m.classes.Perm m'.classes :=
    (List.perm_ext_iff_of_nodup m.nodup_names.of_map m'.nodup_names.of_map).mpr hmem
  have hclasses : m.classes = m'.classes :=
    hperm.eq_of_pairwise (fun a b _ _ hab hba => absurd (String.lt_trans hab hba) (String.lt_irrefl _)) m.rising
      m'.rising
  obtain ⟨classes, rising⟩ := m
  obtain ⟨classes', rising'⟩ := m'
  subst hclasses
  rfl

/-- Adds classes in their order. -/
def addEach (m : Model) (cs : List ClassRecord) : Model := cs.foldl (fun m c => (m.add c).1) m

/-- Of classes at one location the first of each name counts. -/
theorem find?_addEach (m : Model) {cs : List ClassRecord} {location : String} (h : ∀ c ∈ cs, c.location = location)
    (n : String) :
    (m.addEach cs).find? n =
      match cs.find? (·.name == n) with
      | some c => some (c.prevailing (m.find? n))
      | none => m.find? n := by
  induction cs generalizing m with
  | nil => rfl
  | cons c cs ih =>
    have hc : c.location = location := h c (by simp)
    rw [addEach, List.foldl_cons, ← addEach, ih (m.add c).1 (fun c hc => h c (by simp [hc])), find?_add]
    by_cases hn : c.name = n
    · -- a later class of the name is at the same location and gives way
      have hstays (d : ClassRecord) (hd : d.location = location) :
          d.prevailing (some (c.prevailing (m.find? n))) = c.prevailing (m.find? n) := by
        rw [ClassRecord.prevailing, if_neg]
        cases m.find? n with
        | none => simp [ClassRecord.prevailing, hc, hd]
        | some e =>
          rw [ClassRecord.prevailing]
          split
          · simp [hc, hd]
          · rename_i hl
            rwa [hd, ← hc]
      rw [List.find?_cons_of_pos (by simpa using hn), if_pos hn]
      cases hd : cs.find? (·.name == n) with
      | none => rfl
      | some d => simp [hstays d (h d (by simp [List.mem_of_find?_eq_some hd]))]
    · rw [List.find?_cons_of_neg (by simpa using hn), if_neg hn]

/-- The first class of a name among those of a file. -/
def firstOf (records : String → List ClassRecord) (file n : String) : Option ClassRecord :=
  (records file).find? (·.name == n)

/-- The class is the first of its name in the lowest of the files that have the name. -/
structure FirstIn (records : String → List ClassRecord) (files : List String) (n : String) (c : ClassRecord)
    (file : String) : Prop where
  mem : file ∈ files
  first : firstOf records file n = some c
  lowest : ∀ other ∈ files, firstOf records other n ≠ none → file ≤ other

/-- The model holds for each name what the files have of it, and nothing else. -/
structure Holds (records : String → List ClassRecord) (files : List String) (m : Model) : Prop where
  found : ∀ n c, m.find? n = some c → ∃ file, FirstIn records files n c file
  missing : ∀ n, m.find? n = none → ∀ file ∈ files, firstOf records file n = none

section Holds

variable {records : String → List ClassRecord} {files files' : List String} {m m' : Model} {n file file' : String}
  {c c' : ClassRecord}

theorem FirstIn.congr (hc : FirstIn records files n c file) (h : ∀ f, f ∈ files ↔ f ∈ files') :
    FirstIn records files' n c file :=
  ⟨(h file).mp hc.mem, hc.first, fun other ho => hc.lowest other ((h other).mpr ho)⟩

theorem FirstIn.unique (hc : FirstIn records files n c file) (hc' : FirstIn records files n c' file') : c = c' := by
  have hle := hc.lowest file' hc'.mem (by simp [hc'.first])
  have hge := hc'.lowest file hc.mem (by simp [hc.first])
  obtain rfl := String.le_antisymm hle hge
  exact Option.some.inj (hc.first.symm.trans hc'.first)

/-- A file that has the name comes to those that the class prevails over. -/
theorem FirstIn.cons (hc : FirstIn records files n c file) {other : String}
    (h : firstOf records other n ≠ none → file ≤ other) : FirstIn records (other :: files) n c file where
  mem := .tail _ hc.mem
  first := hc.first
  lowest
    | _, .head _ => h
    | other, .tail _ ho => hc.lowest other ho

/-- A file that stands before all those that have the name brings the class. -/
theorem FirstIn.head (hfirst : firstOf records file n = some c)
    (h : ∀ other ∈ files, firstOf records other n ≠ none → file ≤ other) : FirstIn records (file :: files) n c file where
  mem := .head _
  first := hfirst
  lowest
    | _, .head _ => fun _ => String.le_refl _
    | other, .tail _ ho => h other ho

theorem holds_empty (records : String → List ClassRecord) : Holds records [] empty :=
  ⟨nofun, fun _ _ _ h => absurd h List.not_mem_nil⟩

/-- Only which files there are counts, not their order or number. -/
theorem Holds.congr (hm : Holds records files m) (h : ∀ f, f ∈ files ↔ f ∈ files') : Holds records files' m where
  found n c hc := (hm.found n c hc).imp fun _ hf => hf.congr h
  missing n hn file hf := hm.missing n hn file ((h file).mpr hf)

theorem Holds.unique (hm : Holds records files m) (hm' : Holds records files m') : m = m' := by
  refine ext_find? fun n => ?_
  cases hc : m.find? n with
  | none =>
    cases hc' : m'.find? n with
    | none => rfl
    | some c' =>
      obtain ⟨file, hf⟩ := hm'.found n c' hc'
      cases hf.first.symm.trans (hm.missing n hc file hf.mem)
  | some c =>
    obtain ⟨file, hf⟩ := hm.found n c hc
    cases hc' : m'.find? n with
    | none => cases hf.first.symm.trans (hm'.missing n hc' file hf.mem)
    | some c' =>
      obtain ⟨file', hf'⟩ := hm'.found n c' hc'
      rw [hf.unique hf']

/-- The classes of one more file are added whole. -/
theorem Holds.addEach (hm : Holds records files m) (hlocation : ∀ f, ∀ c ∈ records f, c.location = f)
    (file : String) : Holds records (file :: files) (m.addEach (records file)) := by
  have hfind (n : String) : (m.addEach (records file)).find? n =
      match firstOf records file n with
      | some c => some (c.prevailing (m.find? n))
      | none => m.find? n := find?_addEach m (hlocation file) n
  have hplace {file n : String} {c : ClassRecord} (h : firstOf records file n = some c) : c.location = file :=
    hlocation file c (List.mem_of_find?_eq_some h)
  constructor
  · intro n c hc
    rw [hfind] at hc
    cases hnew : firstOf records file n with
    | none =>
      rw [hnew] at hc
      obtain ⟨lowest, hf⟩ := hm.found n c hc
      exact ⟨lowest, hf.cons fun h => absurd hnew h⟩
    | some d =>
      rw [hnew] at hc
      cases hold : m.find? n with
      | none =>
        obtain rfl : d = c := by simpa [hold, ClassRecord.prevailing] using hc
        exact ⟨file, .head hnew fun other ho hother => absurd (hm.missing n hold other ho) hother⟩
      | some e =>
        obtain ⟨lowest, hf⟩ := hm.found n e hold
        simp only [hold, ClassRecord.prevailing, hplace hnew, hplace hf.first, Option.some.injEq] at hc
        split at hc
        · rename_i hlt
          subst hc
          have hle : file ≤ lowest := String.not_lt.mp (String.lt_asymm hlt)
          exact ⟨file, .head hnew fun other ho hother => String.le_trans hle (hf.lowest other ho hother)⟩
        · rename_i hle
          subst hc
          exact ⟨lowest, hf.cons fun _ => String.not_lt.mp hle⟩
  · intro n hn
    rw [hfind] at hn
    cases hnew : firstOf records file n with
    | none =>
      rw [hnew] at hn
      intro other ho
      obtain _ | ⟨_, ho⟩ := ho
      · exact hnew
      · exact hm.missing n hn other ho
    | some d => simp [hnew] at hn

end Holds

end Model
end Linkage
