import Mathlib.Data.List.Induction
import Mathlib.Data.String.Basic
import Linkage.Proofs.ByteOrder
import Linkage.Proofs.Merging

/-!
Classes that are added one after the other to a model that is empty at first. Adding conserves: of the new class and the
one in its place, one is held and the other is answered. So the classes held at the end and those answered on the way
are the classes added. Held for each name is the earliest of its classes at the lowest location, whatever is added in
between, so that only the order of classes with one name and one location counts.
-/
namespace Linkage
namespace Model

/-! One class added. -/

/-- What is held and what gives way are the classes held before and the new one. -/
theorem perm_insertInto (c : ClassRecord) (ds : List ClassRecord) :
    ((insertInto c ds).1 ++ (insertInto c ds).2.toList).Perm (c :: ds) := by
  induction ds with
  | nil => simp [insertInto]
  | cons d rest ih =>
    rw [insertInto]
    split
    · simp
    · split
      · split
        · exact (List.perm_append_singleton d (c :: rest)).trans (.swap c d rest)
        · exact List.perm_append_singleton c (d :: rest)
      · exact (ih.cons d).trans (.swap c d rest)

theorem perm_add (m : Model) (c : ClassRecord) :
    ((m.add c).1.classes ++ (m.add c).2.toList).Perm (c :: m.classes) :=
  perm_insertInto c m.classes

/-- The class that gives way is the one in the place of the new class, if that is lower, and else the new one. -/
theorem insertInto_snd (c : ClassRecord) {ds : List ClassRecord} (h : ds.Pairwise fun a b => a.name < b.name) :
    (insertInto c ds).2 =
      (ds.find? (·.name == c.name)).map fun d => if c.location < d.location then d else c := by
  induction ds with
  | nil => rfl
  | cons d rest ih =>
    rw [insertInto]
    split
    · rename_i hlt
      rw [find?_eq_none_of_lt h hlt]
      rfl
    · split
      · rename_i heq
        rw [List.find?_cons_of_pos (by simp [heq]), Option.map_some]
        split <;> rfl
      · rename_i hne
        rw [List.find?_cons_of_neg (by simpa using Ne.symm hne)]
        exact ih (List.pairwise_cons.mp h).2

theorem add_snd (m : Model) (c : ClassRecord) :
    (m.add c).2 = (m.find? c.name).map fun d => if c.location < d.location then d else c :=
  insertInto_snd c m.rising

/-! A sequence of classes added. -/

/-- The classes that give way while classes are added in their order. -/
def dropped (m : Model) : List ClassRecord → List ClassRecord
  | [] => []
  | c :: cs => (m.add c).2.toList ++ (m.add c).1.dropped cs

theorem addEach_cons (m : Model) (c : ClassRecord) (cs : List ClassRecord) :
    m.addEach (c :: cs) = (m.add c).1.addEach cs := rfl

theorem addEach_concat (m : Model) (cs : List ClassRecord) (c : ClassRecord) :
    m.addEach (cs ++ [c]) = ((m.addEach cs).add c).1 := by
  simp [addEach]

theorem perm_addEach (m : Model) (cs : List ClassRecord) :
    ((m.addEach cs).classes ++ m.dropped cs).Perm (m.classes ++ cs) := by
  induction cs generalizing m with
  | nil => exact .refl _
  | cons c cs ih =>
    have hstep := m.perm_add c
    have hrest := ih (m.add c).1
    rw [List.perm_iff_count] at hstep hrest ⊢
    intro x
    have hstep := hstep x
    have hrest := hrest x
    simp only [addEach_cons, dropped, List.count_append, List.count_cons] at hstep hrest ⊢
    omega

/-- The class is the earliest of those at the lowest location among the classes of the name. -/
structure Prevails (cs : List ClassRecord) (n : String) (c : ClassRecord) : Prop where
  lowest : ∀ d ∈ cs, d.name = n → ¬ utf8Bytes d.location < utf8Bytes c.location
  earliest : cs.find? (fun d => d.name == n && d.location == c.location) = some c

section

variable {cs : List ClassRecord} {n : String} {c d : ClassRecord}

theorem Prevails.mem (h : Prevails cs n c) : c ∈ cs := List.mem_of_find?_eq_some h.earliest

theorem Prevails.name (h : Prevails cs n c) : c.name = n := by
  have hfound := List.find?_some h.earliest
  simp only [beq_self_eq_true, Bool.and_true, beq_iff_eq] at hfound
  exact hfound

theorem Prevails.unique (hc : Prevails cs n c) (hd : Prevails cs n d) : c = d := by
  have hle := hc.lowest d hd.mem hd.name
  have hge := hd.lowest c hc.mem hc.name
  rw [utf8Bytes_lt_iff] at hle hge
  have hlocation : c.location = d.location := String.le_antisymm (String.not_lt.mp hle) (String.not_lt.mp hge)
  have hfirst := hc.earliest
  rw [hlocation, hd.earliest] at hfirst
  exact (Option.some.inj hfirst).symm

/-- A class prevails over a later one of another name, and over one that is not lower. -/
theorem Prevails.concat (h : Prevails cs n d) (hc : c.name = n → ¬ c.location < d.location) :
    Prevails (cs ++ [c]) n d where
  lowest := by
    intro e he hname
    rcases List.mem_append.mp he with he | he
    · exact h.lowest e he hname
    · obtain rfl := List.mem_singleton.mp he
      rw [utf8Bytes_lt_iff]
      exact hc hname
  earliest := by
    rw [List.find?_append, h.earliest]
    rfl

/-- A class that is lower than all those of its name before it prevails. -/
theorem Prevails.last (h : ∀ d ∈ cs, d.name = c.name → c.location < d.location) : Prevails (cs ++ [c]) c.name c where
  lowest := by
    intro e he hname
    rw [utf8Bytes_lt_iff]
    rcases List.mem_append.mp he with he | he
    · exact String.lt_asymm (h e he hname)
    · obtain rfl := List.mem_singleton.mp he
      exact String.lt_irrefl _
  earliest := by
    have hnone : cs.find? (fun d => d.name == c.name && d.location == c.location) = none := by
      refine List.find?_eq_none.mpr fun d hd heq => ?_
      simp only [Bool.and_eq_true, beq_iff_eq] at heq
      exact String.lt_irrefl _ (heq.2 ▸ h d hd heq.1)
    rw [List.find?_append, hnone]
    simp

/-- What is held for each name after classes were added. -/
theorem find?_addEach_empty (cs : List ClassRecord) (n : String) :
    (∀ c, (empty.addEach cs).find? n = some c → Prevails cs n c) ∧
      ((empty.addEach cs).find? n = none → ∀ c ∈ cs, c.name ≠ n) := by
  induction cs using List.reverseRecOn with
  | nil => exact ⟨nofun, fun _ _ h => absurd h List.not_mem_nil⟩
  | append_singleton cs c ih =>
    obtain ⟨hheld, hnone⟩ := ih
    rw [addEach_concat, find?_add]
    by_cases hn : c.name = n
    · subst hn
      rw [if_pos rfl]
      refine ⟨fun d hd => ?_, nofun⟩
      cases hold : (empty.addEach cs).find? c.name with
      | none =>
        obtain rfl : c = d := by simpa [hold, ClassRecord.prevailing] using hd
        exact .last fun d hd hname => absurd hname (hnone hold d hd)
      | some e =>
        have he := hheld e hold
        simp only [hold, ClassRecord.prevailing, Option.some.injEq] at hd
        split at hd
        · rename_i hlower
          subst hd
          refine .last fun d hd hname => ?_
          have hle := he.lowest d hd hname
          rw [utf8Bytes_lt_iff, String.not_lt] at hle
          exact lt_of_lt_of_le hlower hle
        · rename_i hlower
          subst hd
          exact he.concat fun _ => hlower
    · rw [if_neg hn]
      refine ⟨fun d hd => (hheld d hd).concat fun hname => absurd hname hn, fun h d hd => ?_⟩
      rcases List.mem_append.mp hd with hd | hd
      · exact hnone h d hd
      · obtain rfl := List.mem_singleton.mp hd
        exact hn

theorem find?_addEach_eq_none_iff : (empty.addEach cs).find? n = none ↔ ∀ c ∈ cs, c.name ≠ n := by
  refine ⟨(find?_addEach_empty cs n).2, fun h => Option.eq_none_iff_forall_ne_some.mpr fun c hc => ?_⟩
  have hprevails := (find?_addEach_empty cs n).1 c hc
  exact h c hprevails.mem hprevails.name

theorem find?_addEach_eq_some_iff : (empty.addEach cs).find? n = some c ↔ Prevails cs n c := by
  refine ⟨(find?_addEach_empty cs n).1 c, fun h => ?_⟩
  cases hheld : (empty.addEach cs).find? n with
  | none => exact absurd h.name (find?_addEach_eq_none_iff.mp hheld c h.mem)
  | some d => rw [((find?_addEach_empty cs n).1 d hheld).unique h]

/-- Only the order of the classes with one name and one location counts. -/
theorem Prevails.congr {cs' : List ClassRecord} (h : Prevails cs n c)
    (hsame : ∀ n l, cs.filter (fun d => d.name == n && d.location == l) =
      cs'.filter fun d => d.name == n && d.location == l) : Prevails cs' n c where
  lowest := by
    intro d hd
    have hmem : d ∈ cs'.filter fun e => e.name == d.name && e.location == d.location := by simp [hd]
    rw [← hsame] at hmem
    exact h.lowest d (List.mem_filter.mp hmem).1
  earliest := by
    rw [← List.head?_filter, ← hsame, List.head?_filter]
    exact h.earliest

end

/-- The classes are held under their names; for each name that was added it is the earliest of its classes at the lowest
location. A class of a new name makes no other give way; else, of the class and the one held, the lower is held then,
the earlier if they are at one location, and the other is answered. No class gets lost and none is doubled. Sequences
with the same classes of each name at each location, in the same order, make models with the same names and the same
references. -/
theorem addEach_conserves (cs : List ClassRecord) :
    let m := empty.addEach cs
    (∀ n c, m.find? n = some c → c.name = n) ∧
    ((∀ n c, m.find? n = some c ↔ Prevails cs n c) ∧ ∀ n, (∃ c, m.find? n = some c) ↔ ∃ c ∈ cs, c.name = n) ∧
    (∀ c, ((m.add c).2 = none ↔ ∀ d ∈ cs, d.name ≠ c.name) ∧
      ∀ d, m.find? c.name = some d →
        if utf8Bytes c.location < utf8Bytes d.location then
          (m.add c).2 = some d ∧ (m.add c).1.find? c.name = some c
        else (m.add c).2 = some c ∧ (m.add c).1.find? c.name = some d) ∧
    (m.classes ++ empty.dropped cs).Perm cs ∧
    ∀ cs', (∀ n l, cs.filter (fun d => d.name == n && d.location == l) =
        cs'.filter fun d => d.name == n && d.location == l) →
      m.names = (empty.addEach cs').names ∧ m.edges = (empty.addEach cs').edges := by
  intro m
  refine ⟨fun n c hc => (find?_eq_some_iff.mp hc).2, ⟨fun n c => find?_addEach_eq_some_iff, fun n => ?_⟩,
    fun c => ⟨?_, fun d hd => ?_⟩, perm_addEach empty cs, fun cs' hsame => ?_⟩
  · rw [← Option.isSome_iff_exists, Option.isSome_iff_ne_none, Ne, find?_addEach_eq_none_iff]
    simp
  · rw [add_snd, Option.map_eq_none_iff, find?_addEach_eq_none_iff]
  · rw [add_snd, find?_add, hd]
    split
    · rename_i hlower
      rw [utf8Bytes_lt_iff] at hlower
      simp only [Option.map_some, ClassRecord.prevailing, if_pos hlower, if_true, and_self]
    · rename_i hlower
      rw [utf8Bytes_lt_iff] at hlower
      simp only [Option.map_some, ClassRecord.prevailing, if_neg hlower, if_true, and_self]
  · have hmodel : m = empty.addEach cs' := by
      refine ext_find? fun n => Option.ext fun c => ?_
      rw [find?_addEach_eq_some_iff, find?_addEach_eq_some_iff]
      exact ⟨fun h => h.congr hsame, fun h => h.congr fun n l => (hsame n l).symm⟩
    rw [hmodel]
    exact ⟨rfl, rfl⟩

end Model
end Linkage
