import Linkage.Member

/-! Analysed classes and the model that holds one class for each name. -/
namespace Linkage

/-- What is known of one class: where it was found, the hash of its bytes and its references in program order. -/
structure ClassRecord where
  name : String
  location : String
  fingerprint : UInt64
  edges : List Access
deriving Repr, DecidableEq, Inhabited

/-- Classes in rising order of their names. -/
structure Model where
  classes : List ClassRecord
  rising : classes.Pairwise fun a b => a.name < b.name

namespace Model

/-- The model without classes. -/
def empty : Model := ⟨[], .nil⟩

instance : Inhabited Model := ⟨empty⟩

/-- Puts a class in its place and answers the class that has to give way. Of two classes of one name the one at the
lower location stays, and at one location the earlier one. -/
def insertInto (c : ClassRecord) : List ClassRecord → List ClassRecord × Option ClassRecord
  | [] => ([c], none)
  | d :: rest =>
    if c.name < d.name then (c :: d :: rest, none)
    else if c.name = d.name then
      if c.location < d.location then (c :: rest, some d) else (d :: rest, some c)
    else
      let (rest, dropped) := insertInto c rest
      (d :: rest, dropped)

theorem name_mem_insertInto {c x : ClassRecord} {ds : List ClassRecord} (h : x ∈ (insertInto c ds).1) :
    x.name = c.name ∨ x ∈ ds := by
  induction ds with
  | nil => simp_all [insertInto]
  | cons d rest ih =>
    rw [insertInto] at h
    split at h
    · rcases List.mem_cons.mp h with rfl | h
      · exact .inl rfl
      · exact .inr h
    · split at h
      · split at h
        · rcases List.mem_cons.mp h with rfl | h
          · exact .inl rfl
          · exact .inr (.tail d h)
        · exact .inr h
      · rcases List.mem_cons.mp h with rfl | h
        · exact .inr (.head rest)
        · exact (ih h).imp id (.tail d)

theorem lt_of_not_lt_of_ne {a b : String} (h : ¬ a < b) (hne : a ≠ b) : b < a := by
  have : ¬ a ≤ b := fun hle => hne (String.le_antisymm hle (String.not_lt.mp h))
  exact String.not_le.mp this

theorem rising_insertInto (c : ClassRecord) {ds : List ClassRecord}
    (h : ds.Pairwise fun a b => a.name < b.name) : (insertInto c ds).1.Pairwise fun a b => a.name < b.name := by
  induction ds with
  | nil => simp [insertInto]
  | cons d rest ih =>
    obtain ⟨hd, hrest⟩ := List.pairwise_cons.mp h
    rw [insertInto]
    split
    · rename_i hlt
      refine List.pairwise_cons.mpr ⟨fun x hx => ?_, h⟩
      rcases List.mem_cons.mp hx with rfl | hx
      · exact hlt
      · exact String.lt_trans hlt (hd x hx)
    · split
      · rename_i heq
        split
        · exact List.pairwise_cons.mpr ⟨fun x hx => heq ▸ hd x hx, hrest⟩
        · exact h
      · rename_i hnlt hne
        refine List.pairwise_cons.mpr ⟨fun x hx => ?_, ih hrest⟩
        rcases name_mem_insertInto hx with hx | hx
        · exact hx ▸ lt_of_not_lt_of_ne hnlt hne
        · exact hd x hx

/-- Adds a class and answers the class that has to give way, if its name was taken. -/
def add (m : Model) (c : ClassRecord) : Model × Option ClassRecord :=
  let inserted := insertInto c m.classes
  (⟨inserted.1, rising_insertInto c m.rising⟩, inserted.2)

def find? (m : Model) (name : String) : Option ClassRecord := m.classes.find? (·.name == name)

def names (m : Model) : List String := m.classes.map (·.name)

/-- All references, class by class. -/
def edges (m : Model) : List Access := m.classes.flatMap (·.edges)

end Model

end Linkage
