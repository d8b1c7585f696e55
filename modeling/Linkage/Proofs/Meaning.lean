import Linkage.Proofs.Pool
import Linkage.Proofs.Resolution

/-!
What the constants of a pool stand for, from the slots and the table of the bootstrap methods alone: `Denotes` spells
out the tree of a loadable constant, `Admissible` what has to be in its own slot. Unfolding gives the first of them.
-/
namespace Linkage
namespace Pool

/-- The slot holds this name and descriptor. -/
def Describes (pool : Pool) (index : Nat) (name descriptor : String) : Prop :=
  ∃ first second, pool.Holds index (.nameAndType first second) ∧ pool.Holds first (.utf8 name) ∧
    pool.Holds second (.utf8 descriptor)

/-- The slot holds this handle, which refers to a member of any kind. -/
def Handles (pool : Pool) (index : Nat) (handle : Handle) : Prop :=
  ∃ kind reference sort owner type described, pool.Holds index (.methodHandle kind reference) ∧
    pool.Holds reference (.member sort owner described) ∧ pool.Holds owner (.type type) ∧
    pool.Holds type (.utf8 handle.owner) ∧ pool.Describes described handle.name handle.descriptor ∧
    handle.kind = kind ∧ handle.isInterface = decide (sort = .interfaceMethod)

/-- The slot holds a constant with this value that no bootstrap method computes. -/
inductive Plain (pool : Pool) (index : Nat) : Literal → Prop
  | integer {bits : UInt32} (h : pool.Holds index (.integer bits)) : Plain pool index (.int bits.toInt32)
  | float {bits : UInt32} (h : pool.Holds index (.float bits)) : Plain pool index (.float bits)
  | long {bits : UInt64} (h : pool.Holds index (.long bits)) : Plain pool index (.long bits.toInt64)
  | double {bits : UInt64} (h : pool.Holds index (.double bits)) : Plain pool index (.double bits)
  | string {slot : Nat} {text : String} (h : pool.Holds index (.string slot)) (ht : pool.Holds slot (.utf8 text)) :
    Plain pool index (.string text)
  | type {slot : Nat} {name : String} (h : pool.Holds index (.type slot)) (ht : pool.Holds slot (.utf8 name)) :
    Plain pool index (.type name)
  | methodType {slot : Nat} {descriptor : String} (h : pool.Holds index (.methodType slot))
    (ht : pool.Holds slot (.utf8 descriptor)) : Plain pool index (.methodType descriptor)
  | handle {handle : Handle} (h : pool.Handles index handle) : Plain pool index (.handle handle)

/-- The bootstrap method of the table computes from this recipe. -/
def Prepares (pool : Pool) (bootstrap described : Nat) (r : Recipe) : Prop :=
  pool.Describes described r.name r.descriptor ∧
    ∃ method, pool.bootstraps[bootstrap]? = some method ∧ pool.Handles method.handle r.handle ∧
      r.arguments = method.arguments

/-- The tree that the constant in a slot unfolds into, with the arguments in the order of the table. -/
inductive Denotes (pool : Pool) : Nat → Literal → Prop
  | plain {index : Nat} {value : Literal} (h : pool.Plain index value) : Denotes pool index value
  | dynamic {index bootstrap described : Nat} {r : Recipe} {values : List Literal}
    (h : pool.Holds index (.dynamic bootstrap described)) (hr : pool.Prepares bootstrap described r)
    (hl : r.arguments.length = values.length) (hv : ∀ p ∈ r.arguments.zip values, Denotes pool p.1 p.2) :
    Denotes pool index (r.build values)

/-- The slot holds a constant of an admissible kind, and the references of its own are well typed. -/
def Admissible (pool : Pool) (index : Nat) : Prop :=
  (∃ value, pool.Plain index value) ∨
    ∃ bootstrap described r, pool.Holds index (.dynamic bootstrap described) ∧ pool.Prepares bootstrap described r

variable {pool : Pool}

theorem handle_eq_ok_iff_handles {index : Nat} {handle : Handle} :
    pool.handle index = .ok handle ↔ pool.Handles index handle := by
  simp only [handle_eq_ok_iff, memberRef_eq_ok_iff, className_eq_ok_iff, nameAndType_eq_ok_iff]
  constructor
  · rintro ⟨kind, reference, ref, h, ⟨sort, -, owner, described, hm, ⟨type, ho, hn⟩, hd, hi⟩, rfl⟩
    exact ⟨kind, reference, sort, owner, type, described, h, hm, ho, hn, hd, rfl, hi⟩
  · rintro ⟨kind, reference, sort, owner, type, described, h, hm, ho, hn, hd, hkind, hi⟩
    refine ⟨kind, reference, ⟨handle.owner, handle.name, handle.descriptor, handle.isInterface⟩, h,
      ⟨sort, ?_, owner, described, hm, ⟨type, ho, hn⟩, hd, hi⟩, by rw [← hkind]⟩
    cases sort <;> simp

theorem recipe_eq_ok_iff {bootstrap described : Nat} {r : Recipe} :
    pool.recipe bootstrap described = .ok r ↔ pool.Prepares bootstrap described r := by
  simp only [recipe, bind_eq_ok_iff, Prod.exists, nameAndType_eq_ok_iff, bootstrapAt_eq_ok_iff,
    handle_eq_ok_iff_handles, pure, Except.pure, Except.ok.injEq]
  constructor
  · rintro ⟨name, descriptor, hd, method, hb, handle, hh, rfl⟩
    exact ⟨hd, method, hb, hh, rfl⟩
  · rintro ⟨hd, method, hb, hh, ha⟩
    exact ⟨r.name, r.descriptor, hd, method, hb, r.handle, hh, by rw [← ha]⟩

theorem outline_eq_value_iff {index : Nat} {value : Literal} :
    pool.outline index = .ok (.value value) ↔ pool.Plain index value := by
  rw [outline, bind_eq_ok_iff]
  simp only [loadableAt, expect_eq_ok_iff]
  constructor
  · rintro ⟨loadable, ⟨c, hc, h⟩, ho⟩
    cases c with
    | integer bits => cases h; cases ho; exact .integer hc
    | float bits => cases h; cases ho; exact .float hc
    | long bits => cases h; cases ho; exact .long hc
    | double bits => cases h; cases ho; exact .double hc
    | string slot =>
      cases h
      obtain ⟨text, ht, ho⟩ := bind_eq_ok_iff.mp ho
      cases ho
      exact .string hc (utf8_eq_ok_iff.mp ht)
    | type slot =>
      cases h
      obtain ⟨name, ht, ho⟩ := bind_eq_ok_iff.mp ho
      cases ho
      exact .type hc (utf8_eq_ok_iff.mp ht)
    | methodType slot =>
      cases h
      obtain ⟨descriptor, ht, ho⟩ := bind_eq_ok_iff.mp ho
      cases ho
      exact .methodType hc (utf8_eq_ok_iff.mp ht)
    | methodHandle kind reference =>
      cases h
      obtain ⟨handle, hh, ho⟩ := bind_eq_ok_iff.mp ho
      cases ho
      exact .handle (handle_eq_ok_iff_handles.mp hh)
    | dynamic bootstrap described => cases h; cases ho
    | _ => cases h
  · intro h
    cases h with
    | integer h => exact ⟨_, ⟨_, h, rfl⟩, rfl⟩
    | float h => exact ⟨_, ⟨_, h, rfl⟩, rfl⟩
    | long h => exact ⟨_, ⟨_, h, rfl⟩, rfl⟩
    | double h => exact ⟨_, ⟨_, h, rfl⟩, rfl⟩
    | string h ht => exact ⟨_, ⟨_, h, rfl⟩, bind_eq_ok_iff.mpr ⟨_, utf8_eq_ok_iff.mpr ht, rfl⟩⟩
    | type h ht => exact ⟨_, ⟨_, h, rfl⟩, bind_eq_ok_iff.mpr ⟨_, utf8_eq_ok_iff.mpr ht, rfl⟩⟩
    | methodType h ht => exact ⟨_, ⟨_, h, rfl⟩, bind_eq_ok_iff.mpr ⟨_, utf8_eq_ok_iff.mpr ht, rfl⟩⟩
    | handle h =>
      obtain ⟨kind, reference, _, _, _, _, hc, -⟩ := id h
      exact ⟨_, ⟨_, hc, rfl⟩, bind_eq_ok_iff.mpr ⟨_, handle_eq_ok_iff_handles.mpr h, rfl⟩⟩

theorem denotes_iff_unfolds {index : Nat} {value : Literal} : pool.Denotes index value ↔ pool.Unfolds index value := by
  constructor
  · intro h
    induction h with
    | plain h => exact .value (outline_eq_value_iff.mpr h)
    | dynamic h hr hl _ ih => exact .dynamic (outline_eq_dynamic_iff.mpr h) (recipe_eq_ok_iff.mpr hr) hl ih
  · intro h
    induction h with
    | value h => exact .plain (outline_eq_value_iff.mp h)
    | dynamic h hr hl _ ih => exact .dynamic (outline_eq_dynamic_iff.mp h) (recipe_eq_ok_iff.mp hr) hl ih

theorem unfold_eq_ok_iff {index : Nat} {value : Literal} :
    pool.unfold index = .ok value ↔ pool.Denotes index value := by
  rw [denotes_iff_unfolds]
  exact ⟨unfolds_of_unfoldWithin, fun h => h.unfoldWithin_eq fun _ _ hd => hd⟩

theorem admissible_iff {index : Nat} : pool.Admissible index ↔ (∃ value, pool.outline index = .ok (.value value)) ∨
    ∃ bootstrap described r, pool.outline index = .ok (.dynamic bootstrap described) ∧
      pool.recipe bootstrap described = .ok r := by
  simp only [Admissible, outline_eq_value_iff, outline_eq_dynamic_iff, recipe_eq_ok_iff]

end Pool
end Linkage
