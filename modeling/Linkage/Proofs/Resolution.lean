import Mathlib.Logic.Relation
import Linkage.Proofs.Pool

/-!
What a loadable constant stands for. The value of a dynamic constant is the tree that its bootstrap arguments unfold
into; `Unfolds` says so without any order of work, `unfoldWithin` computes it without remembering anything. The main
statement is that remembering is invisible: a resolution that starts with a sound memo gives what unfolding gives,
value or fault, and leaves a sound memo.
-/
namespace Linkage

namespace Pool

/-- A loadable constant as far as it resolves without bootstrap methods. -/
inductive Outline where
  | value (value : Literal)
  | dynamic (bootstrap nameAndType : Nat)

def outline (pool : Pool) (index : Nat) : Except PoolFault Outline := do
  match ← pool.loadableAt index with
  | .value value => return .value value
  | .string text => return .value (.string (← pool.utf8 text))
  | .type name => return .value (.type (← pool.utf8 name))
  | .methodType descriptor => return .value (.methodType (← pool.utf8 descriptor))
  | .handle => return .value (.handle (← pool.handle index))
  | .dynamic bootstrap nameAndType => return .dynamic bootstrap nameAndType

/-- What a bootstrap method computes from: a name, a descriptor, a handle and the slots of the arguments. -/
structure Recipe where
  name : String
  descriptor : String
  handle : Handle
  arguments : List Nat

def recipe (pool : Pool) (bootstrap nameAndType : Nat) : Except PoolFault Recipe := do
  let (name, descriptor) ← pool.nameAndType nameAndType
  let method ← pool.bootstrapAt bootstrap
  let handle ← pool.handle method.handle
  return ⟨name, descriptor, handle, method.arguments⟩

def Recipe.build (r : Recipe) (arguments : List Literal) : Literal :=
  .dynamic r.name r.descriptor (some r.handle) arguments

/-- The value of a loadable constant by unfolding alone. -/
def unfoldWithin (pool : Pool) (free : List Nat) (index : Nat) : Except PoolFault Literal := do
  match ← pool.outline index with
  | .value value => return value
  | .dynamic bootstrap nameAndType =>
    if _h : index ∈ free then
      let r ← pool.recipe bootstrap nameAndType
      return r.build (← r.arguments.mapM fun argument => pool.unfoldWithin (free.erase index) argument)
    else throw (.circular index)
termination_by free.length
decreasing_by
  have := List.length_erase_of_mem _h
  have := List.length_pos_of_mem _h
  omega

def unfold (pool : Pool) (index : Nat) : Except PoolFault Literal := pool.unfoldWithin pool.dynamicSlots index

/-- The tree that a loadable constant stands for. -/
inductive Unfolds (pool : Pool) : Nat → Literal → Prop
  | value {index : Nat} {value : Literal} (h : pool.outline index = .ok (.value value)) : Unfolds pool index value
  | dynamic {index bootstrap nameAndType : Nat} {r : Recipe} {values : List Literal}
      (h : pool.outline index = .ok (.dynamic bootstrap nameAndType)) (hr : pool.recipe bootstrap nameAndType = .ok r)
      (hl : r.arguments.length = values.length) (hv : ∀ p ∈ r.arguments.zip values, Unfolds pool p.1 p.2) :
      Unfolds pool index (r.build values)

/-- The dynamic constant in the first slot has the second slot among its bootstrap arguments. -/
def Feeds (pool : Pool) (index argument : Nat) : Prop :=
  ∃ bootstrap nameAndType r, pool.outline index = .ok (.dynamic bootstrap nameAndType) ∧
    pool.recipe bootstrap nameAndType = .ok r ∧ argument ∈ r.arguments

variable {pool : Pool}

theorem outline_eq_dynamic_iff {index bootstrap nameAndType : Nat} :
    pool.outline index = .ok (.dynamic bootstrap nameAndType) ↔ pool.Holds index (.dynamic bootstrap nameAndType) := by
  rw [outline, bind_eq_ok_iff]
  simp only [loadableAt, expect_eq_ok_iff]
  constructor
  · rintro ⟨loadable, ⟨c, hc, h⟩, ho⟩
    cases loadable <;> simp only [bind_eq_ok_iff, pure, Except.pure, Except.ok.injEq, reduceCtorEq, and_false,
      exists_false, Outline.dynamic.injEq] at ho
    obtain ⟨rfl, rfl⟩ := ho
    cases c <;> simp at h
    exact h.1 ▸ h.2 ▸ hc
  · intro h
    exact ⟨_, ⟨_, h, rfl⟩, rfl⟩

theorem Unfolds.unique {pool : Pool} {index : Nat} {v w : Literal} (hv : Unfolds pool index v)
    (hw : Unfolds pool index w) : v = w := by
  induction hv generalizing w with
  | value h =>
    cases hw with
    | value h' => simpa [h] using h'
    | dynamic h' => simp [h] at h'
  | @dynamic index bootstrap nameAndType r values h hr hl _ ih =>
    cases hw with
    | value h' => simp [h] at h'
    | @dynamic _ bootstrap' nameAndType' r' values' h' hr' hl' hv' =>
      simp only [h, Except.ok.injEq, Outline.dynamic.injEq] at h'
      obtain ⟨rfl, rfl⟩ := h'
      rw [hr, Except.ok.injEq] at hr'
      subst r'
      congr 1
      apply List.ext_getElem (hl.symm.trans hl')
      intro k hk hk'
      have ha : k < r.arguments.length := by omega
      have hm : (r.arguments[k], values[k]) ∈ r.arguments.zip values := by
        rw [← List.getElem_zip (h := by simp; omega)]
        exact List.getElem_mem _
      have hm' : (r.arguments[k], values'[k]) ∈ r.arguments.zip values' := by
        rw [← List.getElem_zip (h := by simp; omega)]
        exact List.getElem_mem _
      exact ih _ hm (hv' _ hm')

/-- An argument of a dynamic constant that unfolds does so too, into a smaller tree. -/
theorem Unfolds.argument {index argument : Nat} {v : Literal} (hv : Unfolds pool index v)
    (hf : pool.Feeds index argument) : ∃ w, Unfolds pool argument w ∧ sizeOf w < sizeOf v := by
  obtain ⟨bootstrap, nameAndType, r, h, hr, ha⟩ := hf
  cases hv with
  | value h' => simp [h] at h'
  | @dynamic _ _ _ r' values h' hr' hl hz =>
    simp only [h, Except.ok.injEq, Outline.dynamic.injEq] at h'
    obtain ⟨rfl, rfl⟩ := h'
    rw [hr, Except.ok.injEq] at hr'
    subst r'
    obtain ⟨k, hk, rfl⟩ := List.getElem_of_mem ha
    have hm : (r.arguments[k], values[k]) ∈ r.arguments.zip values := by
      rw [← List.getElem_zip (h := by simp; omega)]
      exact List.getElem_mem _
    refine ⟨values[k], hz _ hm, ?_⟩
    have hs := List.sizeOf_lt_of_mem (List.getElem_mem (l := values) (n := k) (by omega))
    simp only [Recipe.build, Literal.dynamic.sizeOf_spec]
    omega

theorem Unfolds.descendant {index below : Nat} {v : Literal} (hv : Unfolds pool index v)
    (hf : Relation.TransGen pool.Feeds index below) : ∃ w, Unfolds pool below w ∧ sizeOf w < sizeOf v := by
  induction hf with
  | single h => exact hv.argument h
  | tail _ h ih =>
    obtain ⟨w, hw, hlt⟩ := ih
    obtain ⟨u, hu, hlt'⟩ := hw.argument h
    exact ⟨u, hu, Nat.lt_trans hlt' hlt⟩

/-- A constant that unfolds is not among its own arguments, at any depth. -/
theorem Unfolds.not_circular {index : Nat} {v : Literal} (hv : Unfolds pool index v) :
    ¬ Relation.TransGen pool.Feeds index index := by
  intro h
  obtain ⟨w, hw, hlt⟩ := hv.descendant h
  rw [hw.unique hv] at hlt
  exact Nat.lt_irrefl _ hlt

theorem unfolds_of_unfoldWithin {free : List Nat} {index : Nat} {v : Literal}
    (h : pool.unfoldWithin free index = .ok v) : Unfolds pool index v := by
  induction hn : free.length using Nat.strongRecOn generalizing free index v with
  | ind n ih =>
    rw [unfoldWithin, bind_eq_ok_iff] at h
    obtain ⟨o, ho, h⟩ := h
    cases o with
    | value value =>
      simp only [pure, Except.pure, Except.ok.injEq] at h
      exact .value (h ▸ ho)
    | dynamic bootstrap nameAndType =>
      by_cases hf : index ∈ free
      · simp only [hf, dite_true, bind_eq_ok_iff, pure, Except.pure, Except.ok.injEq] at h
        obtain ⟨r, hr, values, hm, rfl⟩ := h
        obtain ⟨hl, hz⟩ := mapM_eq_ok_iff.mp hm
        have hlt : (free.erase index).length < n := by
          have := List.length_erase_of_mem hf
          have := List.length_pos_of_mem hf
          omega
        exact .dynamic ho hr hl fun p hp => ih _ hlt (hz p hp) rfl
      · simp [hf, throw, throwThe, MonadExceptOf.throw] at h

theorem Unfolds.lt {index : Nat} {v : Literal} (hv : Unfolds pool index v) : index < pool.slots.size := by
  obtain ⟨outline, ho⟩ : ∃ outline, pool.outline index = .ok outline := by
    cases hv with
    | value h => exact ⟨_, h⟩
    | dynamic h => exact ⟨_, h⟩
  rw [Pool.outline, bind_eq_ok_iff] at ho
  obtain ⟨loadable, hl, -⟩ := ho
  obtain ⟨c, hc, -⟩ := expect_eq_ok_iff.mp hl
  exact hc.lt

/-- Unfolding succeeds where every dynamic constant that it meets is still free. -/
theorem Unfolds.unfoldWithin_eq {index : Nat} {v : Literal} (hv : Unfolds pool index v) {free : List Nat}
    (hfree : ∀ below, Relation.ReflTransGen pool.Feeds index below → below ∈ pool.dynamicSlots → below ∈ free) :
    pool.unfoldWithin free index = .ok v := by
  induction hv generalizing free with
  | value h => rw [unfoldWithin, h]; rfl
  | @dynamic index bootstrap nameAndType r values h hr hl hz ih =>
    have hv : Unfolds pool index (r.build values) := .dynamic h hr hl hz
    have hf : index ∈ free :=
      hfree index .refl (mem_dynamicSlots_of_holds (outline_eq_dynamic_iff.mp h))
    have hm : (r.arguments.mapM fun argument => pool.unfoldWithin (free.erase index) argument) = .ok values := by
      refine mapM_eq_ok_iff.mpr ⟨hl, fun p hp => ih p hp fun below hb hd => ?_⟩
      have hstep : pool.Feeds index p.1 := ⟨bootstrap, nameAndType, r, h, hr, (List.of_mem_zip hp).1⟩
      have hne : below ≠ index := by
        rintro rfl
        exact hv.not_circular (Relation.TransGen.head' hstep hb)
      exact (List.mem_erase_of_ne hne).mpr (hfree below (.head hstep hb) hd)
    rw [unfoldWithin, h, ok_bind]
    simp only [hf, dite_true, hr, ok_bind, hm]
    rfl

end Pool

/-- Every remembered constant has the value that it unfolds into. -/
def Memo.Sound (pool : Pool) (memo : Memo) : Prop := ∀ index v, memo.lookup index = some v → pool.Unfolds index v

theorem Memo.sound_nil (pool : Pool) : Memo.Sound pool [] := by
  intro index v h
  simp at h

theorem Memo.Sound.cons {pool : Pool} {memo : Memo} (hm : Memo.Sound pool memo) {index : Nat} {v : Literal}
    (hv : pool.Unfolds index v) : Memo.Sound pool ((index, v) :: memo) := by
  intro i w h
  by_cases hi : i = index
  · subst hi
    simp only [List.lookup_cons_self, Option.some.injEq] at h
    exact h ▸ hv
  · rw [List.lookup_cons, beq_false_of_ne hi] at h
    exact hm i w h

namespace Pool

variable {pool : Pool}

/-- The work of a resolution behind the memo: unfold the arguments and remember the value. -/
def compute (pool : Pool) (free : List Nat) (index bootstrap nameAndType : Nat) : Resolve Literal := do
  let r ← pool.recipe bootstrap nameAndType
  let value := r.build (← r.arguments.mapM fun argument => pool.loadableWithin (free.erase index) argument)
  modify ((index, value) :: ·)
  return value

/-- A resolution looks at the outline of the constant, then into the memo, and only then at the free slots. -/
theorem loadableWithin_eq (free : List Nat) (index : Nat) :
    pool.loadableWithin free index = (do
      match ← (pool.outline index : Resolve Outline) with
      | .value value => return value
      | .dynamic bootstrap nameAndType =>
        match (← get).lookup index with
        | some value => return value
        | none => if index ∈ free then pool.compute free index bootstrap nameAndType else throw (.circular index)) := by
  rw [loadableWithin, outline]
  cases pool.loadableAt index with
  | error fault => rfl
  | ok loadable =>
    rw [Run.lift_ok_bind, ok_bind]
    cases loadable with
    | value value => rfl
    | string text => dsimp only; cases pool.utf8 text <;> rfl
    | type name => dsimp only; cases pool.utf8 name <;> rfl
    | methodType descriptor => dsimp only; cases pool.utf8 descriptor <;> rfl
    | handle => dsimp only; cases pool.handle index <;> rfl
    | dynamic bootstrap nameAndType =>
      funext memo
      have ho : (pure (Outline.dynamic bootstrap nameAndType) : Except PoolFault Outline) = .ok _ := rfl
      dsimp only
      rw [ho, Run.lift_ok_bind]
      dsimp only
      rw [Run.bind_ok (Run.get_apply memo), Run.bind_ok (Run.get_apply memo)]
      cases memo.lookup index with
      | some value => rfl
      | none =>
        by_cases hf : index ∈ free
        · simp only [hf, dite_true, if_true, compute, recipe]
          cases pool.nameAndType nameAndType with
          | error fault => rfl
          | ok described =>
            simp only [Run.lift_ok_bind, ok_bind]
            cases pool.bootstrapAt bootstrap with
            | error fault => rfl
            | ok method =>
              simp only [Run.lift_ok_bind, ok_bind]
              cases pool.handle method.handle <;> rfl
        · simp only [hf, dite_false, if_false]

/-- Remembering is invisible as long as every constant that is being unfolded has the current one among its
arguments, at some depth. -/
theorem loadableWithin_yields {free : List Nat} {index : Nat}
    (hp : ∀ pending ∈ pool.dynamicSlots, pending ∉ free → Relation.TransGen pool.Feeds pending index) :
    Run.Yields (Memo.Sound pool) (pool.loadableWithin free index) (pool.unfoldWithin free index) := by
  induction hn : free.length using Nat.strongRecOn generalizing free index with
  | ind n ih =>
    rw [loadableWithin_eq, unfoldWithin]
    refine (Run.yields_lift _).bind fun o ho => ?_
    cases o with
    | value value => exact Run.yields_pure value
    | dynamic bootstrap nameAndType =>
      intro memo hm
      dsimp only
      rw [Run.bind_ok (Run.get_apply memo)]
      cases hk : memo.lookup index with
      | some v =>
        -- A remembered constant meets no pending one: that one would have itself among its arguments.
        have hv : pool.Unfolds index v := hm index v hk
        have hfree : ∀ below, Relation.ReflTransGen pool.Feeds index below → below ∈ pool.dynamicSlots →
            below ∈ free := by
          intro below hb hd
          by_cases hf : below ∈ free
          · exact hf
          · exact absurd (Relation.TransGen.trans_right hb (hp below hd hf)) hv.not_circular
        have hu := hv.unfoldWithin_eq hfree
        rw [unfoldWithin, ho, ok_bind] at hu
        dsimp only at hu
        exact ⟨memo, by rw [hu]; rfl, hm⟩
      | none =>
        by_cases hf : index ∈ free
        · have hlt : (free.erase index).length < n := by
            have := List.length_erase_of_mem hf
            have := List.length_pos_of_mem hf
            omega
          simp only [hf, if_true, dite_true, compute]
          refine (Run.yields_lift _).bind (fun r hr => ?_) memo hm
          have hargs : Run.Yields (Memo.Sound pool)
              (r.arguments.mapM fun argument => pool.loadableWithin (free.erase index) argument)
              (r.arguments.mapM fun argument => pool.unfoldWithin (free.erase index) argument) := by
            refine Run.Yields.mapM fun argument ha => ih _ hlt (fun pending hd hn => ?_) rfl
            have hstep : pool.Feeds index argument := ⟨bootstrap, nameAndType, r, ho, hr, ha⟩
            by_cases hi : pending = index
            · exact hi ▸ .single hstep
            · exact .tail (hp pending hd fun h => hn ((List.mem_erase_of_ne hi).mpr h)) hstep
          refine hargs.bind fun values hvalues memo hm => ?_
          obtain ⟨hl, hz⟩ := mapM_eq_ok_iff.mp hvalues
          have hv : pool.Unfolds index (r.build values) :=
            .dynamic ho hr hl fun p hp => unfolds_of_unfoldWithin (hz p hp)
          exact ⟨(index, r.build values) :: memo, rfl, hm.cons hv⟩
        · simp only [hf, if_false, dite_false]
          exact Run.yields_throw _ memo hm

/-- The value of a loadable constant does not depend on what is remembered. -/
theorem loadable_yields (index : Nat) :
    Run.Yields (Memo.Sound pool) (pool.loadable index) (pool.unfold index) :=
  loadableWithin_yields fun _ hd hn => absurd hd hn

/-- A call site by unfolding alone. -/
def unfoldSite (pool : Pool) (index : Nat) : Except PoolFault CallSite := do
  let (bootstrap, nameAndType) ← pool.expect index [.invokeDynamic] fun
    | .invokeDynamic bootstrap nameAndType => some (bootstrap, nameAndType)
    | _ => none
  let r ← pool.recipe bootstrap nameAndType
  return ⟨r.name, r.descriptor, r.handle, ← r.arguments.mapM pool.unfold⟩

/-- A call site does not depend on what is remembered. -/
theorem callSite_yields (index : Nat) :
    Run.Yields (Memo.Sound pool) (pool.callSite index) (pool.unfoldSite index) := by
  refine (Run.yields_lift _).bind fun p _ => ?_
  simp only [recipe, bind_assoc, pure_bind]
  refine (Run.yields_lift _).bind fun described _ => (Run.yields_lift _).bind fun method _ =>
    (Run.yields_lift _).bind fun handle _ => ?_
  exact (Run.Yields.mapM fun argument _ => loadable_yields argument).bind fun values _ => Run.yields_pure _

end Pool
end Linkage
