import Linkage.Proofs.PoolReading
import Linkage.Proofs.Resolution

/-!
What a reference into the pool that does not resolve says of the pool: the index is beyond the slots, the slot there
holds something else than what is wanted, the bootstrap method is not in the table, or a dynamic constant leads back to
itself. No look-up fails for any other reason.
-/
namespace Linkage

/-- Where there is no value, the error is as told. -/
def FailsIn {ε α : Type} (Fails : ε → Prop) (r : Except ε α) : Prop := ∀ e, r = .error e → Fails e

namespace FailsIn

variable {ε α β : Type} {Fails : ε → Prop}

theorem ok (a : α) : FailsIn Fails (.ok a) := fun _ h => nomatch h

theorem error {e : ε} (h : Fails e) : FailsIn Fails (.error e : Except ε α) := by
  rintro _ ⟨⟩
  exact h

theorem bind {x : Except ε α} {f : α → Except ε β} (hx : FailsIn Fails x) (hf : ∀ a, x = .ok a → FailsIn Fails (f a)) :
    FailsIn Fails (x >>= f) := by
  cases x with
  | error e => exact error (hx e rfl)
  | ok a => exact hf a rfl

theorem mapM {f : α → Except ε β} {as : List α} (hf : ∀ a ∈ as, FailsIn Fails (f a)) : FailsIn Fails (as.mapM f) := by
  induction as with
  | nil => exact ok []
  | cons a as ih =>
    rw [List.mapM_cons]
    have hrest := ih fun a ha => hf a (by simp [ha])
    exact (hf a (by simp)).bind fun b _ => hrest.bind fun bs _ => ok _

end FailsIn

namespace Pool

/-- The kind of constant in a slot, as a number; 0 for a slot that is empty or does not exist. -/
def codeAt (pool : Pool) (index : Nat) : Nat :=
  match pool.slots[index]? with
  | some (some constant) => constant.tag.code
  | _ => 0

end Pool

/-- What the fault says of a pool that it was met in. -/
def PoolFault.OfReference (pool : Pool) : PoolFault → Prop
  | .outOfRange index => index = 0 ∨ pool.slots.size ≤ index
  | .mistyped index code expected =>
    0 < index ∧ index < pool.slots.size ∧ pool.codeAt index = code ∧ ∀ tag ∈ expected, tag.code ≠ code
  | .circular index => Relation.TransGen pool.Feeds index index
  | .bootstrapRange index => pool.bootstraps.size ≤ index
  | .text _ _ | .unknownTag _ _ => False

theorem Tag.code_injective {s t : Tag} (h : s.code = t.code) : s = t := by
  have hs := s.ofCode?_code
  rw [h, t.ofCode?_code] at hs
  exact (Option.some.inj hs).symm

namespace Pool

variable {pool : Pool} {index : Nat}

theorem expect_failsIn {α : Type} {expected : List Tag} {select : Constant → Option α}
    (hselect : ∀ c, select c = none → c.tag ∉ expected) :
    FailsIn (PoolFault.OfReference pool) (pool.expect index expected select) := by
  unfold expect
  by_cases h0 : index = 0
  · rw [if_pos h0]
    exact .error (.inl h0)
  · rw [if_neg h0]
    have hpos : 0 < index := Nat.pos_of_ne_zero h0
    rcases hslot : pool.slots[index]? with - | - | constant
    · exact .error (.inr (Array.getElem?_eq_none_iff.mp hslot))
    · have hlt : index < pool.slots.size := (Array.getElem?_eq_some_iff.mp hslot).1
      have hcode : pool.codeAt index = 0 := by rw [codeAt, hslot]
      refine .error ⟨hpos, hlt, hcode, fun tag _ => ?_⟩
      cases tag <;> decide
    · have hlt : index < pool.slots.size := (Array.getElem?_eq_some_iff.mp hslot).1
      have hcode : pool.codeAt index = constant.tag.code := by rw [codeAt, hslot]
      dsimp only
      cases hc : select constant with
      | some a => exact .ok a
      | none =>
        refine .error ⟨hpos, hlt, hcode, fun tag htag heq => ?_⟩
        exact hselect constant hc (Tag.code_injective heq ▸ htag)

theorem utf8_failsIn : FailsIn (PoolFault.OfReference pool) (pool.utf8 index) := by
  refine expect_failsIn fun c hc => ?_
  unfold Constant.tag
  split <;> simp_all

theorem className_failsIn : FailsIn (PoolFault.OfReference pool) (pool.className index) := by
  refine (expect_failsIn fun c hc => ?_).bind fun name _ => utf8_failsIn
  unfold Constant.tag
  split <;> simp_all

theorem optionalClassName_failsIn : FailsIn (PoolFault.OfReference pool) (pool.optionalClassName index) := by
  unfold optionalClassName
  split
  · exact .ok ""
  · exact className_failsIn

theorem nameAndType_failsIn : FailsIn (PoolFault.OfReference pool) (pool.nameAndType index) := by
  refine (expect_failsIn fun c hc => ?_).bind fun p _ =>
    utf8_failsIn.bind fun name _ => utf8_failsIn.bind fun descriptor _ => .ok _
  unfold Constant.tag
  split <;> simp_all

theorem memberRef_failsIn (kinds : List MemberKind) :
    FailsIn (PoolFault.OfReference pool) (pool.memberRef index kinds) := by
  have htag (kind kind' : MemberKind) (i j : Nat)
      (h : (Constant.member kind 0 0).tag = (Constant.member kind' i j).tag) : kind = kind' := by
    cases kind <;> cases kind' <;> simp_all [Constant.tag]
  refine (expect_failsIn fun c hc hmem => ?_).bind fun p _ =>
    className_failsIn.bind fun owner _ => nameAndType_failsIn.bind fun described _ => .ok _
  obtain ⟨kind, hkind, heq⟩ := List.mem_map.mp hmem
  cases c with
  | member kind' owner described =>
    have hsame := htag kind kind' owner described heq
    simp [← hsame, hkind] at hc
  | _ => cases kind <;> simp [Constant.tag] at heq

theorem handle_failsIn : FailsIn (PoolFault.OfReference pool) (pool.handle index) := by
  refine (expect_failsIn fun c hc => ?_).bind fun p _ => (memberRef_failsIn _).bind fun ref _ => .ok _
  unfold Constant.tag
  split <;> simp_all

theorem bootstrapAt_failsIn : FailsIn (PoolFault.OfReference pool) (pool.bootstrapAt index) := by
  unfold bootstrapAt
  cases h : pool.bootstraps[index]? with
  | some bootstrap => exact .ok bootstrap
  | none => exact .error (Array.getElem?_eq_none_iff.mp h)

theorem loadableAt_failsIn : FailsIn (PoolFault.OfReference pool) (pool.loadableAt index) := by
  refine expect_failsIn fun c hc => ?_
  unfold Constant.tag
  split <;> simp_all [loadableTags]

theorem outline_failsIn : FailsIn (PoolFault.OfReference pool) (pool.outline index) := by
  refine loadableAt_failsIn.bind fun loadable _ => ?_
  cases loadable with
  | value value => exact .ok _
  | string text => exact utf8_failsIn.bind fun _ _ => .ok _
  | type name => exact utf8_failsIn.bind fun _ _ => .ok _
  | methodType descriptor => exact utf8_failsIn.bind fun _ _ => .ok _
  | handle => exact handle_failsIn.bind fun _ _ => .ok _
  | dynamic bootstrap nameAndType => exact .ok _

theorem recipe_failsIn (bootstrap described : Nat) :
    FailsIn (PoolFault.OfReference pool) (pool.recipe bootstrap described) :=
  nameAndType_failsIn.bind fun _ _ => bootstrapAt_failsIn.bind fun _ _ => handle_failsIn.bind fun _ _ => .ok _

/-- The constants that are being unfolded all lead to the current one, so meeting one of them again closes a circle. -/
theorem unfoldWithin_failsIn {free : List Nat}
    (hpending : ∀ pending ∈ pool.dynamicSlots, pending ∉ free → Relation.TransGen pool.Feeds pending index) :
    FailsIn (PoolFault.OfReference pool) (pool.unfoldWithin free index) := by
  induction hn : free.length using Nat.strongRecOn generalizing free index with
  | ind n ih =>
    rw [unfoldWithin]
    refine outline_failsIn.bind fun outline ho => ?_
    cases outline with
    | value value => exact .ok value
    | dynamic bootstrap described =>
      have hslot : index ∈ pool.dynamicSlots := mem_dynamicSlots_of_holds (outline_eq_dynamic_iff.mp ho)
      by_cases hfree : index ∈ free
      · have hlt : (free.erase index).length < n := by
          have := List.length_erase_of_mem hfree
          have := List.length_pos_of_mem hfree
          omega
        simp only [hfree, dite_true]
        refine (recipe_failsIn bootstrap described).bind fun r hr => ?_
        refine (FailsIn.mapM fun argument ha => ih _ hlt (fun pending hd hp => ?_) rfl).bind fun values _ => .ok _
        have hstep : pool.Feeds index argument := ⟨bootstrap, described, r, ho, hr, ha⟩
        by_cases hi : pending = index
        · exact hi ▸ .single hstep
        · exact .tail (hpending pending hd fun h => hp ((List.mem_erase_of_ne hi).mpr h)) hstep
      · simp only [hfree, dite_false]
        exact .error (hpending index hslot hfree)

theorem unfold_failsIn : FailsIn (PoolFault.OfReference pool) (pool.unfold index) :=
  unfoldWithin_failsIn fun _ hd hn => absurd hd hn

theorem unfoldSite_failsIn : FailsIn (PoolFault.OfReference pool) (pool.unfoldSite index) := by
  refine (expect_failsIn fun c hc => ?_).bind fun p _ =>
    (recipe_failsIn p.1 p.2).bind fun r _ => (FailsIn.mapM fun argument _ => unfold_failsIn).bind fun values _ => .ok _
  unfold Constant.tag
  split <;> simp_all

end Pool
end Linkage
