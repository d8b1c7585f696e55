import Linkage.Jvm.Resolve
import Linkage.Proofs.Run

/-! When a reference into the pool resolves: what the slots it leads to must hold. -/
namespace Linkage
namespace Pool

/-- A slot other than the first holds this constant. -/
def Holds (pool : Pool) (index : Nat) (constant : Constant) : Prop :=
  index ≠ 0 ∧ pool.slots[index]? = some (some constant)

variable {pool : Pool}

theorem Holds.unique {index : Nat} {c d : Constant} (hc : pool.Holds index c) (hd : pool.Holds index d) : c = d := by
  have h := hc.2.symm.trans hd.2
  simpa using h

theorem Holds.lt {index : Nat} {c : Constant} (h : pool.Holds index c) : index < pool.slots.size :=
  (Array.getElem?_eq_some_iff.mp h.2).1

theorem expect_eq_ok_iff {α : Type} {index : Nat} {expected : List Tag} {select : Constant → Option α} {a : α} :
    pool.expect index expected select = .ok a ↔ ∃ c, pool.Holds index c ∧ select c = some a := by
  unfold expect Holds
  by_cases h0 : index = 0
  · simp [h0]
  · simp only [h0, if_false, ne_eq, not_false_eq_true, true_and]
    rcases hs : pool.slots[index]? with - | - | c
    · simp
    · simp
    · simp only [Option.some.injEq, exists_eq_left']
      cases hc : select c <;> simp

theorem utf8_eq_ok_iff {index : Nat} {text : String} : pool.utf8 index = .ok text ↔ pool.Holds index (.utf8 text) := by
  rw [utf8, expect_eq_ok_iff]
  constructor
  · rintro ⟨c, hc, h⟩
    cases c <;> simp at h
    exact h ▸ hc
  · intro h
    exact ⟨_, h, rfl⟩

theorem className_eq_ok_iff {index : Nat} {name : String} :
    pool.className index = .ok name ↔ ∃ slot, pool.Holds index (.type slot) ∧ pool.Holds slot (.utf8 name) := by
  rw [className, bind_eq_ok_iff]
  simp only [expect_eq_ok_iff, utf8_eq_ok_iff]
  constructor
  · rintro ⟨slot, ⟨c, hc, h⟩, hs⟩
    cases c <;> simp at h
    exact ⟨slot, h ▸ hc, hs⟩
  · rintro ⟨slot, h, hs⟩
    exact ⟨slot, ⟨_, h, rfl⟩, hs⟩

theorem nameAndType_eq_ok_iff {index : Nat} {name descriptor : String} :
    pool.nameAndType index = .ok (name, descriptor) ↔ ∃ first second,
      pool.Holds index (.nameAndType first second) ∧ pool.Holds first (.utf8 name) ∧
        pool.Holds second (.utf8 descriptor) := by
  simp only [nameAndType, bind_eq_ok_iff, expect_eq_ok_iff, utf8_eq_ok_iff, Prod.exists]
  constructor
  · rintro ⟨first, second, ⟨c, hc, h⟩, n, hn, d, hd, he⟩
    cases c <;> simp at h
    obtain ⟨rfl, rfl⟩ := h
    simp only [pure, Except.pure, Except.ok.injEq, Prod.mk.injEq] at he
    exact ⟨_, _, hc, he.1 ▸ hn, he.2 ▸ hd⟩
  · rintro ⟨first, second, h, hn, hd⟩
    exact ⟨first, second, ⟨_, h, rfl⟩, name, hn, descriptor, hd, rfl⟩

theorem memberRef_eq_ok_iff {index : Nat} {kinds : List MemberKind} {ref : MemberRef} :
    pool.memberRef index kinds = .ok ref ↔ ∃ kind ∈ kinds, ∃ owner described,
      pool.Holds index (.member kind owner described) ∧ pool.className owner = .ok ref.owner ∧
        pool.nameAndType described = .ok (ref.name, ref.descriptor) ∧
        ref.isInterface = decide (kind = .interfaceMethod) := by
  simp only [memberRef, bind_eq_ok_iff, expect_eq_ok_iff, Prod.exists]
  constructor
  · rintro ⟨kind, owner, described, ⟨c, hc, h⟩, o, ho, n, d, hn, he⟩
    cases c <;> simp at h
    obtain ⟨hk, rfl, rfl, rfl⟩ := h
    simp only [pure, Except.pure, Except.ok.injEq] at he
    subst he
    exact ⟨_, hk, _, _, hc, ho, hn, rfl⟩
  · rintro ⟨kind, hk, owner, described, h, ho, hn, hi⟩
    refine ⟨kind, owner, described, ⟨_, h, by simp [hk]⟩, _, ho, _, _, hn, ?_⟩
    rw [← hi]
    rfl

theorem handle_eq_ok_iff {index : Nat} {handle : Handle} :
    pool.handle index = .ok handle ↔ ∃ kind reference ref,
      pool.Holds index (.methodHandle kind reference) ∧
        pool.memberRef reference [.field, .method, .interfaceMethod] = .ok ref ∧
        handle = ⟨kind, ref.owner, ref.name, ref.descriptor, ref.isInterface⟩ := by
  simp only [Pool.handle, bind_eq_ok_iff, expect_eq_ok_iff, Prod.exists]
  constructor
  · rintro ⟨kind, reference, ⟨c, hc, h⟩, ref, hr, he⟩
    cases c <;> simp at h
    obtain ⟨rfl, rfl⟩ := h
    simp only [pure, Except.pure, Except.ok.injEq] at he
    exact ⟨_, _, ref, hc, hr, he.symm⟩
  · rintro ⟨kind, reference, ref, h, hr, rfl⟩
    exact ⟨kind, reference, ⟨_, h, rfl⟩, ref, hr, rfl⟩

theorem bootstrapAt_eq_ok_iff {index : Nat} {b : Bootstrap} :
    pool.bootstrapAt index = .ok b ↔ pool.bootstraps[index]? = some b := by
  unfold bootstrapAt
  cases pool.bootstraps[index]? <;> simp

theorem mem_dynamicSlots_of_holds {index bootstrap described : Nat}
    (h : pool.Holds index (.dynamic bootstrap described)) : index ∈ pool.dynamicSlots := by
  rw [dynamicSlots, List.mem_filter]
  exact ⟨List.mem_range.mpr h.lt, by rw [h.2]⟩

theorem className_lt {index : Nat} {name : String} (h : pool.className index = .ok name) :
    index < pool.slots.size := by
  obtain ⟨text, hheld, -⟩ := className_eq_ok_iff.mp h
  exact hheld.lt

theorem memberRef_lt {index : Nat} {kinds : List MemberKind} {ref : MemberRef}
    (h : pool.memberRef index kinds = .ok ref) : index < pool.slots.size := by
  obtain ⟨kind, -, owner, described, hheld, -⟩ := memberRef_eq_ok_iff.mp h
  exact hheld.lt

theorem utf8_lt {index : Nat} {text : String} (h : pool.utf8 index = .ok text) (hsize : pool.slots.size ≤ 65536) :
    index < 65536 :=
  Nat.lt_of_lt_of_le (utf8_eq_ok_iff.mp h).lt hsize

theorem optionalClassName_lt {index : Nat} {name : String} (h : pool.optionalClassName index = .ok name)
    (hsize : pool.slots.size ≤ 65536) : index < 65536 := by
  by_cases h0 : index = 0
  · omega
  · rw [optionalClassName, if_neg h0] at h
    exact Nat.lt_of_lt_of_le (className_lt h) hsize

end Pool
end Linkage
