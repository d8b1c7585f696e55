import Linkage.Proofs.Following

/-!
Which constants of an assembly have a value. A dynamic constant is computed by a bootstrap method from other constants;
where all of these are of the right kinds and no constant is computed from itself, each of them unfolds.
-/
namespace Linkage

namespace Pool

/-- The slot holds a loadable constant; if that is a dynamic one, its bootstrap method exists. -/
def IsLoadable (pool : Pool) (slot : Nat) : Prop :=
  ∃ c, pool.Holds slot c ∧ c.tag ∈ loadableTags ∧
    ∀ bootstrap pair, c = .dynamic bootstrap pair → bootstrap < pool.bootstraps.size

/-- Each bootstrap method has a handle and loadable arguments, and no constant is computed from itself. -/
structure Linked (pool : Pool) : Prop where
  handle {b : Bootstrap} (h : b ∈ pool.bootstraps) :
    ∃ kind reference, pool.Holds b.handle (.methodHandle kind reference)
  arguments {b : Bootstrap} (h : b ∈ pool.bootstraps) : ∀ argument ∈ b.arguments, pool.IsLoadable argument
  acyclic (slot : Nat) : ¬ Relation.TransGen pool.Feeds slot slot

/-- A dynamic constant has a name and a descriptor. -/
def Outline.Described (pool : Pool) : Outline → Prop
  | .value _ => True
  | .dynamic _ pair => ∃ described, pool.nameAndType pair = .ok described

/-- Loadable constants find the constants that they refer to. -/
def Closed (pool : Pool) : Prop :=
  ∀ slot c, pool.Holds slot c → c.tag ∈ loadableTags → ∃ o : Outline, pool.outline slot = .ok o ∧ o.Described pool

variable {pool : Pool}

theorem Closed.handle (hc : pool.Closed) {slot kind reference : Nat}
    (h : pool.Holds slot (.methodHandle kind reference)) : ∃ handle, pool.handle slot = .ok handle := by
  obtain ⟨o, ho, -⟩ := hc slot _ h (by simp [Constant.tag, loadableTags])
  have hat : pool.loadableAt slot = .ok .handle := expect_eq_ok_iff.mpr ⟨_, h, rfl⟩
  rw [outline, hat, ok_bind] at ho
  obtain ⟨handle, hh, -⟩ := bind_eq_ok_iff.mp ho
  exact ⟨handle, hh⟩

theorem Linked.bootstrap (hl : pool.Linked) (hc : pool.Closed) {number : Nat} (h : number < pool.bootstraps.size) :
    ∃ method handle, pool.bootstrapAt number = .ok method ∧ pool.handle method.handle = .ok handle ∧
      ∀ argument ∈ method.arguments, pool.IsLoadable argument := by
  have hmem : pool.bootstraps[number] ∈ pool.bootstraps := Array.getElem_mem h
  obtain ⟨kind, reference, hheld⟩ := hl.handle hmem
  obtain ⟨handle, hh⟩ := hc.handle hheld
  exact ⟨_, handle, bootstrapAt_eq_ok_iff.mpr (Array.getElem?_eq_getElem h), hh, hl.arguments hmem⟩

theorem Linked.recipe (hl : pool.Linked) (hc : pool.Closed) {number pair : Nat}
    (h : (Outline.dynamic number pair).Described pool) (hn : number < pool.bootstraps.size) :
    ∃ r, pool.recipe number pair = .ok r ∧ ∀ argument ∈ r.arguments, pool.IsLoadable argument := by
  obtain ⟨⟨name, descriptor⟩, hp⟩ := h
  obtain ⟨method, handle, hm, hh, ha⟩ := hl.bootstrap hc hn
  refine ⟨⟨name, descriptor, handle, method.arguments⟩, ?_, ha⟩
  simp only [Pool.recipe, hp, hm, hh, ok_bind]
  rfl

/-- Unfolding never meets a constant that is being unfolded: each of those is computed from the current one. -/
theorem Linked.unfoldWithin (hl : pool.Linked) (hc : pool.Closed) {free : List Nat} {slot : Nat}
    (h : pool.IsLoadable slot)
    (hpending : ∀ pending ∈ pool.dynamicSlots, pending ∉ free → Relation.TransGen pool.Feeds pending slot) :
    ∃ value, pool.unfoldWithin free slot = .ok value := by
  induction hn : free.length using Nat.strongRecOn generalizing free slot with
  | ind n ih =>
    obtain ⟨c, hheld, htag, hnumber⟩ := h
    obtain ⟨o, ho, hdescribed⟩ := hc slot c hheld htag
    rw [Pool.unfoldWithin, ho, ok_bind]
    cases o with
    | value value => exact ⟨value, rfl⟩
    | dynamic number pair =>
      have hdynamic := outline_eq_dynamic_iff.mp ho
      obtain ⟨r, hr, hargs⟩ := hl.recipe hc hdescribed (hnumber _ _ (hheld.unique hdynamic))
      have hfree : slot ∈ free := by
        by_contra hnot
        exact hl.acyclic slot (hpending slot (mem_dynamicSlots_of_holds hdynamic) hnot)
      have hlt : (free.erase slot).length < n := by
        have := List.length_erase_of_mem hfree
        have := List.length_pos_of_mem hfree
        omega
      obtain ⟨values, hvalues⟩ := exists_mapM_eq_ok fun argument ha =>
        ih _ hlt (hargs argument ha) (fun pending hd hnot => by
          have hstep : pool.Feeds slot argument := ⟨number, pair, r, ho, hr, ha⟩
          by_cases hp : pending = slot
          · exact hp ▸ .single hstep
          · exact .tail (hpending pending hd fun hf => hnot ((List.mem_erase_of_ne hp).mpr hf)) hstep) rfl
      exact ⟨r.build values, by simp only [hfree, dite_true, hr, ok_bind, hvalues]; rfl⟩

/-- Loadable constants have a value. -/
theorem Linked.loadable (hl : pool.Linked) (hc : pool.Closed) {slot : Nat} (h : pool.IsLoadable slot) :
    ∃ value, (pool.loadable slot []).1 = .ok value := by
  rw [loadable_nil]
  exact hl.unfoldWithin hc h fun _ hd hnot => absurd hd hnot

end Pool

/-- What is told refers to a loadable constant or to a bootstrap method that exists. -/
def Told.Linked (pool : Pool) : Told → Prop
  | .event _ => True
  | .load slot => pool.IsLoadable slot
  | .site _ _ number => number < pool.bootstraps.size

theorem Told.Linked.resolve {pool : Pool} {t : Told} (h : t.Linked pool) (hl : pool.Linked) (hc : pool.Closed) :
    ∃ e, t.resolve pool = .ok e := by
  cases t with
  | event e => exact ⟨e, rfl⟩
  | load slot =>
    obtain ⟨value, hvalue⟩ := hl.loadable hc h
    exact ⟨.ldc value, by rw [Told.resolve, hvalue]; rfl⟩
  | site name descriptor number =>
    obtain ⟨method, handle, hm, hh, hargs⟩ := hl.bootstrap hc h
    obtain ⟨values, hvalues⟩ := exists_mapM_eq_ok fun argument ha => hl.loadable hc (hargs argument ha)
    exact ⟨.invokeDynamic name descriptor (some handle) values, by
      rw [Told.resolve, hm, ok_bind, hh, ok_bind, hvalues]; rfl⟩

/-! The pool of an assembly. -/

theorem Vocabulary.At.outline {v : Vocabulary} {pool : Pool} {slot : Nat} {entry : Entry} {c : Constant}
    (h : v.At pool slot entry) (hc : pool.Holds slot c) (ht : c.tag ∈ Pool.loadableTags) :
    ∃ o : Pool.Outline, pool.outline slot = .ok o ∧ o.Described pool := by
  have hnot {d : Constant} (hd : pool.Holds slot d) (htag : d.tag ∉ Pool.loadableTags) : False :=
    htag (hc.unique hd ▸ ht)
  cases entry with
  | utf8 text => exact (hnot (Pool.utf8_eq_ok_iff.mp h.2) (by simp [Constant.tag, Pool.loadableTags])).elim
  | type name =>
    obtain ⟨text, hheld, htext⟩ := Pool.className_eq_ok_iff.mp h
    exact ⟨_, Pool.outline_type hheld (Pool.utf8_eq_ok_iff.mpr htext), trivial⟩
  | string text =>
    obtain ⟨text, hheld, htext⟩ := h
    exact ⟨_, Pool.outline_string hheld htext, trivial⟩
  | integer value => exact ⟨_, Pool.outline_integer h, trivial⟩
  | pair spelling =>
    obtain ⟨name, descriptor, -, -, hn⟩ := h
    obtain ⟨first, second, hheld, -⟩ := Pool.nameAndType_eq_ok_iff.mp hn
    exact (hnot hheld (by simp [Constant.tag, Pool.loadableTags])).elim
  | member kind spelling =>
    obtain ⟨owner, name, descriptor, -, -, -, hm⟩ := h
    obtain ⟨kind', -, ownerSlot, pairSlot, hheld, -⟩ := Pool.memberRef_eq_ok_iff.mp hm
    exact (hnot hheld (by cases kind' <;> simp [Constant.tag, Pool.loadableTags])).elim
  | handle kind reference =>
    obtain ⟨hheld, member, spelling, owner, name, descriptor, -, -, -, hm⟩ := h
    exact ⟨_, Pool.outline_handle hheld (Pool.handle_of_memberRef hheld hm), trivial⟩
  | methodType descriptor =>
    obtain ⟨text, hheld, htext⟩ := h
    exact ⟨_, Pool.outline_methodType hheld htext, trivial⟩
  | dynamic bootstrap pair =>
    obtain ⟨hheld, spelling, name, descriptor, -, -, hn⟩ := h
    exact ⟨_, Pool.outline_eq_dynamic_iff.mpr hheld, (name, descriptor), hn⟩
  | site bootstrap pair => exact (hnot h.1 (by simp [Constant.tag, Pool.loadableTags])).elim

variable {v : Vocabulary} {a : Assembler}

/-- The pool of an assembly refers to nothing but what it holds. -/
theorem Assembler.Keyed.closed (hk : a.Keyed v) : a.pool.Closed := by
  intro slot c h ht
  obtain ⟨i, key, rfl, hi⟩ := Assembler.pool_holds_iff.mp h
  obtain ⟨entry, -, hat⟩ := hk i key c hi
  exact hat.outline h ht

end Linkage
