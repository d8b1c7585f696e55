import Linkage.Proofs.Meaning
import Linkage.Proofs.Outcomes
import Linkage.Proofs.PoolFaults

/-!
Dynamic constants resolve where they are well typed and contain no circle. A walk follows bootstrap arguments down from
a constant; its position lists the numbers of the arguments taken, so that positions rise in the order of a depth-first
search from left to right. A resolution fails at the first position with a defect, and it names a circle only if the
constant there is on the walk to it.
-/
namespace Linkage

/-- The fault is not that a constant contains itself. -/
def PoolFault.Straight (fault : PoolFault) : Prop := ∀ i, fault ≠ .circular i

namespace Pool

/-- The dynamic constant in the slot has these bootstrap arguments. -/
def Expands (pool : Pool) (index : Nat) (arguments : List Nat) : Prop :=
  ∃ bootstrap described method, pool.Holds index (.dynamic bootstrap described) ∧
    pool.bootstraps[bootstrap]? = some method ∧ method.arguments = arguments

/-- The second slot is among the bootstrap arguments of the first. -/
def Mentions (pool : Pool) (index argument : Nat) : Prop :=
  ∃ arguments, pool.Expands index arguments ∧ argument ∈ arguments

/-- All that the slot leads to is admissible, and nothing there leads to itself. -/
def Grounded (pool : Pool) (index : Nat) : Prop :=
  ∀ below, Relation.ReflTransGen pool.Mentions index below →
    pool.Admissible below ∧ ¬ Relation.TransGen pool.Mentions below below

/-- A walk takes the arguments with the numbers of the position, passes the listed constants and ends below. -/
inductive Descends (pool : Pool) : Nat → List Nat → List Nat → Nat → Prop
  | here {index : Nat} : Descends pool index [] [] index
  | down {index k argument below : Nat} {arguments position passed : List Nat} (h : pool.Expands index arguments)
    (hk : arguments[k]? = some argument) (hrest : Descends pool argument position passed below) :
    Descends pool index (k :: position) (index :: passed) below

/-- A walk that starts at one of some constants; its number is the first of the position. -/
def DescendsIn (pool : Pool) (starts : List Nat) (position passed : List Nat) (below : Nat) : Prop :=
  ∃ k start rest, position = k :: rest ∧ starts[k]? = some start ∧ pool.Descends start rest passed below

variable {pool : Pool}

/-- A look-up of one constant meets no circle, whatever it looks for. -/
theorem expect_straight {α : Type} {index : Nat} {expected : List Tag} {select : Constant → Option α} :
    FailsIn PoolFault.Straight (pool.expect index expected select) := by
  unfold expect
  split
  · exact .error nofun
  · split
    · exact .error nofun
    · exact .error nofun
    · split
      · exact .ok _
      · exact .error nofun

theorem nameAndType_straight {index : Nat} : FailsIn PoolFault.Straight (pool.nameAndType index) :=
  expect_straight.bind fun _ _ => expect_straight.bind fun _ _ => expect_straight.bind fun _ _ => .ok _

theorem handle_straight {index : Nat} : FailsIn PoolFault.Straight (pool.handle index) := by
  have hclass (owner : Nat) : FailsIn PoolFault.Straight (pool.className owner) :=
    expect_straight.bind fun _ _ => expect_straight
  refine expect_straight.bind fun p _ => FailsIn.bind ?_ fun _ _ => .ok _
  exact expect_straight.bind fun q _ => (hclass q.2.1).bind fun _ _ => nameAndType_straight.bind fun _ _ => .ok _

theorem outline_straight {index : Nat} : FailsIn PoolFault.Straight (pool.outline index) := by
  refine expect_straight.bind fun loadable _ => ?_
  cases loadable with
  | value value => exact .ok _
  | string text => exact expect_straight.bind fun _ _ => .ok _
  | type name => exact expect_straight.bind fun _ _ => .ok _
  | methodType descriptor => exact expect_straight.bind fun _ _ => .ok _
  | handle => exact handle_straight.bind fun _ _ => .ok _
  | dynamic bootstrap described => exact .ok _

theorem recipe_straight {bootstrap described : Nat} :
    FailsIn PoolFault.Straight (pool.recipe bootstrap described) := by
  have hbootstrap : FailsIn PoolFault.Straight (pool.bootstrapAt bootstrap) := by
    unfold bootstrapAt
    split
    · exact .ok _
    · exact .error nofun
  exact nameAndType_straight.bind fun _ _ => hbootstrap.bind fun _ _ => handle_straight.bind fun _ _ => .ok _

theorem Expands.unique {index : Nat} {as bs : List Nat} (h : pool.Expands index as) (h' : pool.Expands index bs) :
    as = bs := by
  obtain ⟨bootstrap, described, method, hc, hm, rfl⟩ := h
  obtain ⟨bootstrap', described', method', hc', hm', rfl⟩ := h'
  cases hc.unique hc'
  cases hm.symm.trans hm'
  rfl

theorem Descends.unique {index below below' : Nat} {position passed passed' : List Nat}
    (h : pool.Descends index position passed below) (h' : pool.Descends index position passed' below') :
    passed = passed' ∧ below = below' := by
  induction h generalizing passed' with
  | here =>
    cases h'
    exact ⟨rfl, rfl⟩
  | down he hk _ ih =>
    cases h' with
    | down he' hk' hrest' =>
      obtain rfl := he.unique he'
      obtain rfl := Option.some.inj (hk.symm.trans hk')
      obtain ⟨rfl, rfl⟩ := ih hrest'
      exact ⟨rfl, rfl⟩

theorem DescendsIn.unique {starts : List Nat} {below below' : Nat} {position passed passed' : List Nat}
    (h : pool.DescendsIn starts position passed below) (h' : pool.DescendsIn starts position passed' below') :
    passed = passed' ∧ below = below' := by
  obtain ⟨k, start, rest, rfl, hk, hrest⟩ := h
  obtain ⟨k', start', rest', heq, hk', hrest'⟩ := h'
  obtain ⟨rfl, rfl⟩ := List.cons.inj heq
  obtain rfl := Option.some.inj (hk.symm.trans hk')
  exact hrest.unique hrest'

/-- A walk below the start is one from its arguments. -/
theorem Descends.cons_iff {index k below : Nat} {position passed arguments : List Nat}
    (he : pool.Expands index arguments) :
    pool.Descends index (k :: position) passed below ↔
      ∃ rest, passed = index :: rest ∧ pool.DescendsIn arguments (k :: position) rest below := by
  constructor
  · intro h
    cases h with
    | down he' hk hrest =>
      obtain rfl := he.unique he'
      exact ⟨_, rfl, k, _, _, rfl, hk, hrest⟩
  · rintro ⟨rest, rfl, k', start, position', heq, hk, hrest⟩
    obtain ⟨rfl, rfl⟩ := List.cons.inj heq
    exact .down he hk hrest

/-- What a search meets here is no defect: the constant is not among those above it, and it is admissible. -/
def Clear (pool : Pool) (above : List Nat) (below : Nat) : Prop := below ∉ above ∧ pool.Admissible below

/-- How a search along some walks, below some pending constants, has to end: well if all that it meets is clear, and
otherwise at the first defect, with a circle if the constant there is above itself and with another fault if not. -/
def Verdict {α : Type} (pool : Pool) (pending : List Nat) (walks : List Nat → List Nat → Nat → Prop) :
    Except PoolFault α → Prop
  | .ok _ => ∀ position passed below, walks position passed below → pool.Clear (pending ++ passed) below
  | .error fault => ∃ position passed below, walks position passed below ∧ ¬ pool.Clear (pending ++ passed) below ∧
    (∀ earlier passed' met, earlier < position → walks earlier passed' met → pool.Clear (pending ++ passed') met) ∧
    ∀ i, fault = .circular i ↔ i = below ∧ below ∈ pending ++ passed

theorem DescendsIn.cons_iff {start below : Nat} {starts position passed : List Nat} :
    pool.DescendsIn (start :: starts) position passed below ↔
      (∃ rest, position = 0 :: rest ∧ pool.Descends start rest passed below) ∨
        ∃ k rest, position = (k + 1) :: rest ∧ pool.DescendsIn starts (k :: rest) passed below := by
  constructor
  · rintro ⟨k, start', rest, rfl, hk, hrest⟩
    cases k with
    | zero =>
      obtain rfl : start = start' := Option.some.inj hk
      exact .inl ⟨rest, rfl, hrest⟩
    | succ k => exact .inr ⟨k, rest, rfl, k, start', rest, rfl, hk, hrest⟩
  · rintro (⟨rest, rfl, hrest⟩ | ⟨k, rest, rfl, k', start', rest', heq, hk, hrest⟩)
    · exact ⟨0, start, rest, rfl, rfl, hrest⟩
    · obtain ⟨rfl, rfl⟩ := List.cons.inj heq
      exact ⟨k + 1, start', rest, rfl, hk, hrest⟩

/-- A list is searched from left to right, up to the first item with a defect. -/
theorem verdict_mapM {β : Type} {pending starts : List Nat} {f : Nat → Except PoolFault β}
    (h : ∀ start ∈ starts, pool.Verdict pending (pool.Descends start) (f start)) :
    pool.Verdict pending (pool.DescendsIn starts) (starts.mapM f) := by
  induction starts with
  | nil =>
    rintro position passed below ⟨k, start, rest, -, hk, -⟩
    simp at hk
  | cons start starts ih =>
    have hstart := h start List.mem_cons_self
    have hstarts := ih fun start hmem => h start (List.mem_cons_of_mem _ hmem)
    rw [List.mapM_cons]
    cases hf : f start with
    | error fault =>
      rw [hf] at hstart
      obtain ⟨position, passed, below, hwalk, hdefect, hfirst, hcircle⟩ := hstart
      refine ⟨0 :: position, passed, below, DescendsIn.cons_iff.mpr (.inl ⟨_, rfl, hwalk⟩), hdefect, ?_, hcircle⟩
      intro earlier passed' met hlt hwalk'
      obtain ⟨rest, rfl, hrest⟩ | ⟨k, rest, rfl, -⟩ := DescendsIn.cons_iff.mp hwalk'
      · exact hfirst rest passed' met (by simpa [List.cons_lt_cons_iff] using hlt) hrest
      · simp [List.cons_lt_cons_iff] at hlt
    | ok value =>
      rw [hf] at hstart
      rw [ok_bind]
      cases hfs : starts.mapM f with
      | error fault =>
        rw [hfs] at hstarts
        obtain ⟨position, passed, below, hwalk, hdefect, hfirst, hcircle⟩ := hstarts
        obtain ⟨k, -, rest, rfl, -⟩ := id hwalk
        refine ⟨(k + 1) :: rest, passed, below, DescendsIn.cons_iff.mpr (.inr ⟨_, _, rfl, hwalk⟩), hdefect, ?_, hcircle⟩
        intro earlier passed' met hlt hwalk'
        obtain ⟨rest', rfl, hrest'⟩ | ⟨k', rest', rfl, hrest'⟩ := DescendsIn.cons_iff.mp hwalk'
        · exact hstart rest' passed' met hrest'
        · exact hfirst _ passed' met (by simpa [List.cons_lt_cons_iff] using hlt) hrest'
      | ok values =>
        rw [hfs] at hstarts
        intro position passed below hwalk
        obtain ⟨rest, rfl, hrest⟩ | ⟨k, rest, rfl, hrest⟩ := DescendsIn.cons_iff.mp hwalk
        · exact hstart rest passed below hrest
        · exact hstarts _ passed below hrest

/-- A defect at the start comes before all others. -/
theorem verdict_error_here {α : Type} {pending : List Nat} {index : Nat} {fault : PoolFault}
    (hdefect : ¬ pool.Clear pending index) (hcircle : ∀ i, fault = .circular i ↔ i = index ∧ index ∈ pending) :
    pool.Verdict pending (pool.Descends index) (.error fault : Except PoolFault α) := by
  refine ⟨[], [], index, .here, by simpa using hdefect, fun earlier _ _ hlt => ?_, by simpa using hcircle⟩
  exact absurd hlt (List.not_lt_nil earlier)

/-- A start that is clear leaves the verdict to its arguments, with itself above them. -/
theorem verdict_of_arguments {α β : Type} {pending arguments : List Nat} {index : Nat} {r : Except PoolFault α}
    {build : α → β} (hclear : pool.Clear pending index) (he : pool.Expands index arguments)
    (h : pool.Verdict (pending ++ [index]) (pool.DescendsIn arguments) r) :
    pool.Verdict pending (pool.Descends index) (r.map build) := by
  have hwalk {k : Nat} {position passed : List Nat} {below : Nat} :
      pool.Descends index (k :: position) passed below ↔
        ∃ rest, passed = index :: rest ∧ pool.DescendsIn arguments (k :: position) rest below := Descends.cons_iff he
  cases r with
  | ok value =>
    intro position passed below hdown
    cases position with
    | nil =>
      cases hdown
      simpa using hclear
    | cons k position =>
      obtain ⟨rest, rfl, hrest⟩ := hwalk.mp hdown
      simpa using h _ _ _ hrest
  | error fault =>
    obtain ⟨position, passed, below, hdown, hdefect, hfirst, hcircle⟩ := h
    obtain ⟨k, -, rest, rfl, -⟩ := id hdown
    refine ⟨k :: rest, index :: passed, below, hwalk.mpr ⟨_, rfl, hdown⟩, by simpa using hdefect, ?_,
      by simpa using hcircle⟩
    intro earlier passed' met hlt hdown'
    cases earlier with
    | nil =>
      cases hdown'
      simpa using hclear
    | cons k' earlier =>
      obtain ⟨rest', rfl, hrest'⟩ := hwalk.mp hdown'
      simpa using hfirst _ _ _ hlt hrest'

theorem verdict_unfoldWithin {free pending : List Nat} {index : Nat} (hnodup : free.Nodup)
    (hpending : ∀ above ∈ pending, ∃ bootstrap described, pool.Holds above (.dynamic bootstrap described))
    (hfree : ∀ below bootstrap described, pool.Holds below (.dynamic bootstrap described) →
      (below ∈ free ↔ below ∉ pending)) :
    pool.Verdict pending (pool.Descends index) (pool.unfoldWithin free index) := by
  induction hn : free.length using Nat.strongRecOn generalizing free pending index with
  | ind n ih =>
    have hfresh (h : ∀ bootstrap described, pool.outline index ≠ .ok (.dynamic bootstrap described)) :
        index ∉ pending := by
      intro hmem
      obtain ⟨bootstrap, described, hheld⟩ := hpending index hmem
      exact h bootstrap described (outline_eq_dynamic_iff.mpr hheld)
    rw [unfoldWithin]
    cases ho : pool.outline index with
    | error fault =>
      have hdefect : ¬ pool.Admissible index := by simp [admissible_iff, ho]
      refine verdict_error_here (fun h => hdefect h.2) fun i => iff_of_false ?_ ?_
      · exact outline_straight fault ho i
      · exact fun h => hfresh (by simp [ho]) h.2
    | ok outline =>
      rw [ok_bind]
      cases outline with
      | value value =>
        have hclear : pool.Clear pending index :=
          ⟨hfresh (by simp [ho]), admissible_iff.mpr (.inl ⟨value, ho⟩)⟩
        intro position passed below hdown
        cases hdown with
        | here => simpa using hclear
        | down he =>
          obtain ⟨bootstrap, described, -, hheld, -⟩ := he
          simp [outline_eq_dynamic_iff.mpr hheld] at ho
      | dynamic bootstrap described =>
        have hheld := outline_eq_dynamic_iff.mp ho
        by_cases hf : index ∈ free
        · have hnew : index ∉ pending := (hfree _ _ _ hheld).mp hf
          simp only [hf, dite_true]
          cases hr : pool.recipe bootstrap described with
          | error fault =>
            have hdefect : ¬ pool.Admissible index := by simp [admissible_iff, ho, hr]
            refine verdict_error_here (fun h => hdefect h.2) fun i => iff_of_false ?_ fun h => hnew h.2
            exact recipe_straight fault hr i
          | ok r =>
            have hclear : pool.Clear pending index :=
              ⟨hnew, admissible_iff.mpr (.inr ⟨bootstrap, described, r, ho, hr⟩)⟩
            obtain ⟨-, method, hmethod, -, harguments⟩ := recipe_eq_ok_iff.mp hr
            have hlt : (free.erase index).length < n := by
              have := List.length_erase_of_mem hf
              have := List.length_pos_of_mem hf
              omega
            refine verdict_of_arguments hclear ⟨bootstrap, described, method, hheld, hmethod, harguments.symm⟩
              (verdict_mapM fun argument _ => ih _ hlt (hnodup.erase index) ?_ ?_ rfl)
            · intro above habove
              rcases List.mem_append.mp habove with habove | habove
              · exact hpending above habove
              · exact List.mem_singleton.mp habove ▸ ⟨bootstrap, described, hheld⟩
            · intro below b d hbelow
              rw [hnodup.mem_erase_iff, hfree below b d hbelow]
              simp [and_comm]
        · have hmem : index ∈ pending := by
            by_contra hnew
            exact hf ((hfree _ _ _ hheld).mpr hnew)
          simp only [hf, dite_false]
          exact verdict_error_here (fun h => h.1 hmem) fun i => by simp [hmem, eq_comm]

theorem verdict_unfold (pool : Pool) (index : Nat) : pool.Verdict [] (pool.Descends index) (pool.unfold index) := by
  refine verdict_unfoldWithin (List.nodup_range.filter _) (by simp) fun below bootstrap described hheld => ?_
  simpa using mem_dynamicSlots_of_holds hheld

/-- In the order of the positions the first defect along some walks is this constant below itself. -/
def FirstCircle (pool : Pool) (walks : List Nat → List Nat → Nat → Prop) (i : Nat) : Prop :=
  ∃ position passed, walks position passed i ∧ i ∈ passed ∧
    ∀ earlier passed' met, earlier < position → walks earlier passed' met → pool.Clear passed' met

section

variable {α : Type} {walks : List Nat → List Nat → Nat → Prop} {r : Except PoolFault α}

theorem Verdict.exists_ok_iff (h : pool.Verdict [] walks r) :
    (∃ value, r = .ok value) ↔ ∀ position passed below, walks position passed below → pool.Clear passed below := by
  cases r with
  | ok value => exact iff_of_true ⟨value, rfl⟩ h
  | error fault =>
    obtain ⟨position, passed, below, hwalk, hdefect, -⟩ := h
    exact iff_of_false (by simp) fun hclear => hdefect (hclear position passed below hwalk)

theorem Verdict.circular_iff (h : pool.Verdict [] walks r)
    (hunique : ∀ {position passed passed' below below'}, walks position passed below →
      walks position passed' below' → passed = passed' ∧ below = below') (i : Nat) :
    r = .error (.circular i) ↔ pool.FirstCircle walks i := by
  cases r with
  | ok value =>
    refine iff_of_false (by simp) ?_
    rintro ⟨position, passed, hwalk, hmem, -⟩
    exact (h position passed i hwalk).1 hmem
  | error fault =>
    obtain ⟨position, passed, below, hwalk, hdefect, hfirst, hcircle⟩ := h
    simp only [Except.error.injEq, hcircle]
    constructor
    · rintro ⟨rfl, hmem⟩
      exact ⟨position, passed, hwalk, hmem, hfirst⟩
    · rintro ⟨position', passed', hwalk', hmem', hfirst'⟩
      -- of two positions the earlier one would be clear
      rcases lt_trichotomy position position' with hlt | rfl | hgt
      · exact absurd (hfirst' position passed below hlt hwalk) hdefect
      · obtain ⟨rfl, rfl⟩ := hunique hwalk hwalk'
        exact ⟨rfl, hmem'⟩
      · exact absurd hmem' (hfirst position' passed' i hgt hwalk').1

end

section

variable {index j below : Nat} {position passed : List Nat}

theorem Descends.reflTransGen (h : pool.Descends index position passed below) :
    Relation.ReflTransGen pool.Mentions index below := by
  induction h with
  | here => exact .refl
  | down he hk _ ih => exact .head ⟨_, he, List.mem_of_getElem? hk⟩ ih

/-- What a walk passes leads to its end. -/
theorem Descends.leads_of_mem (h : pool.Descends index position passed below) (hj : j ∈ passed) :
    Relation.ReflTransGen pool.Mentions index j ∧ Relation.TransGen pool.Mentions j below := by
  induction h with
  | here => simp at hj
  | @down index k argument below arguments position passed he hk hrest ih =>
    have hstep : pool.Mentions index argument := ⟨arguments, he, List.mem_of_getElem? hk⟩
    rcases List.mem_cons.mp hj with rfl | hj
    · exact ⟨.refl, .head' hstep hrest.reflTransGen⟩
    · exact ⟨.head hstep (ih hj).1, (ih hj).2⟩

theorem Descends.append {position' passed' : List Nat} (h : pool.Descends index position passed j)
    (h' : pool.Descends j position' passed' below) :
    pool.Descends index (position ++ position') (passed ++ passed') below := by
  induction h with
  | here => exact h'
  | down he hk _ ih => exact .down he hk (ih h')

theorem Mentions.exists_down (h : pool.Mentions index j) (hrest : pool.Descends j position passed below) :
    ∃ k, pool.Descends index (k :: position) (index :: passed) below := by
  obtain ⟨arguments, he, hmem⟩ := h
  obtain ⟨k, hk⟩ := List.mem_iff_getElem?.mp hmem
  exact ⟨k, .down he hk hrest⟩

theorem exists_descends (h : Relation.ReflTransGen pool.Mentions index below) :
    ∃ position passed, pool.Descends index position passed below := by
  induction h using Relation.ReflTransGen.head_induction_on with
  | refl => exact ⟨[], [], .here⟩
  | head hstep _ ih =>
    obtain ⟨position, passed, hrest⟩ := ih
    obtain ⟨k, hdown⟩ := hstep.exists_down hrest
    exact ⟨_, _, hdown⟩

/-- A constant is grounded where no walk from it meets a defect. -/
theorem grounded_iff : pool.Grounded index ↔
    ∀ position passed below, pool.Descends index position passed below → pool.Clear passed below := by
  constructor
  · intro h position passed below hdown
    refine ⟨fun hmem => ?_, (h below hdown.reflTransGen).1⟩
    obtain ⟨hleads, hcircle⟩ := hdown.leads_of_mem hmem
    exact (h below hleads).2 hcircle
  · intro h below hleads
    obtain ⟨position, passed, hdown⟩ := exists_descends hleads
    refine ⟨(h _ _ _ hdown).2, fun hcircle => ?_⟩
    obtain ⟨argument, hstep, hback⟩ := Relation.TransGen.head'_iff.mp hcircle
    obtain ⟨position', passed', hrest⟩ := exists_descends hback
    obtain ⟨k, hround⟩ := hstep.exists_down hrest
    exact (h _ _ _ (hdown.append hround)).1 (by simp)

end

/-- The slot holds a call site; the references of its own are well typed and give this recipe. -/
def Invokes (pool : Pool) (index : Nat) (r : Recipe) : Prop :=
  ∃ bootstrap described, pool.Holds index (.invokeDynamic bootstrap described) ∧ pool.Prepares bootstrap described r

def Recipe.site (r : Recipe) (arguments : List Literal) : CallSite := ⟨r.name, r.descriptor, r.handle, arguments⟩

/-- A call site fails by itself, and then with no circle, or as its arguments do. -/
theorem unfoldSite_cases (pool : Pool) (index : Nat) :
    (∃ r, pool.Invokes index r ∧ pool.unfoldSite index = (r.arguments.mapM pool.unfold).map r.site) ∨
      (¬ ∃ r, pool.Invokes index r) ∧ ∃ fault, pool.unfoldSite index = .error fault ∧ fault.Straight := by
  rw [unfoldSite]
  generalize hx : pool.expect index [.invokeDynamic] _ = held
  cases held with
  | error fault =>
    refine .inr ⟨?_, fault, rfl, expect_straight fault hx⟩
    rintro ⟨r, bootstrap, described, hheld, -⟩
    cases hx.symm.trans (expect_eq_ok_iff.mpr ⟨_, hheld, rfl⟩)
  | ok p =>
    obtain ⟨bootstrap, described⟩ := p
    have hheld : pool.Holds index (.invokeDynamic bootstrap described) := by
      obtain ⟨c, hc, hselect⟩ := expect_eq_ok_iff.mp hx
      cases c with
      | invokeDynamic b d =>
        cases hselect
        exact hc
      | _ => cases hselect
    rw [ok_bind]
    dsimp only
    cases hr : pool.recipe bootstrap described with
    | ok r => exact .inl ⟨r, ⟨bootstrap, described, hheld, recipe_eq_ok_iff.mp hr⟩, rfl⟩
    | error fault =>
      refine .inr ⟨?_, fault, rfl, recipe_straight fault hr⟩
      rintro ⟨r, bootstrap', described', hheld', hr'⟩
      cases hheld.unique hheld'
      rw [recipe_eq_ok_iff.mpr hr'] at hr
      cases hr

theorem Invokes.unique {index : Nat} {r r' : Recipe} (h : pool.Invokes index r) (h' : pool.Invokes index r') :
    r = r' := by
  obtain ⟨bootstrap, described, hheld, hr⟩ := h
  obtain ⟨bootstrap', described', hheld', hr'⟩ := h'
  cases hheld.unique hheld'
  exact Except.ok.inj ((recipe_eq_ok_iff.mpr hr).symm.trans (recipe_eq_ok_iff.mpr hr'))

theorem unfoldSite_eq_ok_iff {index : Nat} {site : CallSite} :
    pool.unfoldSite index = .ok site ↔ ∃ r values, pool.Invokes index r ∧ site = r.site values ∧
      r.arguments.length = values.length ∧ ∀ p ∈ r.arguments.zip values, pool.Denotes p.1 p.2 := by
  obtain ⟨r, hr, hsite⟩ | ⟨hnone, fault, hsite, -⟩ := unfoldSite_cases pool index
  · rw [hsite]
    constructor
    · intro h
      cases hvalues : r.arguments.mapM pool.unfold with
      | error fault => simp [hvalues, Except.map] at h
      | ok values =>
        rw [hvalues] at h
        cases h
        obtain ⟨hl, hz⟩ := mapM_eq_ok_iff.mp hvalues
        exact ⟨r, values, hr, rfl, hl, fun p hp => unfold_eq_ok_iff.mp (hz p hp)⟩
    · rintro ⟨r', values, hr', rfl, hl, hz⟩
      obtain rfl := hr.unique hr'
      rw [mapM_eq_ok_iff.mpr ⟨hl, fun p hp => unfold_eq_ok_iff.mpr (hz p hp)⟩]
      rfl
  · rw [hsite]
    refine iff_of_false nofun ?_
    rintro ⟨r, values, hr, -⟩
    exact hnone ⟨r, hr⟩

theorem map_eq_error_iff {α β : Type} {x : Except PoolFault α} {f : α → β} {fault : PoolFault} :
    x.map f = .error fault ↔ x = .error fault := by
  cases x <;> simp [Except.map]

theorem grounded_arguments_iff {starts : List Nat} : (∀ start ∈ starts, pool.Grounded start) ↔
    ∀ position passed below, pool.DescendsIn starts position passed below → pool.Clear passed below := by
  simp only [grounded_iff]
  constructor
  · rintro h position passed below ⟨k, start, rest, rfl, hk, hdown⟩
    exact h start (List.mem_of_getElem? hk) rest passed below hdown
  · intro h start hstart position passed below hdown
    obtain ⟨k, hk⟩ := List.mem_iff_getElem?.mp hstart
    exact h (k :: position) passed below ⟨k, start, position, rfl, hk, hdown⟩

theorem exists_unfoldSite_iff {index : Nat} : (∃ site, pool.unfoldSite index = .ok site) ↔
    ∃ r, pool.Invokes index r ∧ ∀ argument ∈ r.arguments, pool.Grounded argument := by
  obtain ⟨r, hr, hsite⟩ | ⟨hnone, fault, hsite, -⟩ := unfoldSite_cases pool index
  · have hverdict : pool.Verdict [] (pool.DescendsIn r.arguments) (r.arguments.mapM pool.unfold) :=
      verdict_mapM fun argument _ => pool.verdict_unfold argument
    have hunique : (∃ r, pool.Invokes index r ∧ ∀ argument ∈ r.arguments, pool.Grounded argument) ↔
        ∀ argument ∈ r.arguments, pool.Grounded argument :=
      ⟨fun ⟨r', hr', h⟩ => hr.unique hr' ▸ h, fun h => ⟨r, hr, h⟩⟩
    rw [hunique, grounded_arguments_iff, ← hverdict.exists_ok_iff, hsite]
    cases r.arguments.mapM pool.unfold <;> simp [Except.map]
  · rw [hsite]
    exact iff_of_false nofun fun ⟨r, hr, _⟩ => hnone ⟨r, hr⟩

theorem unfoldSite_eq_circular_iff {index i : Nat} : pool.unfoldSite index = .error (.circular i) ↔
    ∃ r, pool.Invokes index r ∧ pool.FirstCircle (pool.DescendsIn r.arguments) i := by
  obtain ⟨r, hr, hsite⟩ | ⟨hnone, fault, hsite, hfault⟩ := unfoldSite_cases pool index
  · have hverdict : pool.Verdict [] (pool.DescendsIn r.arguments) (r.arguments.mapM pool.unfold) :=
      verdict_mapM fun argument _ => pool.verdict_unfold argument
    rw [hsite, map_eq_error_iff, hverdict.circular_iff DescendsIn.unique]
    exact ⟨fun h => ⟨r, hr, h⟩, fun ⟨r', hr', h⟩ => hr.unique hr' ▸ h⟩
  · rw [hsite]
    refine iff_of_false (fun h => hfault i (Except.error.inj h)) ?_
    rintro ⟨r, hr, -⟩
    exact hnone ⟨r, hr⟩

/-- A dynamic constant, or a call site, is resolved in the same way whatever has been remembered soundly, and at first
nothing has been. There is a value where all that the slot leads to is admissible and free of circles, and it is the
tree that the slots and the table spell out. All else is a fault of the pool. It is a circle where this is the first
defect that a depth-first search from left to right meets. -/
theorem dynamic_resolves (pool : Pool) (index : Nat) :
    Memo.Sound pool [] ∧
    (∃ outcome, Run.Yields (Memo.Sound pool) (pool.loadable index) outcome ∧
      (∀ value, outcome = .ok value ↔ pool.Denotes index value) ∧
      ((∃ value, outcome = .ok value) ↔ pool.Grounded index) ∧
      (∀ fault, outcome = .error fault → Sentinel.constantPool.Told fault.message) ∧
      ∀ i, outcome = .error (.circular i) ↔ pool.FirstCircle (pool.Descends index) i) ∧
    ∃ outcome, Run.Yields (Memo.Sound pool) (pool.callSite index) outcome ∧
      (∀ site, outcome = .ok site ↔ ∃ r values, pool.Invokes index r ∧ site = r.site values ∧
        r.arguments.length = values.length ∧ ∀ p ∈ r.arguments.zip values, pool.Denotes p.1 p.2) ∧
      ((∃ site, outcome = .ok site) ↔
        ∃ r, pool.Invokes index r ∧ ∀ argument ∈ r.arguments, pool.Grounded argument) ∧
      (∀ fault, outcome = .error fault → Sentinel.constantPool.Told fault.message) ∧
      ∀ i, outcome = .error (.circular i) ↔
        ∃ r, pool.Invokes index r ∧ pool.FirstCircle (pool.DescendsIn r.arguments) i := by
  have hverdict := pool.verdict_unfold index
  refine ⟨Memo.sound_nil pool, ⟨pool.unfold index, loadable_yields index, fun value => unfold_eq_ok_iff, ?_,
    fun fault _ => Sentinel.told_poolFault fault, hverdict.circular_iff Descends.unique⟩, pool.unfoldSite index,
    callSite_yields index, fun site => unfoldSite_eq_ok_iff, exists_unfoldSite_iff,
    fun fault _ => Sentinel.told_poolFault fault, fun i => unfoldSite_eq_circular_iff⟩
  rw [grounded_iff, hverdict.exists_ok_iff]

end Pool
end Linkage
