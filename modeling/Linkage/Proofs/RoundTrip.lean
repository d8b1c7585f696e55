import Linkage.Proofs.Telling

/-!
Assembling, parsing and replaying a class agree. What is parsed is the class that the calls of the assembly declare,
each slot that a call has answered with holds what was asked for, and a replay tells the declarations and the
instructions one by one.
-/
namespace Linkage

open Assembler

variable {v : Vocabulary} {a : Assembler} {p : Plan} {name : String} {calls : List Call}

/-! Each call keeps to its plan. -/

theorem MethodDraft.Follows.new {pool : Pool} (access : Int) {name descriptor : String} (hn : Storable name)
    (hd : Storable descriptor) :
    MethodDraft.Follows v pool { access, name, descriptor } { access, name, descriptor } where
  declared := ⟨rfl, rfl, rfl⟩
  storable := ⟨hn, hd⟩
  maxs := ⟨rfl, rfl⟩
  isAbstract := rfl
  lines := rfl
  size := rfl
  handlers _ _ := .nil
  code _ _ _ _ := .nil

/-- A call keeps the assembly and the plan together, and the constants in their slots. -/
theorem Assembler.Follows.step {call : Call} (h : a.Follows v p) (hfits : call.Fits p) (hv : v.Has call.pairs) :
    (call.run a).2.Follows v (p.after call) ∧ a.pool.Within (call.run a).2.pool := by
  cases call with
  | setSuper name => exact ⟨{ h with superName := ⟨rfl, hfits⟩ }, .refl _⟩
  | setAccess access => exact ⟨{ h with access := rfl }, .refl _⟩
  | implement names =>
    refine ⟨{ h with interfaces := ⟨congrArg (· ++ names) h.interfaces.1, fun name hname => ?_⟩ }, .refl _⟩
    exact (List.mem_append.mp hname).elim (h.interfaces.2 name) (hfits name)
  | setSource source => exact ⟨{ h with source := ⟨rfl, hfits⟩ }, .refl _⟩
  | field access name descriptor =>
    refine ⟨{ h with fields := ⟨congrArg (· ++ [_]) h.fields.1, fun f hf => ?_⟩ }, .refl _⟩
    rcases List.mem_append.mp hf with hf | hf
    · exact h.fields.2 f hf
    · obtain rfl := List.mem_singleton.mp hf
      exact hfits
  | method access name descriptor =>
    refine ⟨{ h with methods := ?_ }, .refl _⟩
    change List.Forall₂ _ (a.methods.push _).toList (p.methods ++ [_])
    rw [Array.toList_push]
    exact List.rel_append h.methods (.cons (.new access hfits.1 hfits.2) .nil)
  | ask request =>
    have hadds := adds_ask h.keyed hfits hv
    change (request.run a).2.Follows v p ∧ a.pool.Within (request.run a).2.pool
    exact ⟨h.adds hadds, hadds.within⟩
  | bootstrap handle arguments =>
    have hlink := h.link (a.bootstraps.push (handle, arguments))
    rw [Array.toList_push, h.bootstraps] at hlink
    exact ⟨hlink, .refl _⟩
  | bootstrapArgument number argument =>
    have hlink := h.link (bootstrapArgument number argument a).2.bootstraps
    have hentries : (bootstrapArgument number argument a).2.bootstraps.toList =
        (p.after (.bootstrapArgument number argument)).bootstraps := by
      change (a.bootstraps.modify number _).toList = p.bootstraps.modify number _
      rw [Array.toList_modify, h.bootstraps]
    rw [hentries] at hlink
    exact ⟨hlink, .refl _⟩
  | insn m i =>
    obtain ⟨e, he, hi⟩ := hfits
    exact h.insn he hi hv
  | line m number => exact ⟨h.line, .refl _⟩
  | handler m start stop target type => exact h.handler hfits.2
  | setAbstract m => exact ⟨h.draft fun d e _ _ hde => { hde with isAbstract := rfl }, .refl _⟩
  | setMaxs m maxStack maxLocals => exact ⟨h.draft fun d e _ _ hde => { hde with maxs := ⟨rfl, rfl⟩ }, .refl _⟩
  | encode =>
    have hadds := adds_encode h
    change (encode a).2.Follows v p ∧ a.pool.Within (encode a).2.pool
    exact ⟨h.adds hadds, hadds.within⟩

theorem Assembler.Follows.run (h : a.Follows v p) (hfit : Call.AllFit p calls) (hv : ∀ call ∈ calls, v.Has call.pairs) :
    ((calls.forM Call.run) a).2.Follows v (calls.foldl Plan.after p) ∧
      a.pool.Within ((calls.forM Call.run) a).2.pool := by
  induction calls generalizing a p with
  | nil => exact ⟨h, .refl _⟩
  | cons call calls ih =>
    obtain ⟨hstep, hw⟩ := h.step hfit.1 (hv call List.mem_cons_self)
    obtain ⟨hrun, hw'⟩ := ih hstep hfit.2 fun call hc => hv call (List.mem_cons_of_mem _ hc)
    exact ⟨hrun, hw.trans hw'⟩

theorem Assembler.Follows.new (h : Storable name) : (Assembler.new name).Follows v { name } where
  keyed _ _ _ hc := by simp [Assembler.new] at hc
  name := ⟨rfl, h⟩
  superName := ⟨rfl, (by decide +kernel : Storable "java/lang/Object")⟩
  access := rfl
  interfaces := ⟨rfl, by simp⟩
  source := ⟨rfl, (by decide +kernel : Storable "")⟩
  fields := ⟨rfl, by simp⟩
  methods := .nil
  bootstraps := rfl

namespace Call

theorem allFit_append {before after : List Call} :
    AllFit p (before ++ after) ↔ AllFit p before ∧ AllFit (before.foldl Plan.after p) after := by
  induction before generalizing p with
  | nil => simp [AllFit]
  | cons call before ih => simp only [List.cons_append, AllFit, ih, List.foldl_cons, and_assoc]

theorem AllFit.exists_fits (h : AllFit p calls) {call : Call} (hc : call ∈ calls) : ∃ p', call.Fits p' := by
  obtain ⟨before, after, rfl⟩ := List.append_of_mem hc
  exact ⟨_, (allFit_append.mp h).2.1⟩

/-! The names that the calls use. -/

/-- The vocabulary of the calls. -/
def vocabulary (calls : List Call) : Vocabulary where
  owner owner := '.' ∉ owner.toList
  pair name descriptor := (name, descriptor) ∈ calls.flatMap Call.pairs

theorem vocabulary_has {call : Call} (h : call ∈ calls) : (vocabulary calls).Has call.pairs where
  owner ho := ho
  pair hp := List.mem_flatMap.mpr ⟨call, h, hp⟩

/-- Only a pair that is asked for by itself may have a colon in its name. -/
theorem Fits.pair {call : Call} (h : call.Fits p) {name descriptor : String} (hp : (name, descriptor) ∈ call.pairs) :
    ':' ∉ name.toList ∨ call = .ask (.nameAndType name descriptor) := by
  cases call with
  | ask request =>
    cases request <;> simp only [pairs, Ask.pairs, List.mem_singleton, List.not_mem_nil, Prod.mk.injEq] at hp <;>
      obtain ⟨rfl, rfl⟩ := hp
    case nameAndType => exact .inr rfl
    case member => exact .inl h.name.2
    case handle => exact .inl h.1.name.2
    case dynamic | site => exact .inl h.2.1.2
  | insn m i =>
    obtain ⟨e, -, hi⟩ := h
    cases i <;> simp only [pairs, Insn.pairs, List.mem_singleton, List.not_mem_nil, Prod.mk.injEq] at hp <;>
      obtain ⟨rfl, rfl⟩ := hp
    case invoke | field => exact .inl hi.2.name.2
    case dynamic => exact .inl hi.2.1.2
  | _ => simp [pairs] at hp

theorem Apart.separate (h : Apart calls) (hfit : AllFit p calls) : (vocabulary calls).Separate where
  owner ho := ho
  pair {name descriptor name' descriptor'} hp hp' hs := by
    obtain ⟨call, hc, hpair⟩ := List.mem_flatMap.mp hp
    obtain ⟨call', hc', hpair'⟩ := List.mem_flatMap.mp hp'
    obtain ⟨q, hq⟩ := hfit.exists_fits hc
    obtain ⟨q', hq'⟩ := hfit.exists_fits hc'
    -- Two names without a colon end at the first one; any other pair has been asked for by itself.
    rcases hq.pair hpair with hname | rfl
    · rcases hq'.pair hpair' with hname' | rfl
      · exact append_separator_inj rfl hname hname' hs
      · exact Prod.mk.inj (h name' descriptor' hc' _ hp hs.symm).symm
    · exact Prod.mk.inj (h name descriptor hc _ hp' hs)

end Call

/-! Call sites name bootstrap methods that exist. -/

/-- The call site, if it is one, is that of one of the first so many bootstrap methods. -/
def Told.Below (count : Nat) : Told → Prop
  | .site _ _ number => number < count
  | _ => True

theorem Told.Below.mono {count more : Nat} {t : Told} (h : t.Below count) (hle : count ≤ more) : t.Below more := by
  cases t with
  | site name descriptor number => exact Nat.lt_of_lt_of_le h hle
  | _ => trivial

def Plan.Sited (p : Plan) : Prop := ∀ d ∈ p.methods, ∀ t ∈ d.told, t.Below p.bootstraps.length

namespace Plan.Sited

theorem draft (h : p.Sited) (m : Nat) {change : MethodPlan → MethodPlan}
    (hchange : ∀ d, (∀ t ∈ d.told, t.Below p.bootstraps.length) → ∀ t ∈ (change d).told, t.Below p.bootstraps.length) :
    (p.draft m change).Sited := by
  intro d hd
  obtain ⟨i, hi⟩ := List.getElem?_of_mem hd
  rw [Plan.draft, List.getElem?_modify] at hi
  obtain ⟨e, he, rfl⟩ := Option.map_eq_some_iff.mp hi
  have hmem : e ∈ p.methods := List.mem_of_getElem? he
  change ∀ t ∈ (if m = i then change e else e).told, t.Below p.bootstraps.length
  split
  · exact hchange e (h e hmem)
  · exact h e hmem

theorem link (h : p.Sited) (entries : List (Int × List Int)) (hle : p.bootstraps.length ≤ entries.length) :
    { p with bootstraps := entries }.Sited :=
  fun d hd t ht => (h d hd t ht).mono hle

theorem after (h : p.Sited) (call : Call) : (p.after call).Sited := by
  cases call with
  | method access name descriptor =>
    intro d hd
    rcases List.mem_append.mp hd with hd | hd
    · exact h d hd
    · obtain rfl := List.mem_singleton.mp hd
      intro t ht
      cases ht
  | bootstrap handle arguments => exact h.link _ (by simp)
  | bootstrapArgument number argument => exact h.link _ (by simp)
  | insn m i =>
    refine draft (h.link (p.bootstraps ++ i.bootstraps) (by simp)) m fun d hd t ht => ?_
    rcases List.mem_append.mp ht with ht | ht
    · exact hd t ht
    · obtain rfl := List.mem_singleton.mp ht
      cases i with
      | plain op =>
        rw [Insn.told]
        split <;> trivial
      | dynamic name descriptor handle arguments => simp [Insn.told, Told.Below, Insn.bootstraps]
      | _ => trivial
  | line m number => exact h.draft m fun d hd => hd
  | handler m start stop target type => exact h.draft m fun d hd => hd
  | setAbstract m => exact h.draft m fun d hd => hd
  | setMaxs m maxStack maxLocals => exact h.draft m fun d hd => hd
  | _ => exact h

theorem run (h : p.Sited) (calls : List Call) : (calls.foldl Plan.after p).Sited := by
  induction calls generalizing p with
  | nil => exact h
  | cons call calls ih => exact ih (h.after call)

end Plan.Sited

/-! The whole way. -/

namespace Call

/-- The class file that the calls lead to. -/
def bytes (name : String) (calls : List Call) : Bytes := (Assembler.encode (runAll name calls)).1

/-- The pool of that class file. -/
def pool (name : String) (calls : List Call) : Pool := (Assembler.encode (runAll name calls)).2.pool

/-- The class that the calls declare, with the code that they have led to. -/
def declared (name : String) (calls : List Call) : ClassFile :=
  (Plan.of name calls).classFile (runAll name calls).codes (pool name calls)

/-- The calls keep to their kinds, all that they declare fits where it is written, and all that is loaded has a
value. -/
structure Valid (name : String) (calls : List Call) : Prop where
  storable : Storable name
  fit : AllFit { name } calls
  plan : (Plan.of name calls).Fits
  size : (pool name calls).slots.size ≤ 65535
  linked : (pool name calls).Linked
  loads : ∀ d ∈ (Plan.of name calls).methods, d.isAbstract = false →
    ∀ slot, .load slot ∈ d.told → (pool name calls).IsLoadable slot

namespace Valid

theorem follows (h : Valid name calls) : (runAll name calls).Follows (vocabulary calls) (Plan.of name calls) :=
  ((Assembler.Follows.new h.storable).run h.fit fun _ hc => vocabulary_has hc).1

theorem adds (h : Valid name calls) : Adds (vocabulary calls) (runAll name calls) Assembler.encode fun _ _ => True :=
  adds_encode h.follows

theorem told_linked (h : Valid name calls) {e : MethodPlan} (he : e ∈ (Plan.of name calls).methods)
    (hconcrete : e.isAbstract = false) : ∀ t ∈ e.told, t.Linked (pool name calls) := by
  intro t ht
  cases t with
  | event e => trivial
  | load slot => exact h.loads e he hconcrete slot ht
  | site site descriptor number =>
    have hsited : (Plan.of name calls).Sited := Plan.Sited.run (fun _ hd => by cases hd) calls
    have hbootstraps := (h.follows.adds h.adds).pool_bootstraps
    have hbelow : number < (Plan.of name calls).bootstraps.length := hsited e he _ ht
    change number < (Assembler.encode (runAll name calls)).2.pool.bootstraps.size
    rw [hbootstraps]
    simpa [Plan.linkage] using hbelow

/-- A replay tells the class as it is declared. -/
theorem records (h : Valid name calls) (hapart : Apart calls) :
    ∃ events, (declared name calls).Records events ∧
      (Plan.of name calls).events (pool name calls) = .ok (events.filter (!·.isMark)) := by
  have hsize : (pool name calls).slots.size ≤ 65536 := Nat.le_succ_of_le h.size
  have hmethods : List.Forall₂ (MethodDraft.Follows (vocabulary calls) (pool name calls))
      (runAll name calls).methods.toList (Plan.of name calls).methods :=
    h.follows.methods.imp fun d e hde => hde.mono h.adds.within
  obtain ⟨planned, hplanned, events, hcues, rfl⟩ := Plan.tells_script (forall₂_imp_of_mem hmethods
    fun d e _ he hde => hde.tells (hapart.separate h.fit) hsize (h.plan.methods.2 e he) h.linked
      h.adds.keyed.closed (h.told_linked he))
  exact ⟨events, ClassFile.records_iff.mpr hcues, hplanned⟩

end Valid

end Call

end Linkage
