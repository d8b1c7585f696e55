import Linkage.Proofs.Coding
import Linkage.Proofs.Sharing

/-!
An assembly follows a plan: its drafts are those planned, and in its pool, as in every later one, the slots that they
mention hold what was asked for.
-/
namespace Linkage

open Assembler

namespace Vocabulary

/-- Members and pairs of the vocabulary are known by their spelling. -/
structure Separate (v : Vocabulary) : Prop where
  owner {owner : String} (h : v.owner owner) : '.' ∉ owner.toList
  pair {name descriptor name' descriptor' : String} (h : v.pair name descriptor) (h' : v.pair name' descriptor')
    (hs : spellPair name descriptor = spellPair name' descriptor') : name = name' ∧ descriptor = descriptor'

variable {v : Vocabulary} {pool : Pool} {slot : Nat} {owner name descriptor : String}

theorem PairAt.eq (hv : v.Separate) (hp : v.pair name descriptor)
    (h : v.PairAt pool slot (spellPair name descriptor)) : pool.nameAndType slot = .ok (name, descriptor) := by
  obtain ⟨name', descriptor', hp', hs, hn⟩ := h
  obtain ⟨rfl, rfl⟩ := hv.pair hp' hp hs
  exact hn

theorem MemberAt.eq {kind : MemberKind} (hv : v.Separate) (ho : v.owner owner) (hp : v.pair name descriptor)
    (h : v.MemberAt pool slot kind (spellMember owner name descriptor)) :
    pool.memberRef slot [kind] = .ok ⟨owner, name, descriptor, kind = .interfaceMethod⟩ := by
  obtain ⟨owner', name', descriptor', ho', hp', hs, hm⟩ := h
  obtain ⟨rfl, hpair⟩ := append_separator_inj rfl (hv.owner ho') (hv.owner ho) hs
  obtain ⟨rfl, rfl⟩ := hv.pair hp' hp hpair
  exact hm

end Vocabulary

/-- The vocabulary has all owners that may be named and these pairs. -/
structure Vocabulary.Has (v : Vocabulary) (pairs : List (String × String)) : Prop where
  owner {owner : String} (h : '.' ∉ owner.toList) : v.owner owner
  pair {name descriptor : String} (h : (name, descriptor) ∈ pairs) : v.pair name descriptor

variable {v : Vocabulary} {a : Assembler}

theorem slotOf_natCast {n : Nat} (h : n < 65536) : slotOf n = n := by
  rw [slotOf]
  omega

theorem slotOf_eq_toNat {n : Int} (h : IsU2 n) : slotOf n = n.toNat := by
  obtain ⟨k, rfl⟩ := Int.eq_ofNat_of_zero_le h.1
  exact slotOf_natCast (by have := h.2; omega)

theorem Pool.handle_of_memberRef {pool : Pool} {slot reference kind : Nat} {member : MemberKind} {ref : Pool.MemberRef}
    (h : pool.Holds slot (.methodHandle kind reference)) (hm : pool.memberRef reference [member] = .ok ref) :
    pool.handle slot = .ok ⟨kind, ref.owner, ref.name, ref.descriptor, ref.isInterface⟩ := by
  refine handle_eq_ok_iff.mpr ⟨kind, reference, ref, h, memberRef_mono ?_ hm, rfl⟩
  cases member <;> simp

/-- A request is answered by a slot that holds what is asked for. -/
theorem adds_ask {q : Ask} (hk : a.Keyed v) (hfits : q.Fits) (hv : v.Has q.pairs) :
    Adds v a q.run fun slot pool => v.Separate → q.Answered pool slot := by
  cases q with
  | utf8 text => exact (adds_utf8 hk hfits).imp fun _ _ _ h _ => h
  | type name =>
    refine (adds_type hk hfits).imp fun slot pool _ h _ => ⟨h, ?_⟩
    obtain ⟨text, hs, ht⟩ := Pool.className_eq_ok_iff.mp h
    exact Pool.loadable_of_outline (Pool.outline_type hs (Pool.utf8_eq_ok_iff.mpr ht))
  | string text =>
    exact (adds_string hk hfits).imp fun _ _ _ ⟨_, hs, ht⟩ _ => Pool.loadable_of_outline (Pool.outline_string hs ht)
  | integer value =>
    exact (adds_integer value hk).imp fun _ _ _ h _ => Pool.loadable_of_outline (Pool.outline_integer h)
  | nameAndType name descriptor =>
    have hp := hv.pair (List.mem_singleton_self _)
    exact (adds_nameAndType hk hfits.1 hfits.2 hp).imp fun _ _ _ h hs => h.eq hs hp
  | member kind owner name descriptor =>
    have ho := hv.owner hfits.owner.2
    have hp := hv.pair (List.mem_singleton_self _)
    exact (adds_memberRef hk hfits.owner.1 hfits.name.1 hfits.descriptor ho hp).imp fun _ _ _ h hs => h.eq hs ho hp
  | handle kind owner name descriptor isInterface =>
    obtain ⟨hname, hlow, hhigh, hinterface⟩ := hfits
    have ho := hv.owner hname.owner.2
    have hp := hv.pair (List.mem_singleton_self _)
    refine (adds_methodHandle hk hname.owner.1 hname.name.1 hname.descriptor ho hp).imp
      fun slot pool _ ⟨reference, hheld, hm⟩ hs => ?_
    have hkind : ((kind % 256).toNat : Int) = kind := by omega
    have hflag : decide (handleMember kind isInterface = .interfaceMethod) = isInterface := by
      unfold handleMember
      cases isInterface with
      | false => split <;> rfl
      | true => rw [if_neg (by have := hinterface rfl; omega)]; rfl
    have h := Pool.handle_of_memberRef hheld (hm.eq hs ho hp)
    rw [hkind, hflag] at h
    exact ⟨h, Pool.loadable_of_outline (Pool.outline_handle hheld h)⟩
  | methodType descriptor =>
    exact (adds_methodType hk hfits).imp fun _ _ _ ⟨_, hs, ht⟩ _ =>
      Pool.loadable_of_outline (Pool.outline_methodType hs ht)
  | dynamic bootstrap name descriptor =>
    have hp := hv.pair (List.mem_singleton_self _)
    refine (adds_dynamic hk hfits.2.1.1 hfits.2.2 hp).imp fun slot pool _ ⟨pair, hheld, hpair⟩ hs => ?_
    rw [slotOf_eq_toNat hfits.1] at hheld
    exact ⟨pair, hheld, hpair.eq hs hp⟩
  | site bootstrap name descriptor =>
    have hp := hv.pair (List.mem_singleton_self _)
    refine (adds_invokeDynamicRef hk hfits.2.1.1 hfits.2.2 hp).imp fun slot pool _ ⟨pair, hheld, hpair⟩ hs => ?_
    rw [slotOf_eq_toNat hfits.1] at hheld
    exact ⟨pair, hheld, hpair.eq hs hp⟩

/-! Instructions. -/

/-- The bytes of an instruction at the given offset, where its bootstrap method, if it has one, has the given
number. -/
def Insn.bytes (offset number : Nat) : Insn → Assemble Bytes
  | .plain op => return byteOf op
  | .var op index => return byteOf op ++ byteOf index
  | .push value => return 16 :: byteOf value
  | .invoke op owner name descriptor => do
    let slot ← memberRef (if op = 185 then .interfaceMethod else .method) owner name descriptor
    return byteOf op ++ u2Bytes slot ++ (if op = 185 then [1, 0] else [])
  | .field op owner name descriptor => return byteOf op ++ u2Bytes (← memberRef .field owner name descriptor)
  | .type op name => return byteOf op ++ u2Bytes (← Assembler.type name)
  | .load slot => return 19 :: Bytes.ofInt 2 slot
  | .loadString text => return 19 :: Bytes.ofInt 2 (← string text)
  | .loadInt value => return 19 :: Bytes.ofInt 2 (← integer value)
  | .dynamic name descriptor _ _ => return 186 :: u2Bytes (← invokeDynamicRef number name descriptor) ++ [0, 0]
  | .jump op target => return byteOf op ++ Bytes.ofInt 2 (target - offset)

theorem offset_apply (m : Nat) (a : Assembler) :
    offset m a = ((a.methods[m]?.map fun d => d.code.length).getD 0, a) := rfl

/-- An instruction adds its bootstrap method, if it has one, and then its bytes. -/
theorem Insn.run_eq (i : Insn) (m : Nat) (a : Assembler) :
    i.run m a = (i.bytes (offset m a).1 a.bootstraps.size >>= raw m)
      { a with bootstraps := a.bootstraps ++ i.bootstraps } := by
  cases i with
  | invoke op owner name descriptor =>
    by_cases h : op = 185
    · rw [Insn.run, Assembler.invoke, if_pos h, Insn.bytes, if_pos h]
      simp only [if_pos h]
      rfl
    · rw [Insn.run, Assembler.invoke, if_neg h, Insn.bytes, if_neg h]
      simp only [if_neg h, List.append_nil]
      rfl
  | _ => rfl

theorem length_byteOf (n : Int) : (byteOf n).length = 1 := Bytes.length_ofInt 1 n

theorem length_u2Bytes (n : Nat) : (u2Bytes n).length = 2 := Bytes.length_ofNat 2 n

theorem ofInt_slot {slot : Nat} (h : slot < 65536) : Bytes.ofInt 2 slot = u2Bytes slot := Bytes.ofInt_natCast h

/-- The bytes of an instruction are as many as planned, and a replay tells of them what is planned. -/
theorem adds_bytes {i : Insn} {offset number : Nat} (hk : a.Keyed v) (hfits : i.Fits offset number)
    (hv : v.Has i.pairs) :
    Adds v a (i.bytes offset number) fun bs pool => bs.length = i.size ∧
      (v.Separate → pool.slots.size ≤ 65536 → Told.CodedAt pool offset bs (i.told number)) := by
  cases i with
  | plain op => exact .pure hk fun pool _ => ⟨rfl, fun _ _ => Told.codedAt_plain hfits⟩
  | var op index => exact .pure hk fun pool _ => ⟨rfl, fun _ _ => Told.codedAt_var hfits⟩
  | push value => exact .pure hk fun pool _ => ⟨rfl, fun _ _ => Told.codedAt_push hfits⟩
  | jump op target => exact .pure hk fun pool _ => ⟨rfl, fun _ _ => Told.codedAt_jump hfits⟩
  | load slot =>
    have hslot : slot.toNat < 65536 := by
      have := hfits.2
      omega
    refine .pure hk fun pool _ => ⟨rfl, fun _ _ => ?_⟩
    rw [IsU2.ofInt_eq hfits]
    exact Told.codedAt_load hslot
  | loadString text =>
    refine (adds_string hk hfits).bind fun slot a' hk' _ hslot => .pure hk' fun pool hw => ⟨rfl, fun _ hsize => ?_⟩
    obtain ⟨s, hheld, ht⟩ := hslot pool hw
    have hlt : slot < 65536 := Nat.lt_of_lt_of_le hheld.lt hsize
    rw [ofInt_slot hlt]
    exact Told.codedAt_value hlt (Pool.outline_string hheld ht)
  | loadInt value =>
    refine (adds_integer value hk).bind fun slot a' hk' _ hslot => .pure hk' fun pool hw => ⟨rfl, fun _ hsize => ?_⟩
    have hheld := hslot pool hw
    have hlt : slot < 65536 := Nat.lt_of_lt_of_le hheld.lt hsize
    rw [ofInt_slot hlt]
    exact Told.codedAt_value hlt (Pool.outline_integer hheld)
  | type op name =>
    refine (adds_type hk hfits.2).bind fun slot a' hk' _ hslot => .pure hk' fun pool hw => ⟨rfl, fun _ hsize => ?_⟩
    have hname := hslot pool hw
    exact Told.codedAt_type hfits (Nat.lt_of_lt_of_le (Pool.className_lt hname) hsize) hname
  | field op owner name descriptor =>
    have hname := hfits.2
    have ho := hv.owner hname.owner.2
    have hp := hv.pair (List.mem_singleton_self _)
    refine (adds_memberRef hk hname.owner.1 hname.name.1 hname.descriptor ho hp).bind fun slot a' hk' _ hslot =>
      .pure hk' fun pool hw => ⟨rfl, fun hs hsize => ?_⟩
    have href := (hslot pool hw).eq hs ho hp
    exact Told.codedAt_field hfits (Nat.lt_of_lt_of_le (Pool.memberRef_lt href) hsize) href
  | invoke op owner name descriptor =>
    have hname := hfits.2
    have ho := hv.owner hname.owner.2
    have hp := hv.pair (List.mem_singleton_self _)
    refine (adds_memberRef hk hname.owner.1 hname.name.1 hname.descriptor ho hp).bind fun slot a' hk' _ hslot =>
      .pure hk' fun pool hw => ⟨?_, fun hs hsize => ?_⟩
    · by_cases h : op = 185 <;> simp [Insn.size, h, length_byteOf, length_u2Bytes]
    · have href := (hslot pool hw).eq hs ho hp
      refine Told.codedAt_invoke hfits (Nat.lt_of_lt_of_le (Pool.memberRef_lt href) hsize) ?_
      by_cases h : op = 185
      · rw [if_pos h] at href
        simpa [h] using Pool.memberRef_mono (by simp) href
      · rw [if_neg h] at href
        simpa [h] using Pool.memberRef_mono (by simp) href
  | dynamic name descriptor handle arguments =>
    have hp := hv.pair (List.mem_singleton_self _)
    refine (adds_invokeDynamicRef hk hfits.2.1.1 hfits.2.2 hp).bind fun slot a' hk' _ hslot =>
      .pure hk' fun pool hw => ⟨rfl, fun hs hsize => ?_⟩
    obtain ⟨pair, hheld, hpair⟩ := hslot pool hw
    rw [slotOf_natCast hfits.1] at hheld
    exact Told.codedAt_site (Nat.lt_of_lt_of_le hheld.lt hsize) hheld (hpair.eq hs hp)

/-! The plan that an assembly follows. -/

/-- The handler is the planned one, whose type stands in the slot. -/
def HandlerAt (pool : Pool) (d : Int × Int × Int × Nat) (h : Int × Int × Int × String) : Prop :=
  d.1 = h.1 ∧ d.2.1 = h.2.1 ∧ d.2.2.1 = h.2.2.1 ∧ pool.optionalClassName d.2.2.2 = .ok h.2.2.2

/-- A draft follows the plan for its method, in this pool and in every larger one. -/
structure MethodDraft.Follows (v : Vocabulary) (pool : Pool) (d : MethodDraft) (e : MethodPlan) : Prop where
  declared : d.access = e.access ∧ d.name = e.name ∧ d.descriptor = e.descriptor
  storable : Storable e.name ∧ Storable e.descriptor
  maxs : d.maxStack = e.maxStack ∧ d.maxLocals = e.maxLocals
  isAbstract : d.isAbstract = e.isAbstract
  lines : d.lines = e.lines
  size : d.code.length = e.size
  handlers (larger : Pool) (h : pool.Within larger) : List.Forall₂ (HandlerAt larger) d.handlers e.handlers
  code (hv : v.Separate) (larger : Pool) (h : pool.Within larger) (hsize : larger.slots.size ≤ 65536) :
    Told.Coded larger 0 d.code e.told

theorem MethodDraft.Follows.mono {pool larger : Pool} {d : MethodDraft} {e : MethodPlan} (h : d.Follows v pool e)
    (hw : pool.Within larger) : d.Follows v larger e :=
  { h with
    handlers := fun largest hl => h.handlers largest (hw.trans hl)
    code := fun hv largest hl => h.code hv largest (hw.trans hl) }

/-- An assembly follows a plan. -/
structure Assembler.Follows (v : Vocabulary) (a : Assembler) (p : Plan) : Prop where
  keyed : a.Keyed v
  name : a.name = p.name ∧ Storable p.name
  superName : a.superName = p.superName ∧ Storable p.superName
  access : a.access = p.access
  interfaces : a.interfaces = p.interfaces ∧ ∀ name ∈ p.interfaces, Storable name
  source : a.source = p.source ∧ Storable p.source
  fields : a.fields = p.fields ∧ ∀ f ∈ p.fields, Storable f.name ∧ Storable f.descriptor
  methods : List.Forall₂ (MethodDraft.Follows v a.pool) a.methods.toList p.methods
  bootstraps : a.bootstraps.toList = p.bootstraps

theorem forall₂_modify {α β : Type} {R : α → β → Prop} {as : List α} {bs : List β} {f : α → α} {g : β → β}
    (h : List.Forall₂ R as bs) (m : Nat) (hm : ∀ a b, as[m]? = some a → bs[m]? = some b → R a b → R (f a) (g b)) :
    List.Forall₂ R (as.modify m f) (bs.modify m g) := by
  induction h generalizing m with
  | nil => simp
  | cons hab hrest ih =>
    cases m with
    | zero => simpa using ⟨hm _ _ rfl rfl hab, hrest⟩
    | succ m => simpa using ⟨hab, ih m fun a b ha hb => hm a b (by simpa using ha) (by simpa using hb)⟩

theorem forall₂_getElem? {α β : Type} {R : α → β → Prop} {as : List α} {bs : List β} {m : Nat} {b : β}
    (h : List.Forall₂ R as bs) (hb : bs[m]? = some b) : ∃ a, as[m]? = some a ∧ R a b := by
  induction h generalizing m with
  | nil => simp at hb
  | @cons a b' as bs hab _ ih =>
    cases m with
    | zero =>
      obtain rfl : b' = b := by simpa using hb
      exact ⟨a, rfl, hab⟩
    | succ m => exact ih (by simpa using hb)

namespace Assembler.Follows

variable {p : Plan} {m : Nat}

/-- What only adds constants keeps the plan. -/
theorem adds {α : Type} {x : Assemble α} {Q : α → Pool → Prop} (h : a.Follows v p) (hx : Adds v a x Q) :
    (x a).2.Follows v p := by
  have hframe := hx.frame
  refine ⟨hx.keyed, ?_, ?_, ?_, ?_, ?_, ?_, ?_, ?_⟩
  · rw [hframe]; exact h.name
  · rw [hframe]; exact h.superName
  · rw [hframe]; exact h.access
  · rw [hframe]; exact h.interfaces
  · rw [hframe]; exact h.source
  · rw [hframe]; exact h.fields
  · have hmethods : (x a).2.methods = a.methods := by rw [hframe]
    rw [hmethods]
    exact h.methods.imp fun d e hd => hd.mono hx.within
  · rw [hframe]; exact h.bootstraps

/-- A change to a draft goes with one to the plan for its method. -/
theorem draft {change : MethodDraft → MethodDraft} {change' : MethodPlan → MethodPlan} (h : a.Follows v p)
    (hchange : ∀ d e, a.methods[m]? = some d → p.methods[m]? = some e → d.Follows v a.pool e →
      (change d).Follows v a.pool (change' e)) :
    (Assembler.draft m change a).2.Follows v (p.draft m change') := by
  have hmethods : List.Forall₂ (MethodDraft.Follows v a.pool) (a.methods.modify m change).toList
      (p.methods.modify m change') := by
    rw [Array.toList_modify]
    refine forall₂_modify h.methods m fun d e hd he hde => hchange d e ?_ he hde
    rwa [Array.getElem?_toList] at hd
  exact { h with methods := hmethods }

theorem pool_bootstraps (h : a.Follows v p) : a.pool.bootstraps = p.linkage.toArray := by
  rw [pool, Plan.linkage, ← h.bootstraps]
  simp only [← Array.toList_map, Array.toArray_toList]

theorem offset_eq (h : a.Follows v p) {e : MethodPlan} (he : p.methods[m]? = some e) :
    (offset m a).1 = e.size := by
  obtain ⟨d, hd, hde⟩ := forall₂_getElem? h.methods he
  rw [Array.getElem?_toList] at hd
  rw [offset_apply, hd]
  exact hde.size

/-- Bytes that are as planned are appended to the code of a method. -/
theorem emit {x : Assemble Bytes} {e : MethodPlan} {t : Told} {size : Nat} (h : a.Follows v p)
    (he : p.methods[m]? = some e)
    (hx : Adds v a x fun bs pool => bs.length = size ∧
      (v.Separate → pool.slots.size ≤ 65536 → Told.CodedAt pool e.size bs t)) :
    ((x >>= raw m) a).2.Follows v
      (p.draft m fun e => { e with size := e.size + size, told := e.told ++ [t] }) := by
  refine draft (h.adds hx) fun d e' hd he' hde => ?_
  obtain rfl : e = e' := Option.some.inj (he.symm.trans he')
  have hlength : (x a).1.length = size := (hx.post _ (.refl _)).1
  refine { hde with size := ?_, code := fun hv larger hw hsize => ?_ }
  · rw [List.length_append, hde.size, hlength]
  · refine (hde.code hv larger hw hsize).append ?_
    rw [Nat.zero_add, hde.size]
    exact (hx.post larger hw).2 hv hsize

/-- The bootstrap methods stand apart from the constants. -/
theorem link (h : a.Follows v p) (entries : Array (Int × List Int)) :
    { a with bootstraps := entries }.Follows v { p with bootstraps := entries.toList } := by
  have hw : a.pool.Within { a with bootstraps := entries }.pool := fun _ _ hc => hc
  refine { h with keyed := fun i key c hc => ?_, methods := h.methods.imp fun d e hd => hd.mono hw, bootstraps := rfl }
  obtain ⟨entry, hkey, hat⟩ := h.keyed i key c hc
  exact ⟨entry, hkey, hat.mono hw⟩

theorem insn {i : Insn} {e : MethodPlan} (h : a.Follows v p) (he : p.methods[m]? = some e)
    (hfits : i.Fits e.size p.bootstraps.length) (hv : v.Has i.pairs) :
    (i.run m a).2.Follows v (p.after (.insn m i)) ∧ a.pool.Within (i.run m a).2.pool := by
  have hentries : (a.bootstraps ++ i.bootstraps).toList = p.bootstraps ++ i.bootstraps := by
    rw [Array.toList_appendList, h.bootstraps]
  have hnumber : a.bootstraps.size = p.bootstraps.length := by rw [← h.bootstraps, Array.length_toList]
  have hlinked := h.link (a.bootstraps ++ i.bootstraps)
  rw [hentries] at hlinked
  have hbytes := adds_bytes hlinked.keyed hfits hv
  rw [Insn.run_eq, h.offset_eq he, hnumber]
  exact ⟨hlinked.emit he hbytes, hbytes.within⟩

theorem line {number : Int} (h : a.Follows v p) :
    (Assembler.line m number a).2.Follows v (p.after (.line m number)) := by
  refine h.draft fun d e hd he hde => { hde with lines := ?_ }
  change d.lines ++ [((offset m a).1, number)] = e.lines ++ [(e.size, number)]
  rw [h.offset_eq he, hde.lines]

theorem handler {start stop target : Int} {type : String} (h : a.Follows v p) (ht : Storable type) :
    (handle m start stop target type a).2.Follows v (p.after (.handler m start stop target type)) ∧
      a.pool.Within (handle m start stop target type a).2.pool := by
  have hslot := adds_optionalType (v := v) h.keyed ht
  refine ⟨?_, hslot.within⟩
  refine draft (h.adds hslot) fun d e hd he hde => ?_
  refine { hde with handlers := fun larger hw => ?_ }
  exact List.rel_append (hde.handlers larger hw) (.cons ⟨rfl, rfl, rfl, hslot.post larger hw⟩ .nil)

end Assembler.Follows

end Linkage
