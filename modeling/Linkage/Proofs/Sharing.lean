import Mathlib.Data.List.Forall2
import Linkage.Proofs.BasicPlane
import Linkage.Proofs.Keys
import Linkage.Proofs.Pool

/-!
What the pool of an assembly holds. Each slot holds the constant that its key tells, so that a request for a constant
is answered by a slot with that constant, in the pool of the moment and in every later one. Since keys tell a name and
a descriptor only as they are spelled together, that much is all that a request for these gets without further ado.
-/
namespace Linkage

namespace Pool

/-- Each constant of the first pool stands in the same slot of the second one. -/
def Within (pool larger : Pool) : Prop := ∀ index c, pool.Holds index c → larger.Holds index c

variable {pool larger : Pool} {index : Nat}

theorem Within.refl (pool : Pool) : pool.Within pool := fun _ _ h => h

theorem Within.trans {largest : Pool} (h : pool.Within larger) (h' : larger.Within largest) : pool.Within largest :=
  fun index c hc => h' index c (h index c hc)

theorem Within.utf8 (h : pool.Within larger) {text : String} (hp : pool.utf8 index = .ok text) :
    larger.utf8 index = .ok text :=
  utf8_eq_ok_iff.mpr (h _ _ (utf8_eq_ok_iff.mp hp))

theorem Within.className (h : pool.Within larger) {name : String} (hp : pool.className index = .ok name) :
    larger.className index = .ok name := by
  obtain ⟨slot, hs, hn⟩ := className_eq_ok_iff.mp hp
  exact className_eq_ok_iff.mpr ⟨slot, h _ _ hs, h _ _ hn⟩

theorem Within.nameAndType (h : pool.Within larger) {pair : String × String}
    (hp : pool.nameAndType index = .ok pair) : larger.nameAndType index = .ok pair := by
  obtain ⟨first, second, hf, hn, hd⟩ := nameAndType_eq_ok_iff.mp hp
  exact nameAndType_eq_ok_iff.mpr ⟨first, second, h _ _ hf, h _ _ hn, h _ _ hd⟩

theorem Within.memberRef (h : pool.Within larger) {kinds : List MemberKind} {ref : MemberRef}
    (hp : pool.memberRef index kinds = .ok ref) : larger.memberRef index kinds = .ok ref := by
  obtain ⟨kind, hk, owner, described, hm, ho, hd, hi⟩ := memberRef_eq_ok_iff.mp hp
  exact memberRef_eq_ok_iff.mpr ⟨kind, hk, owner, described, h _ _ hm, h.className ho, h.nameAndType hd, hi⟩

theorem memberRef_mono {kinds more : List MemberKind} (hsub : kinds ⊆ more) {ref : MemberRef}
    (h : pool.memberRef index kinds = .ok ref) : pool.memberRef index more = .ok ref := by
  obtain ⟨kind, hk, rest⟩ := memberRef_eq_ok_iff.mp h
  exact memberRef_eq_ok_iff.mpr ⟨kind, hsub hk, rest⟩

end Pool

/-- The owners of members and the pairs of a name and a descriptor that an assembly deals with. -/
structure Vocabulary where
  owner : String → Prop
  pair : String → String → Prop

namespace Vocabulary

variable (v : Vocabulary)

/-- The slot holds some pair of the vocabulary with this spelling. -/
def PairAt (pool : Pool) (index : Nat) (spelling : String) : Prop :=
  ∃ name descriptor, v.pair name descriptor ∧ spellPair name descriptor = spelling ∧
    pool.nameAndType index = .ok (name, descriptor)

/-- The slot holds some member of the vocabulary with this spelling. -/
def MemberAt (pool : Pool) (index : Nat) (kind : MemberKind) (spelling : String) : Prop :=
  ∃ owner name descriptor, v.owner owner ∧ v.pair name descriptor ∧ spellMember owner name descriptor = spelling ∧
    pool.memberRef index [kind] = .ok ⟨owner, name, descriptor, kind = .interfaceMethod⟩

/-- The slot holds the constant that the entry tells. -/
def At (pool : Pool) (index : Nat) : Entry → Prop
  | .utf8 text => Storable text ∧ pool.utf8 index = .ok text
  | .type name => pool.className index = .ok name
  | .string text => ∃ slot, pool.Holds index (.string slot) ∧ pool.utf8 slot = .ok text
  | .integer value => pool.Holds index (.integer (Int32.ofInt value).toUInt32)
  | .pair spelling => v.PairAt pool index spelling
  | .member kind spelling => v.MemberAt pool index kind spelling
  | .handle kind reference => pool.Holds index (.methodHandle (kind % 256).toNat reference) ∧
      ∃ member spelling, v.MemberAt pool reference member spelling
  | .methodType descriptor => ∃ slot, pool.Holds index (.methodType slot) ∧ pool.utf8 slot = .ok descriptor
  | .dynamic bootstrap slot => pool.Holds index (.dynamic (Assembler.slotOf bootstrap) slot) ∧
      ∃ spelling, v.PairAt pool slot spelling
  | .site bootstrap slot => pool.Holds index (.invokeDynamic (Assembler.slotOf bootstrap) slot) ∧
      ∃ spelling, v.PairAt pool slot spelling

variable {v} {pool larger : Pool} {index : Nat}

theorem PairAt.mono {spelling : String} (h : v.PairAt pool index spelling) (hw : pool.Within larger) :
    v.PairAt larger index spelling := by
  obtain ⟨name, descriptor, hp, hs, hn⟩ := h
  exact ⟨name, descriptor, hp, hs, hw.nameAndType hn⟩

theorem MemberAt.mono {kind : MemberKind} {spelling : String} (h : v.MemberAt pool index kind spelling)
    (hw : pool.Within larger) : v.MemberAt larger index kind spelling := by
  obtain ⟨owner, name, descriptor, ho, hp, hs, hm⟩ := h
  exact ⟨owner, name, descriptor, ho, hp, hs, hw.memberRef hm⟩

theorem At.mono {e : Entry} (h : v.At pool index e) (hw : pool.Within larger) : v.At larger index e := by
  cases e with
  | utf8 text => exact ⟨h.1, hw.utf8 h.2⟩
  | type name => exact hw.className h
  | string text =>
    obtain ⟨slot, hs, ht⟩ := h
    exact ⟨slot, hw _ _ hs, hw.utf8 ht⟩
  | integer value => exact hw _ _ h
  | pair spelling => exact PairAt.mono h hw
  | member kind spelling => exact MemberAt.mono h hw
  | handle kind reference =>
    obtain ⟨hh, member, spelling, hm⟩ := h
    exact ⟨hw _ _ hh, member, spelling, hm.mono hw⟩
  | methodType descriptor =>
    obtain ⟨slot, hs, ht⟩ := h
    exact ⟨slot, hw _ _ hs, hw.utf8 ht⟩
  | dynamic bootstrap slot =>
    obtain ⟨hd, spelling, hp⟩ := h
    exact ⟨hw _ _ hd, spelling, hp.mono hw⟩
  | site bootstrap slot =>
    obtain ⟨hd, spelling, hp⟩ := h
    exact ⟨hw _ _ hd, spelling, hp.mono hw⟩

end Vocabulary

namespace Assembler

/-- The constants and the bootstrap methods so far. -/
def pool (a : Assembler) : Pool where
  slots := (none :: a.constants.toList.map fun entry => some entry.2).toArray
  bootstraps := a.bootstraps.map fun (handle, arguments) => ⟨handle.toNat, arguments.map Int.toNat⟩

theorem pool_holds_iff {a : Assembler} {index : Nat} {c : Constant} :
    a.pool.Holds index c ↔ ∃ i key, index = i + 1 ∧ a.constants[i]? = some (key, c) := by
  cases index with
  | zero => simp [Pool.Holds]
  | succ i => simp [Pool.Holds, pool]

/-- The slot belongs to the key of this entry. -/
def Carries (a : Assembler) (slot : Nat) (e : Entry) : Prop :=
  ∃ i c, slot = i + 1 ∧ a.constants[i]? = some (e.key, c)

/-- The constants of the first assembly are the first ones of the second. -/
def Grows (a b : Assembler) : Prop := ∀ (i : Nat) entry, a.constants[i]? = some entry → b.constants[i]? = some entry

theorem Grows.refl (a : Assembler) : a.Grows a := fun _ _ h => h

theorem Grows.trans {a b c : Assembler} (h : a.Grows b) (h' : b.Grows c) : a.Grows c :=
  fun i entry hi => h' i entry (h i entry hi)

theorem Grows.within {a b : Assembler} (h : a.Grows b) : a.pool.Within b.pool := by
  intro index c hc
  obtain ⟨i, key, rfl, hi⟩ := pool_holds_iff.mp hc
  exact pool_holds_iff.mpr ⟨i, key, rfl, h _ _ hi⟩

/-- Each slot holds the constant that its key tells. -/
def Keyed (v : Vocabulary) (a : Assembler) : Prop :=
  ∀ (i : Nat) key c, a.constants[i]? = some (key, c) → ∃ e : Entry, e.key = key ∧ v.At a.pool (i + 1) e

/-- From the state `a` on, the step only adds constants, in good order. What it answers is right in every pool from
then on. -/
structure Adds {α : Type} (v : Vocabulary) (a : Assembler) (x : Assemble α) (Q : α → Pool → Prop) : Prop where
  keyed : (x a).2.Keyed v
  frame : (x a).2 = { a with constants := (x a).2.constants }
  within : a.pool.Within (x a).2.pool
  post : ∀ pool, (x a).2.pool.Within pool → Q (x a).1 pool

variable {α β : Type} {v : Vocabulary} {a : Assembler}

theorem Adds.pure {b : α} {Q : α → Pool → Prop} (hk : a.Keyed v) (h : ∀ pool, a.pool.Within pool → Q b pool) :
    Adds v a (Pure.pure b) Q :=
  ⟨hk, rfl, .refl _, h⟩

theorem Adds.bind {x : Assemble α} {f : α → Assemble β} {Q : α → Pool → Prop} {R : β → Pool → Prop}
    (hx : Adds v a x Q)
    (hf : ∀ r a', a'.Keyed v → a.pool.Within a'.pool → (∀ pool, a'.pool.Within pool → Q r pool) →
      Adds v a' (f r) R) :
    Adds v a (x >>= f) R := by
  obtain ⟨hk, hframe, hw, hpost⟩ := hx
  obtain ⟨hk', hframe', hw', hpost'⟩ := hf _ _ hk hw hpost
  refine ⟨hk', ?_, hw.trans hw', hpost'⟩
  change (f (x a).1 (x a).2).2 = { a with constants := (f (x a).1 (x a).2).2.constants }
  rw [hframe', hframe]

/-- Only what the step does in the state `a` counts. -/
theorem Adds.of_eq {x y : Assemble α} {Q : α → Pool → Prop} (h : x a = y a) (hy : Adds v a y Q) : Adds v a x Q := by
  refine ⟨?_, ?_, ?_, ?_⟩ <;> rw [h]
  · exact hy.keyed
  · exact hy.frame
  · exact hy.within
  · exact hy.post

theorem Adds.imp {x : Assemble α} {Q R : α → Pool → Prop} (hx : Adds v a x Q)
    (h : ∀ r pool, a.pool.Within pool → Q r pool → R r pool) : Adds v a x R :=
  { hx with post := fun pool hw => h _ _ (hx.within.trans hw) (hx.post pool hw) }

theorem Adds.mapM {ι : Type} {f : ι → Assemble β} {items : List ι} {Q : ι → β → Pool → Prop} (hk : a.Keyed v)
    (h : ∀ item ∈ items, ∀ a', a'.Keyed v → a.pool.Within a'.pool → Adds v a' (f item) (Q item)) :
    Adds v a (items.mapM f) fun rs pool => List.Forall₂ (fun item r => Q item r pool) items rs := by
  induction items generalizing a with
  | nil => exact .pure hk fun _ _ => .nil
  | cons item items ih =>
    rw [List.mapM_cons]
    refine (h item (by simp) a hk (.refl _)).bind fun r a' hk' hw hr => ?_
    have hrest := ih hk' fun i hi a'' hk'' hw' => h i (by simp [hi]) a'' hk'' (hw.trans hw')
    refine hrest.bind fun rs a'' hk'' hw' hrs => ?_
    exact .pure hk'' fun pool hp => .cons (hr pool (hw'.trans hp)) (hrs pool hp)

theorem share_apply (key : String) (c : Constant) (a : Assembler) :
    share key c a = match a.constants.findIdx? (·.1 == key) with
      | some i => (i + 1, a)
      | none => (a.constants.size + 1, { a with constants := a.constants.push (key, c) }) := by
  rw [share]
  change (match a.constants.findIdx? (·.1 == key) with
    | some i => Pure.pure (i + 1)
    | none => _ : Assemble Nat) a = _
  cases a.constants.findIdx? (·.1 == key) <;> rfl

theorem grows_push (a : Assembler) (entry : String × Constant) :
    a.Grows { a with constants := a.constants.push entry } := by
  intro i known h
  have hlt : i < a.constants.size := (Array.getElem?_eq_some_iff.mp h).1
  rw [← h, Array.getElem?_push_lt hlt, Array.getElem?_eq_getElem hlt]

theorem getElem?_push_cases {known : String × Constant} {entry : String × Constant} {i : Nat}
    (h : (a.constants.push entry)[i]? = some known) :
    a.constants[i]? = some known ∨ i = a.constants.size ∧ known = entry := by
  rw [Array.getElem?_push] at h
  by_cases hi : i = a.constants.size
  · rw [if_pos hi] at h
    exact .inr ⟨hi, (Option.some.inj h).symm⟩
  · rw [if_neg hi] at h
    exact .inl h

/-- A key keeps its slot, or it gets a new one for this constant. -/
theorem share_cases (a : Assembler) (e : Entry) (c : Constant) :
    (∃ slot, share e.key c a = (slot, a) ∧ a.Carries slot e) ∨
      share e.key c a = (a.constants.size + 1, { a with constants := a.constants.push (e.key, c) }) ∧
        ∀ slot, ¬ a.Carries slot e := by
  rw [share_apply]
  cases hfind : a.constants.findIdx? (·.1 == e.key) with
  | some i =>
    obtain ⟨hlt, heq, -⟩ := Array.findIdx?_eq_some_iff_getElem.mp hfind
    refine .inl ⟨i + 1, rfl, i, a.constants[i].2, rfl, ?_⟩
    rw [Array.getElem?_eq_getElem hlt, ← eq_of_beq heq]
  | none =>
    refine .inr ⟨rfl, ?_⟩
    rintro slot ⟨i, d, rfl, hi⟩
    have hmem := Array.mem_of_getElem? hi
    have hne := Array.findIdx?_eq_none_iff.mp hfind _ hmem
    simp at hne

/-- A constant is stored under its key, or one with this key was there before. -/
theorem adds_share (e : Entry) {c : Constant} (hk : a.Keyed v)
    (hnew : ∀ pool index, a.pool.Within pool → pool.Holds index c → v.At pool index e) :
    Adds v a (share e.key c) fun slot pool => v.At pool slot e := by
  obtain ⟨slot, hrun, i, d, rfl, hi⟩ | ⟨hrun, -⟩ := share_cases a e c
  · obtain ⟨e', he', hat⟩ := hk i _ _ hi
    obtain rfl : e' = e := Entry.key_injective he'
    exact ⟨by rw [hrun]; exact hk, by rw [hrun], by rw [hrun]; exact .refl _,
      fun pool hw => by rw [hrun] at hw ⊢; exact hat.mono hw⟩
  · have hw := (grows_push a (e.key, c)).within
    have hheld : { a with constants := a.constants.push (e.key, c) }.pool.Holds (a.constants.size + 1) c :=
      pool_holds_iff.mpr ⟨_, e.key, rfl, by simp⟩
    have hat := hnew _ _ hw hheld
    refine ⟨?_, by rw [hrun], by rw [hrun]; exact hw, fun pool hp => by rw [hrun] at hp ⊢; exact hat.mono hp⟩
    rw [hrun]
    intro i key d hi
    obtain hold | ⟨rfl, heq⟩ := getElem?_push_cases hi
    · obtain ⟨e', he', hat'⟩ := hk i key d hold
      exact ⟨e', he', hat'.mono hw⟩
    · obtain ⟨rfl, rfl⟩ : key = e.key ∧ d = c := by simpa using heq
      exact ⟨e, rfl, hat⟩

/-! Requests for constants. -/

theorem adds_utf8 {text : String} (hk : a.Keyed v) (ht : Storable text) :
    Adds v a (utf8 text) fun slot pool => pool.utf8 slot = .ok text := by
  have hshare : Adds v a (utf8 text) fun slot pool => v.At pool slot (.utf8 text) :=
    adds_share (.utf8 text) hk fun pool index _ h => ⟨ht, Pool.utf8_eq_ok_iff.mpr h⟩
  exact hshare.imp fun _ _ _ h => h.2

theorem adds_type {name : String} (hk : a.Keyed v) (hn : Storable name) :
    Adds v a (type name) fun slot pool => pool.className slot = .ok name := by
  refine (adds_utf8 hk hn).bind fun slot a' hk' _ hs => ?_
  refine adds_share (.type name) hk' fun pool index hw h => ?_
  exact Pool.className_eq_ok_iff.mpr ⟨slot, h, Pool.utf8_eq_ok_iff.mp (hs pool hw)⟩

theorem adds_optionalType {name : String} (hk : a.Keyed v) (hn : Storable name) :
    Adds v a (optionalType name) fun slot pool => pool.optionalClassName slot = .ok name := by
  rw [optionalType]
  by_cases h : name = ""
  · rw [if_pos h]
    exact .pure hk fun pool _ => by rw [h]; rfl
  · rw [if_neg h]
    refine (adds_type hk hn).imp fun slot pool _ hname => ?_
    obtain ⟨text, hheld, -⟩ := Pool.className_eq_ok_iff.mp hname
    rw [Pool.optionalClassName, if_neg hheld.1]
    exact hname

theorem adds_string {text : String} (hk : a.Keyed v) (ht : Storable text) :
    Adds v a (string text) fun slot pool => v.At pool slot (.string text) := by
  refine (adds_utf8 hk ht).bind fun slot a' hk' _ hs => ?_
  exact adds_share (.string text) hk' fun pool index hw h => ⟨slot, h, hs pool hw⟩

theorem adds_methodType {descriptor : String} (hk : a.Keyed v) (hd : Storable descriptor) :
    Adds v a (methodType descriptor) fun slot pool => v.At pool slot (.methodType descriptor) := by
  refine (adds_utf8 hk hd).bind fun slot a' hk' _ hs => ?_
  exact adds_share (.methodType descriptor) hk' fun pool index hw h => ⟨slot, h, hs pool hw⟩

theorem adds_integer (value : Int) (hk : a.Keyed v) :
    Adds v a (integer value) fun slot pool => pool.Holds slot (.integer (Int32.ofInt value).toUInt32) := by
  have hword : Int32.ofInt (Int32.ofInt value).toInt = Int32.ofInt value := Int32.ofInt_toInt _
  have hat (pool : Pool) (slot : Nat) : v.At pool slot (.integer (Int32.ofInt value).toInt) ↔
      pool.Holds slot (.integer (Int32.ofInt value).toUInt32) := by
    rw [Vocabulary.At, hword]
  exact (adds_share (.integer (Int32.ofInt value).toInt) hk fun pool index _ h => (hat pool index).mpr h).imp
    fun slot pool _ h => (hat pool slot).mp h

theorem key_pair (name descriptor : String) :
    "nat:" ++ name ++ ":" ++ descriptor = (Entry.pair (spellPair name descriptor)).key := by
  simp [Entry.key, Entry.head, Entry.tail, spellPair, String.append_assoc]

theorem adds_nameAndType {name descriptor : String} (hk : a.Keyed v) (hn : Storable name)
    (hd : Storable descriptor) (hp : v.pair name descriptor) :
    Adds v a (nameAndType name descriptor) fun slot pool => v.PairAt pool slot (spellPair name descriptor) := by
  refine (adds_utf8 hk hn).bind fun first a₁ hk₁ _ hfirst => ?_
  refine (adds_utf8 hk₁ hd).bind fun second a₂ hk₂ hw₂ hsecond => ?_
  rw [key_pair]
  refine adds_share (.pair (spellPair name descriptor)) hk₂ fun pool index hw h => ⟨name, descriptor, hp, rfl, ?_⟩
  exact Pool.nameAndType_eq_ok_iff.mpr ⟨first, second, h, Pool.utf8_eq_ok_iff.mp (hfirst pool (hw₂.trans hw)),
    Pool.utf8_eq_ok_iff.mp (hsecond pool hw)⟩

theorem key_member (kind : MemberKind) (ownerSlot pairSlot : Nat) (owner name descriptor : String) :
    s!"ref{(Constant.member kind ownerSlot pairSlot).tag.code}:{owner}.{name}:{descriptor}" =
      (Entry.member kind (spellMember owner name descriptor)).key := by
  have hhead : (Entry.member kind (spellMember owner name descriptor)).head =
      "ref" ++ toString (Constant.member kind ownerSlot pairSlot).tag.code := by
    cases kind with
    | field => exact (by decide +kernel : "ref9" = "ref" ++ toString 9)
    | method => exact (by decide +kernel : "ref10" = "ref" ++ toString 10)
    | interfaceMethod => exact (by decide +kernel : "ref11" = "ref" ++ toString 11)
  rw [Entry.key, hhead, Entry.tail, spellMember, spellPair]
  simp only [String.append_assoc]
  rfl

theorem adds_memberRef {kind : MemberKind} {owner name descriptor : String} (hk : a.Keyed v) (ho : Storable owner)
    (hn : Storable name) (hd : Storable descriptor) (hv : v.owner owner) (hp : v.pair name descriptor) :
    Adds v a (memberRef kind owner name descriptor) fun slot pool =>
      v.MemberAt pool slot kind (spellMember owner name descriptor) := by
  refine (adds_type hk ho).bind fun ownerSlot a₁ hk₁ _ howner => ?_
  refine (adds_nameAndType hk₁ hn hd hp).bind fun pairSlot a₂ hk₂ hw₂ hpair => ?_
  dsimp only
  rw [key_member]
  refine adds_share (.member kind (spellMember owner name descriptor)) hk₂ fun pool index hw h => ?_
  -- A pair that was there before may be another one of the same spelling.
  obtain ⟨name', descriptor', hp', hspell, hn'⟩ := hpair pool hw
  refine ⟨owner, name', descriptor', hv, hp', by rw [spellMember, hspell, spellMember], ?_⟩
  exact Pool.memberRef_eq_ok_iff.mpr ⟨kind, by simp, ownerSlot, pairSlot, h, howner pool (hw₂.trans hw), hn', rfl⟩

/-- The kind of member that a handle refers to. -/
def handleMember (kind : Int) (isInterface : Bool) : MemberKind :=
  if kind ≤ 4 then .field else if isInterface then .interfaceMethod else .method

theorem adds_methodHandle {kind : Int} {owner name descriptor : String} {isInterface : Bool} (hk : a.Keyed v)
    (ho : Storable owner) (hn : Storable name) (hd : Storable descriptor) (hv : v.owner owner)
    (hp : v.pair name descriptor) :
    Adds v a (methodHandle kind owner name descriptor isInterface) fun slot pool =>
      ∃ reference, pool.Holds slot (.methodHandle (kind % 256).toNat reference) ∧
        v.MemberAt pool reference (handleMember kind isInterface) (spellMember owner name descriptor) := by
  refine (adds_memberRef hk ho hn hd hv hp).bind fun reference a' hk' hw' href => ?_
  have hshare : Adds v a' (share s!"handle:{kind}:{reference}" (.methodHandle (kind % 256).toNat reference))
      fun slot pool => v.At pool slot (.handle kind reference) :=
    adds_share (.handle kind reference) hk' fun pool index hw h => ⟨h, _, _, href pool hw⟩
  exact hshare.imp fun slot pool hw h => ⟨reference, h.1, href pool hw⟩

theorem adds_dynamic {bootstrap : Int} {name descriptor : String} (hk : a.Keyed v) (hn : Storable name)
    (hd : Storable descriptor) (hp : v.pair name descriptor) :
    Adds v a (dynamic bootstrap name descriptor) fun slot pool =>
      ∃ pair, pool.Holds slot (.dynamic (slotOf bootstrap) pair) ∧ v.PairAt pool pair (spellPair name descriptor) := by
  refine (adds_nameAndType hk hn hd hp).bind fun pair a' hk' _ hpair => ?_
  have hshare : Adds v a' (share s!"dynamic:{bootstrap}:{pair}" (.dynamic (slotOf bootstrap) pair))
      fun slot pool => v.At pool slot (.dynamic bootstrap pair) :=
    adds_share (.dynamic bootstrap pair) hk' fun pool index hw h => ⟨h, _, hpair pool hw⟩
  exact hshare.imp fun slot pool hw h => ⟨pair, h.1, hpair pool hw⟩

theorem adds_invokeDynamicRef {bootstrap : Int} {name descriptor : String} (hk : a.Keyed v) (hn : Storable name)
    (hd : Storable descriptor) (hp : v.pair name descriptor) :
    Adds v a (invokeDynamicRef bootstrap name descriptor) fun slot pool =>
      ∃ pair, pool.Holds slot (.invokeDynamic (slotOf bootstrap) pair) ∧
        v.PairAt pool pair (spellPair name descriptor) := by
  refine (adds_nameAndType hk hn hd hp).bind fun pair a' hk' _ hpair => ?_
  have hshare : Adds v a' (share s!"indy:{bootstrap}:{pair}" (.invokeDynamic (slotOf bootstrap) pair))
      fun slot pool => v.At pool slot (.site bootstrap pair) :=
    adds_share (.site bootstrap pair) hk' fun pool index hw h => ⟨h, _, hpair pool hw⟩
  exact hshare.imp fun slot pool hw h => ⟨pair, h.1, hpair pool hw⟩

end Assembler

end Linkage
