import Linkage.Proofs.Following

/-!
What requests for constants have in common. A slot belongs to one key for good, so two requests get the same slot if
and only if their keys agree, with other constants spelled out in them. Keys spell a name and a descriptor, and an owner
before them, as one text. So a slot holds what is asked for if and only if the pool did not hold before another pair, or
another member, of the same spelling.
-/
namespace Linkage

namespace Entry

/-- Requests that lead to an entry add none of a higher rank. -/
def rank : Entry → Nat
  | .utf8 _ | .integer _ => 0
  | .type _ | .string _ | .methodType _ => 1
  | .pair _ => 2
  | .member _ _ => 3
  | .handle _ _ | .dynamic _ _ | .site _ _ => 4

/-- The constant is one that the entry tells of. -/
def Tells (pool : Pool) (c : Constant) : Entry → Prop
  | .utf8 text => c = .utf8 text
  | .type name => ∃ slot, c = .type slot ∧ pool.utf8 slot = .ok name
  | .string text => ∃ slot, c = .string slot ∧ pool.utf8 slot = .ok text
  | .integer value => c = .integer (Int32.ofInt value).toUInt32
  | .pair spelling => ∃ first second name descriptor, c = .nameAndType first second ∧
      pool.utf8 first = .ok name ∧ pool.utf8 second = .ok descriptor ∧ spellPair name descriptor = spelling
  | .member kind spelling => ∃ first second owner name descriptor, c = .member kind first second ∧
      pool.className first = .ok owner ∧ pool.nameAndType second = .ok (name, descriptor) ∧
      spellMember owner name descriptor = spelling
  | .handle kind reference => c = .methodHandle (kind % 256).toNat reference
  | .methodType descriptor => ∃ slot, c = .methodType slot ∧ pool.utf8 slot = .ok descriptor
  | .dynamic bootstrap slot => c = .dynamic (Assembler.slotOf bootstrap) slot
  | .site bootstrap slot => c = .invokeDynamic (Assembler.slotOf bootstrap) slot

theorem Tells.mono {pool larger : Pool} {c : Constant} {e : Entry} (h : e.Tells pool c) (hw : pool.Within larger) :
    e.Tells larger c := by
  cases e with
  | type | string | methodType =>
    obtain ⟨slot, hc, ht⟩ := h
    exact ⟨slot, hc, hw.utf8 ht⟩
  | pair spelling =>
    obtain ⟨first, second, name, descriptor, hc, hn, hd, hs⟩ := h
    exact ⟨first, second, name, descriptor, hc, hw.utf8 hn, hw.utf8 hd, hs⟩
  | member kind spelling =>
    obtain ⟨first, second, owner, name, descriptor, hc, ho, hp, hs⟩ := h
    exact ⟨first, second, owner, name, descriptor, hc, hw.className ho, hw.nameAndType hp, hs⟩
  | utf8 | integer | handle | dynamic | site => exact h

end Entry

namespace Assembler

/-- Keys have one slot each, with a constant that they tell of. -/
structure Sound (a : Assembler) : Prop where
  distinct {i j : Nat} {key : String} {c d : Constant} :
    a.constants[i]? = some (key, c) → a.constants[j]? = some (key, d) → i = j
  told {i : Nat} {key : String} {c : Constant} :
    a.constants[i]? = some (key, c) → ∃ e : Entry, e.key = key ∧ e.Tells a.pool c

variable {a b : Assembler} {slot other : Nat} {e e' : Entry}

theorem Carries.mono (h : a.Carries slot e) (hg : a.Grows b) : b.Carries slot e := by
  obtain ⟨i, c, rfl, hi⟩ := h
  exact ⟨i, c, rfl, hg _ _ hi⟩

theorem Carries.unique (h : a.Carries slot e) (h' : a.Carries slot e') : e = e' := by
  obtain ⟨i, c, rfl, hi⟩ := h
  obtain ⟨j, d, hslot, hj⟩ := h'
  obtain rfl : i = j := by omega
  rw [hi] at hj
  exact Entry.key_injective (by injection hj with h; injection h)

namespace Sound

variable (hs : a.Sound)
include hs

theorem slot_eq (h : a.Carries slot e) (h' : a.Carries other e) : slot = other := by
  obtain ⟨i, c, rfl, hi⟩ := h
  obtain ⟨j, d, rfl, hj⟩ := h'
  rw [hs.distinct hi hj]

theorem holds (h : a.Carries slot e) : ∃ c, a.pool.Holds slot c ∧ e.Tells a.pool c := by
  obtain ⟨i, c, rfl, hi⟩ := h
  obtain ⟨e', hkey, htells⟩ := hs.told hi
  obtain rfl := Entry.key_injective hkey
  exact ⟨c, pool_holds_iff.mpr ⟨i, _, rfl, hi⟩, htells⟩

theorem carries_of_holds {c : Constant} (h : a.pool.Holds slot c) : ∃ e, a.Carries slot e ∧ e.Tells a.pool c := by
  obtain ⟨i, key, rfl, hi⟩ := pool_holds_iff.mp h
  obtain ⟨e, rfl, htells⟩ := hs.told hi
  exact ⟨e, ⟨i, c, rfl, hi⟩, htells⟩

theorem utf8 {text : String} (h : a.Carries slot (.utf8 text)) : a.pool.utf8 slot = .ok text := by
  obtain ⟨c, hc, rfl⟩ := hs.holds h
  exact Pool.utf8_eq_ok_iff.mpr hc

theorem className {name : String} (h : a.Carries slot (.type name)) : a.pool.className slot = .ok name := by
  obtain ⟨c, hc, text, rfl, ht⟩ := hs.holds h
  exact Pool.className_eq_ok_iff.mpr ⟨text, hc, Pool.utf8_eq_ok_iff.mp ht⟩

/-- A slot for a spelling holds some pair of this spelling. -/
theorem pair {spelling : String} (h : a.Carries slot (.pair spelling)) :
    ∃ name descriptor, spellPair name descriptor = spelling ∧ a.pool.nameAndType slot = .ok (name, descriptor) := by
  obtain ⟨c, hc, first, second, name, descriptor, rfl, hn, hd, hspell⟩ := hs.holds h
  refine ⟨name, descriptor, hspell, Pool.nameAndType_eq_ok_iff.mpr ⟨first, second, hc, ?_, ?_⟩⟩
  · exact Pool.utf8_eq_ok_iff.mp hn
  · exact Pool.utf8_eq_ok_iff.mp hd

/-- A slot for a spelling holds some member of this spelling. -/
theorem member {kind : MemberKind} {spelling : String} (h : a.Carries slot (.member kind spelling)) :
    ∃ owner name descriptor, spellMember owner name descriptor = spelling ∧
      a.pool.memberRef slot [kind] = .ok ⟨owner, name, descriptor, kind = .interfaceMethod⟩ := by
  obtain ⟨c, hc, first, second, owner, name, descriptor, rfl, ho, hp, hspell⟩ := hs.holds h
  refine ⟨owner, name, descriptor, hspell, ?_⟩
  exact Pool.memberRef_eq_ok_iff.mpr ⟨kind, by simp, first, second, hc, ho, hp, rfl⟩

/-- A pair stands in the slot for its spelling. -/
theorem carries_pair {name descriptor : String} (h : a.pool.nameAndType slot = .ok (name, descriptor)) :
    a.Carries slot (.pair (spellPair name descriptor)) := by
  obtain ⟨first, second, hc, hn, hd⟩ := Pool.nameAndType_eq_ok_iff.mp h
  obtain ⟨e, he, htells⟩ := hs.carries_of_holds hc
  cases e with
  | pair spelling =>
    obtain ⟨_, _, name', descriptor', heq, hn', hd', rfl⟩ := htells
    cases heq
    obtain rfl : name = name' := by simpa using hn.unique (Pool.utf8_eq_ok_iff.mp hn')
    obtain rfl : descriptor = descriptor' := by simpa using hd.unique (Pool.utf8_eq_ok_iff.mp hd')
    exact he
  | _ => simp [Entry.Tells] at htells

/-- A member stands in the slot for its spelling. -/
theorem carries_member {kind : MemberKind} {owner name descriptor : String} {flag : Bool}
    (h : a.pool.memberRef slot [kind] = .ok ⟨owner, name, descriptor, flag⟩) :
    a.Carries slot (.member kind (spellMember owner name descriptor)) := by
  obtain ⟨kind', hkind, first, second, hc, ho, hp, -⟩ := Pool.memberRef_eq_ok_iff.mp h
  obtain rfl : kind' = kind := by simpa using hkind
  obtain ⟨e, he, htells⟩ := hs.carries_of_holds hc
  cases e with
  | member kind spelling =>
    obtain ⟨_, _, owner', name', descriptor', heq, ho', hp', rfl⟩ := htells
    cases heq
    obtain rfl : owner = owner' := by simpa [ho] using ho'
    obtain ⟨rfl, rfl⟩ : name = name' ∧ descriptor = descriptor' := by simpa [hp] using hp'
    exact he
  | _ => simp [Entry.Tells] at htells

end Sound

/-! Requests. -/

/-- From the state `a` on, the step answers with the slot of this entry and adds entries up to this rank. -/
structure Enters (rank : Nat) (a : Assembler) (x : Assemble Nat) (e : Entry) : Prop where
  sound : (x a).2.Sound
  grows : a.Grows (x a).2
  carries : (x a).2.Carries (x a).1 e
  added {slot : Nat} {e' : Entry} : (x a).2.Carries slot e' → rank < e'.rank → a.Carries slot e'

theorem Enters.bind {rank more : Nat} {x : Assemble Nat} {f : Nat → Assemble Nat} (hx : Enters rank a x e)
    (hf : Enters more (x a).2 (f (x a).1) e') (hle : rank ≤ more) : Enters more a (x >>= f) e' where
  sound := hf.sound
  grows := hx.grows.trans hf.grows
  carries := hf.carries
  added hc hr := hx.added (hf.added hc hr) (by omega)

theorem share_grows (a : Assembler) (e : Entry) (c : Constant) : a.Grows (share e.key c a).2 := by
  obtain ⟨slot, hrun, -⟩ | ⟨hrun, -⟩ := share_cases a e c
  · rw [hrun]
    exact .refl a
  · rw [hrun]
    exact grows_push a (e.key, c)

theorem enters_share {c : Constant} (hs : a.Sound) (htells : e.Tells a.pool c) :
    Enters e.rank a (share e.key c) e := by
  obtain ⟨slot, hrun, hcarries⟩ | ⟨hrun, hnew⟩ := share_cases a e c
  · exact ⟨by rw [hrun]; exact hs, share_grows a e c, by rw [hrun]; exact hcarries,
      fun hc _ => by rwa [hrun] at hc⟩
  · have hgrows := grows_push a (e.key, c)
    refine ⟨?_, share_grows a e c, ?_, ?_⟩
    · rw [hrun]
      constructor
      · intro i j key d d' hi hj
        obtain hold | ⟨rfl, hki⟩ := getElem?_push_cases hi <;> obtain hold' | ⟨rfl, hkj⟩ := getElem?_push_cases hj
        · exact hs.distinct hold hold'
        · rw [(Prod.mk.inj hkj).1] at hold
          exact (hnew _ ⟨i, d, rfl, hold⟩).elim
        · rw [(Prod.mk.inj hki).1] at hold'
          exact (hnew _ ⟨j, d', rfl, hold'⟩).elim
        · rfl
      · intro i key d hi
        obtain hi | ⟨rfl, heq⟩ := getElem?_push_cases hi
        · obtain ⟨e', hkey, htold⟩ := hs.told hi
          exact ⟨e', hkey, htold.mono hgrows.within⟩
        · obtain ⟨rfl, rfl⟩ := Prod.mk.inj heq
          exact ⟨e, rfl, htells.mono hgrows.within⟩
    · rw [hrun]
      exact ⟨a.constants.size, c, rfl, by simp⟩
    · intro slot e' hc hr
      rw [hrun] at hc
      obtain ⟨i, d, rfl, hi⟩ := hc
      obtain hi | ⟨rfl, heq⟩ := getElem?_push_cases hi
      · exact ⟨i, d, rfl, hi⟩
      · rw [Entry.key_injective (Prod.mk.inj heq).1] at hr
        omega

/-- What is not there yet is stored as it was given. -/
theorem share_holds (a : Assembler) (e : Entry) (c : Constant) :
    a.Carries (share e.key c a).1 e ∨ (share e.key c a).2.pool.Holds (share e.key c a).1 c := by
  obtain ⟨slot, hrun, hcarries⟩ | ⟨hrun, -⟩ := share_cases a e c
  · rw [hrun]
    exact .inl hcarries
  · rw [hrun]
    exact .inr (pool_holds_iff.mpr ⟨a.constants.size, e.key, rfl, by simp⟩)

theorem enters_utf8 (hs : a.Sound) (text : String) : Enters 0 a (utf8 text) (.utf8 text) :=
  enters_share hs (e := .utf8 text) rfl

theorem enters_integer (hs : a.Sound) (value : Int) :
    Enters 0 a (integer value) (.integer (Int32.ofInt value).toInt) := by
  refine enters_share hs (e := .integer (Int32.ofInt value).toInt) ?_
  rw [Entry.Tells, Int32.ofInt_toInt]

theorem enters_type (hs : a.Sound) (name : String) : Enters 1 a (type name) (.type name) := by
  have h := enters_utf8 hs name
  exact h.bind (enters_share h.sound (e := .type name) ⟨_, rfl, h.sound.utf8 h.carries⟩) (by decide)

theorem enters_string (hs : a.Sound) (text : String) : Enters 1 a (string text) (.string text) := by
  have h := enters_utf8 hs text
  exact h.bind (enters_share h.sound (e := .string text) ⟨_, rfl, h.sound.utf8 h.carries⟩) (by decide)

theorem enters_methodType (hs : a.Sound) (descriptor : String) :
    Enters 1 a (methodType descriptor) (.methodType descriptor) := by
  have h := enters_utf8 hs descriptor
  exact h.bind (enters_share h.sound (e := .methodType descriptor) ⟨_, rfl, h.sound.utf8 h.carries⟩) (by decide)

/-- A request for a pair, as its key is looked up in the state after both texts are there. -/
theorem nameAndType_apply (name descriptor : String) (a : Assembler) :
    nameAndType name descriptor a =
      share (Entry.pair (spellPair name descriptor)).key
        (.nameAndType (utf8 name a).1 (utf8 descriptor (utf8 name a).2).1) (utf8 descriptor (utf8 name a).2).2 := by
  rw [← key_pair]
  rfl

theorem memberRef_apply (kind : MemberKind) (owner name descriptor : String) (a : Assembler) :
    memberRef kind owner name descriptor a =
      share (Entry.member kind (spellMember owner name descriptor)).key
        (.member kind (type owner a).1 (nameAndType name descriptor (type owner a).2).1)
        (nameAndType name descriptor (type owner a).2).2 := by
  rw [← key_member kind (type owner a).1 (nameAndType name descriptor (type owner a).2).1]
  rfl

theorem enters_nameAndType (hs : a.Sound) (name descriptor : String) :
    Enters 2 a (nameAndType name descriptor) (.pair (spellPair name descriptor)) := by
  have hn := enters_utf8 hs name
  have hd := enters_utf8 hn.sound descriptor
  refine hn.bind (hd.bind ?_ (by decide)) (by decide)
  rw [key_pair]
  refine enters_share hd.sound (e := .pair (spellPair name descriptor)) ⟨_, _, name, descriptor, rfl, ?_, ?_, rfl⟩
  · exact hd.sound.utf8 (hn.carries.mono hd.grows)
  · exact hd.sound.utf8 hd.carries

theorem enters_memberRef (hs : a.Sound) (kind : MemberKind) (owner name descriptor : String) :
    Enters 3 a (memberRef kind owner name descriptor) (.member kind (spellMember owner name descriptor)) := by
  have ho := enters_type hs owner
  have hp := enters_nameAndType ho.sound name descriptor
  refine ho.bind (hp.bind ?_ (by decide)) (by decide)
  dsimp only
  rw [key_member]
  -- A pair that was there before may be another one of the same spelling.
  obtain ⟨name', descriptor', hspell, hpair⟩ := hp.sound.pair hp.carries
  refine enters_share hp.sound (e := .member kind (spellMember owner name descriptor))
    ⟨_, _, owner, name', descriptor', rfl, ?_, hpair, by rw [spellMember, hspell, spellMember]⟩
  exact hp.sound.className (ho.carries.mono hp.grows)

theorem enters_methodHandle (hs : a.Sound) (kind : Int) (owner name descriptor : String) (isInterface : Bool) :
    let reference := (memberRef (handleMember kind isInterface) owner name descriptor a).1
    Enters 4 a (methodHandle kind owner name descriptor isInterface) (.handle kind reference) ∧
      (methodHandle kind owner name descriptor isInterface a).2.Carries reference
        (.member (handleMember kind isInterface) (spellMember owner name descriptor)) := by
  intro reference
  have h := enters_memberRef hs (handleMember kind isInterface) owner name descriptor
  have hshare : Enters 4 _ (share s!"handle:{kind}:{reference}" (.methodHandle (kind % 256).toNat reference)) _ :=
    enters_share h.sound (e := .handle kind reference) rfl
  exact ⟨h.bind hshare (by decide), h.carries.mono hshare.grows⟩

theorem enters_dynamic (hs : a.Sound) (bootstrap : Int) (name descriptor : String) :
    let pair := (nameAndType name descriptor a).1
    Enters 4 a (dynamic bootstrap name descriptor) (.dynamic bootstrap pair) ∧
      (dynamic bootstrap name descriptor a).2.Carries pair (.pair (spellPair name descriptor)) := by
  intro pair
  have h := enters_nameAndType hs name descriptor
  have hshare : Enters 4 _ (share s!"dynamic:{bootstrap}:{pair}" (.dynamic (slotOf bootstrap) pair)) _ :=
    enters_share h.sound (e := .dynamic bootstrap pair) rfl
  exact ⟨h.bind hshare (by decide), h.carries.mono hshare.grows⟩

theorem enters_invokeDynamicRef (hs : a.Sound) (bootstrap : Int) (name descriptor : String) :
    let pair := (nameAndType name descriptor a).1
    Enters 4 a (invokeDynamicRef bootstrap name descriptor) (.site bootstrap pair) ∧
      (invokeDynamicRef bootstrap name descriptor a).2.Carries pair (.pair (spellPair name descriptor)) := by
  intro pair
  have h := enters_nameAndType hs name descriptor
  have hshare : Enters 4 _ (share s!"indy:{bootstrap}:{pair}" (.invokeDynamic (slotOf bootstrap) pair)) _ :=
    enters_share h.sound (e := .site bootstrap pair) rfl
  exact ⟨h.bind hshare (by decide), h.carries.mono hshare.grows⟩

end Assembler

/-! What the key of a request says. -/

/-- A key with the constants that it refers to spelled out. -/
inductive Wording where
  | plain (e : Entry)
  | handle (kind : Int) (member : Entry)
  | dynamic (bootstrap : Int) (pair : Entry)
  | site (bootstrap : Int) (pair : Entry)

/-- The entry is worded like this. -/
inductive Assembler.Reads (a : Assembler) : Entry → Wording → Prop
  | plain {e : Entry} : e.rank < 4 → Reads a e (.plain e)
  | handle {kind : Int} {slot : Nat} {member : Entry} :
    a.Carries slot member → Reads a (.handle kind slot) (.handle kind member)
  | dynamic {bootstrap : Int} {slot : Nat} {pair : Entry} :
    a.Carries slot pair → Reads a (.dynamic bootstrap slot) (.dynamic bootstrap pair)
  | site {bootstrap : Int} {slot : Nat} {pair : Entry} :
    a.Carries slot pair → Reads a (.site bootstrap slot) (.site bootstrap pair)

namespace Assembler

variable {a b : Assembler} {e e' : Entry} {w w' : Wording}

theorem Reads.mono (h : a.Reads e w) (hg : a.Grows b) : b.Reads e w := by
  cases h with
  | plain hrank => exact .plain hrank
  | handle h => exact .handle (h.mono hg)
  | dynamic h => exact .dynamic (h.mono hg)
  | site h => exact .site (h.mono hg)

/-- Entries are the same if and only if they are worded alike. -/
theorem Reads.eq_iff (hs : a.Sound) (h : a.Reads e w) (h' : a.Reads e' w') : e = e' ↔ w = w' := by
  constructor
  · rintro rfl
    cases h with
    | plain hrank =>
      cases h' with
      | plain _ => rfl
      | handle _ | dynamic _ | site _ => exact absurd hrank (Nat.lt_irrefl 4)
    | handle h =>
      cases h' with
      | plain hrank => exact absurd hrank (Nat.lt_irrefl 4)
      | handle h' => rw [h.unique h']
    | dynamic h =>
      cases h' with
      | plain hrank => exact absurd hrank (Nat.lt_irrefl 4)
      | dynamic h' => rw [h.unique h']
    | site h =>
      cases h' with
      | plain hrank => exact absurd hrank (Nat.lt_irrefl 4)
      | site h' => rw [h.unique h']
  · rintro rfl
    cases h with
    | plain _ =>
      cases h'
      rfl
    | handle h =>
      cases h' with
      | handle h' => rw [hs.slot_eq h h']
    | dynamic h =>
      cases h' with
      | dynamic h' => rw [hs.slot_eq h h']
    | site h =>
      cases h' with
      | site h' => rw [hs.slot_eq h h']

end Assembler

/-- What the key of a request says. -/
def Ask.wording : Ask → Wording
  | .utf8 text => .plain (.utf8 text)
  | .type name => .plain (.type name)
  | .string text => .plain (.string text)
  | .integer value => .plain (.integer (Int32.ofInt value).toInt)
  | .nameAndType name descriptor => .plain (.pair (spellPair name descriptor))
  | .member kind owner name descriptor => .plain (.member kind (spellMember owner name descriptor))
  | .handle kind owner name descriptor isInterface =>
    .handle kind (.member (Assembler.handleMember kind isInterface) (spellMember owner name descriptor))
  | .methodType descriptor => .plain (.methodType descriptor)
  | .dynamic bootstrap name descriptor => .dynamic bootstrap (.pair (spellPair name descriptor))
  | .site bootstrap name descriptor => .site bootstrap (.pair (spellPair name descriptor))

namespace Assembler

variable {a b : Assembler}

/-- A request is answered with the slot of an entry that is worded as the request is. -/
theorem enters_ask (hs : a.Sound) (q : Ask) : ∃ e, Enters 4 a q.run e ∧ (q.run a).2.Reads e q.wording := by
  have hplain {rank : Nat} {e : Entry} (h : Enters rank a q.run e) (hle : rank ≤ 4) (hrank : e.rank < 4)
      (hw : q.wording = .plain e) : ∃ e, Enters 4 a q.run e ∧ (q.run a).2.Reads e q.wording :=
    ⟨e, { h with added := fun hc hr => h.added hc (by omega) }, hw ▸ .plain hrank⟩
  cases q with
  | utf8 text => exact hplain (enters_utf8 hs text) (by decide) (by simp [Entry.rank]) rfl
  | type name => exact hplain (enters_type hs name) (by decide) (by simp [Entry.rank]) rfl
  | string text => exact hplain (enters_string hs text) (by decide) (by simp [Entry.rank]) rfl
  | integer value => exact hplain (enters_integer hs value) (by decide) (by simp [Entry.rank]) rfl
  | nameAndType name descriptor =>
    exact hplain (enters_nameAndType hs name descriptor) (by decide) (by simp [Entry.rank]) rfl
  | member kind owner name descriptor =>
    exact hplain (enters_memberRef hs kind owner name descriptor) (by decide) (by simp [Entry.rank]) rfl
  | methodType descriptor => exact hplain (enters_methodType hs descriptor) (by decide) (by simp [Entry.rank]) rfl
  | handle kind owner name descriptor isInterface =>
    obtain ⟨h, hm⟩ := enters_methodHandle hs kind owner name descriptor isInterface
    exact ⟨_, h, .handle hm⟩
  | dynamic bootstrap name descriptor =>
    obtain ⟨h, hp⟩ := enters_dynamic hs bootstrap name descriptor
    exact ⟨_, h, .dynamic hp⟩
  | site bootstrap name descriptor =>
    obtain ⟨h, hp⟩ := enters_invokeDynamicRef hs bootstrap name descriptor
    exact ⟨_, h, .site hp⟩

end Assembler

end Linkage
