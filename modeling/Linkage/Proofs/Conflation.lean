import Linkage.Proofs.Interning
import Linkage.Proofs.Requests

/-!
When a request for a constant is answered with what it asks for. Whatever calls came before, the answer is right unless
the pool held another pair, or another member, of the same spelling; and two requests get one slot exactly if they are
worded alike. Where no name has a colon and no owner a point, that is to say that they ask for the same constant.
-/
namespace Linkage

namespace Pool

/-- The pool holds another pair that is spelled like this one. -/
def HoldsOtherPair (pool : Pool) (name descriptor : String) : Prop :=
  ∃ slot name' descriptor', pool.nameAndType slot = .ok (name', descriptor') ∧
    spellPair name' descriptor' = spellPair name descriptor ∧ (name', descriptor') ≠ (name, descriptor)

/-- The pool holds another member of this kind that is spelled like this one. -/
def HoldsOtherMember (pool : Pool) (kind : MemberKind) (owner name descriptor : String) : Prop :=
  ∃ slot owner' name' descriptor',
    pool.memberRef slot [kind] = .ok ⟨owner', name', descriptor', kind = .interfaceMethod⟩ ∧
    spellMember owner' name' descriptor' = spellMember owner name descriptor ∧
    (owner', name', descriptor') ≠ (owner, name, descriptor)

end Pool

namespace Assembler

variable {a b : Assembler}

/-- A pool that comes to hold a pair held no other one of its spelling before. -/
theorem not_holdsOtherPair (hs : a.Sound) (hb : b.Sound) (hg : a.Grows b) {slot : Nat} {name descriptor : String}
    (h : b.pool.nameAndType slot = .ok (name, descriptor)) : ¬ a.pool.HoldsOtherPair name descriptor := by
  rintro ⟨other, name', descriptor', hother, hspell, hne⟩
  have hcarries : b.Carries other (.pair (spellPair name descriptor)) := hspell ▸ (hs.carries_pair hother).mono hg
  have hheld := hg.within.nameAndType hother
  rw [hb.slot_eq hcarries (hb.carries_pair h), h] at hheld
  exact hne (Except.ok.inj hheld).symm

theorem not_holdsOtherMember (hs : a.Sound) (hb : b.Sound) (hg : a.Grows b) {slot : Nat} {kind : MemberKind}
    {owner name descriptor : String}
    (h : b.pool.memberRef slot [kind] = .ok ⟨owner, name, descriptor, kind = .interfaceMethod⟩) :
    ¬ a.pool.HoldsOtherMember kind owner name descriptor := by
  rintro ⟨other, owner', name', descriptor', hother, hspell, hne⟩
  have hcarries : b.Carries other (.member kind (spellMember owner name descriptor)) :=
    hspell ▸ (hs.carries_member hother).mono hg
  have hheld := hg.within.memberRef hother
  rw [hb.slot_eq hcarries (hb.carries_member h), h] at hheld
  simp only [Except.ok.injEq, Pool.MemberRef.mk.injEq] at hheld
  exact hne (by simp [hheld])

/-- A pair is answered as it was asked for unless another one of its spelling was there before. -/
theorem nameAndType_answer_iff (hs : a.Sound) (hb : b.Sound) {name descriptor : String}
    (hg : (nameAndType name descriptor a).2.Grows b) :
    b.pool.nameAndType (nameAndType name descriptor a).1 = .ok (name, descriptor) ↔
      ¬ a.pool.HoldsOtherPair name descriptor := by
  have hp := enters_nameAndType hs name descriptor
  have hgrows := hp.grows.trans hg
  constructor
  · exact not_holdsOtherPair hs hb hgrows
  · intro hno
    have hn := enters_utf8 hs name
    have hd := enters_utf8 hn.sound descriptor
    rw [nameAndType_apply] at hg ⊢
    obtain hknown | hnew := share_holds _ (.pair (spellPair name descriptor)) _
    · -- The slot was there before both texts were asked for.
      have hcarries := hn.added (hd.added hknown (by simp [Entry.rank])) (by simp [Entry.rank])
      obtain ⟨name', descriptor', hspell, hslot⟩ := hs.pair hcarries
      by_cases heq : (name', descriptor') = (name, descriptor)
      · rw [heq] at hslot
        exact hgrows.within.nameAndType hslot
      · exact absurd ⟨_, name', descriptor', hslot, hspell, heq⟩ hno
    · have hlater := ((share_grows _ _ _).trans hg).within
      refine Pool.nameAndType_eq_ok_iff.mpr ⟨_, _, hg.within _ _ hnew, ?_, ?_⟩
      · exact Pool.utf8_eq_ok_iff.mp (hlater.utf8 (hd.sound.utf8 (hn.carries.mono hd.grows)))
      · exact Pool.utf8_eq_ok_iff.mp (hlater.utf8 (hd.sound.utf8 hd.carries))

/-- A request for a class brings no pair along. -/
theorem holdsOtherPair_of_type (hs : a.Sound) {owner name descriptor : String}
    (h : (type owner a).2.pool.HoldsOtherPair name descriptor) : a.pool.HoldsOtherPair name descriptor := by
  have ho := enters_type hs owner
  obtain ⟨slot, name', descriptor', hslot, hspell, hne⟩ := h
  have hcarries := ho.added (ho.sound.carries_pair hslot) (by simp [Entry.rank])
  obtain ⟨name₀, descriptor₀, hspell₀, hslot₀⟩ := hs.pair hcarries
  have hsame := ho.grows.within.nameAndType hslot₀
  rw [hslot] at hsame
  rw [← Except.ok.inj hsame] at hslot₀
  exact ⟨slot, name', descriptor', hslot₀, hspell, hne⟩

/-- A member is answered as it was asked for unless another one of its spelling, or another pair of the spelling of its
pair, was there before. -/
theorem memberRef_answer_iff (hs : a.Sound) (hb : b.Sound) {kind : MemberKind} {owner name descriptor : String}
    (hg : (memberRef kind owner name descriptor a).2.Grows b) :
    b.pool.memberRef (memberRef kind owner name descriptor a).1 [kind] =
        .ok ⟨owner, name, descriptor, kind = .interfaceMethod⟩ ↔
      ¬ (a.pool.HoldsOtherPair name descriptor ∨ a.pool.HoldsOtherMember kind owner name descriptor) := by
  have hm := enters_memberRef hs kind owner name descriptor
  have hgrows := hm.grows.trans hg
  constructor
  · rintro href (hpair | hmember)
    · obtain ⟨_, -, first, second, -, -, hheld, -⟩ := Pool.memberRef_eq_ok_iff.mp href
      exact not_holdsOtherPair hs hb hgrows hheld hpair
    · exact not_holdsOtherMember hs hb hgrows href hmember
  · intro hno
    have ho := enters_type hs owner
    have hp := enters_nameAndType ho.sound name descriptor
    rw [memberRef_apply] at hg ⊢
    obtain hknown | hnew := share_holds _ (.member kind (spellMember owner name descriptor)) _
    · have hcarries := ho.added (hp.added hknown (by simp [Entry.rank])) (by simp [Entry.rank])
      obtain ⟨owner', name', descriptor', hspell, hslot⟩ := hs.member hcarries
      by_cases heq : (owner', name', descriptor') = (owner, name, descriptor)
      · obtain ⟨rfl, rfl, rfl⟩ := by simpa using heq
        exact hgrows.within.memberRef hslot
      · exact absurd (.inr ⟨_, owner', name', descriptor', hslot, hspell, heq⟩) hno
    · have hlater : (nameAndType name descriptor (type owner a).2).2.Grows b := (share_grows _ _ _).trans hg
      have hpair := (nameAndType_answer_iff ho.sound hb hlater).mpr fun h =>
        hno (.inl (holdsOtherPair_of_type hs h))
      refine Pool.memberRef_eq_ok_iff.mpr ⟨kind, by simp, _, _, hg.within _ _ hnew, ?_, hpair, rfl⟩
      exact hlater.within.className (hp.sound.className (ho.carries.mono hp.grows))

end Assembler

namespace Ask

open Assembler

/-- The constant that a request asks for. Integers are cut to 32 bits, and only a handle of a method can be one of an
interface. -/
def constant : Ask → Ask
  | .integer value => .integer (Int32.ofInt value).toInt
  | .handle kind owner name descriptor isInterface =>
    .handle kind owner name descriptor (handleMember kind isInterface = .interfaceMethod)
  | q => q

/-- The numbers of the request can be written. -/
def Proper : Ask → Prop
  | .handle kind _ _ _ _ => 1 ≤ kind ∧ kind ≤ 9
  | .dynamic bootstrap _ _ | .site bootstrap _ _ => IsU2 bootstrap
  | _ => True

/-- The pool holds something else that is spelled like what the request asks for. -/
def Preempted (pool : Pool) : Ask → Prop
  | .nameAndType name descriptor | .dynamic _ name descriptor | .site _ name descriptor =>
    pool.HoldsOtherPair name descriptor
  | .member kind owner name descriptor =>
    pool.HoldsOtherPair name descriptor ∨ pool.HoldsOtherMember kind owner name descriptor
  | .handle kind owner name descriptor isInterface =>
    pool.HoldsOtherPair name descriptor ∨
      pool.HoldsOtherMember (handleMember kind isInterface) owner name descriptor
  | _ => False

/-- No name has a colon and no owner a point. -/
def Plain : Ask → Prop
  | .nameAndType name _ | .dynamic _ name _ | .site _ name _ => ':' ∉ name.toList
  | .member _ owner name _ | .handle _ owner name _ _ => '.' ∉ owner.toList ∧ ':' ∉ name.toList
  | _ => True

end Ask

namespace Assembler

variable {a b : Assembler}

/-- A handle stands for the member in the slot that it refers to. -/
theorem handle_answered_iff {slot reference : Nat} {kind : Int} {owner name descriptor : String} {member : MemberKind}
    (hkind : 1 ≤ kind ∧ kind ≤ 9) (hheld : b.pool.Holds slot (.methodHandle (kind % 256).toNat reference))
    (hm : ∃ owner name descriptor, b.pool.memberRef reference [member] =
      .ok ⟨owner, name, descriptor, member = .interfaceMethod⟩) :
    (Ask.handle kind owner name descriptor (member = .interfaceMethod)).Answered b.pool slot ↔
      b.pool.memberRef reference [member] = .ok ⟨owner, name, descriptor, member = .interfaceMethod⟩ := by
  have hcast : ((kind % 256).toNat : Int) = kind := by omega
  obtain ⟨owner', name', descriptor', href⟩ := hm
  have hhandle := Pool.handle_of_memberRef hheld href
  rw [hcast] at hhandle
  constructor
  · rintro ⟨h, -⟩
    rw [hhandle] at h
    simp only [Except.ok.injEq, Handle.mk.injEq] at h
    simp [href, h]
  · intro h
    rw [href] at h
    simp only [Except.ok.injEq, Pool.MemberRef.mk.injEq] at h
    obtain ⟨rfl, rfl, rfl, -⟩ := h
    exact ⟨hhandle, Pool.loadable_of_outline (Pool.outline_handle hheld hhandle)⟩

/-- What holds of the reference of a constant holds of the one reference that its slot has. -/
theorem exists_holds_iff {pool : Pool} {slot pair : Nat} {c : Nat → Constant} {P : Nat → Prop}
    (hheld : pool.Holds slot (c pair)) (hc : ∀ p, c pair = c p → pair = p) :
    (∃ p, pool.Holds slot (c p) ∧ P p) ↔ P pair := by
  constructor
  · rintro ⟨p, hp, h⟩
    rwa [hc p (hheld.unique hp)]
  · exact fun h => ⟨pair, hheld, h⟩

/-- A request is answered as it was asked unless it was preempted. -/
theorem answered_iff (hs : a.Sound) (hb : b.Sound) {q : Ask} (hq : q.Proper) (hg : (q.run a).2.Grows b) :
    q.constant.Answered b.pool (q.run a).1 ↔ ¬ q.Preempted a.pool := by
  cases q with
  | utf8 text => exact iff_of_true (hb.utf8 ((enters_utf8 hs text).carries.mono hg)) not_false
  | type name =>
    obtain ⟨c, hc, slot, rfl, ht⟩ := hb.holds ((enters_type hs name).carries.mono hg)
    refine iff_of_true ⟨?_, Pool.loadable_of_outline (Pool.outline_type hc ht)⟩ not_false
    exact Pool.className_eq_ok_iff.mpr ⟨slot, hc, Pool.utf8_eq_ok_iff.mp ht⟩
  | string text =>
    obtain ⟨c, hc, slot, rfl, ht⟩ := hb.holds ((enters_string hs text).carries.mono hg)
    exact iff_of_true (Pool.loadable_of_outline (Pool.outline_string hc ht)) not_false
  | integer value =>
    obtain ⟨c, hc, rfl⟩ := hb.holds ((enters_integer hs value).carries.mono hg)
    exact iff_of_true (Pool.loadable_of_outline (Pool.outline_integer hc)) not_false
  | methodType descriptor =>
    obtain ⟨c, hc, slot, rfl, ht⟩ := hb.holds ((enters_methodType hs descriptor).carries.mono hg)
    exact iff_of_true (Pool.loadable_of_outline (Pool.outline_methodType hc ht)) not_false
  | nameAndType name descriptor => exact nameAndType_answer_iff hs hb hg
  | member kind owner name descriptor => exact memberRef_answer_iff hs hb hg
  | handle kind owner name descriptor isInterface =>
    obtain ⟨h, hm⟩ := enters_methodHandle hs kind owner name descriptor isInterface
    obtain ⟨_, hheld, rfl⟩ := hb.holds (h.carries.mono hg)
    obtain ⟨owner', name', descriptor', -, href⟩ := hb.member (hm.mono hg)
    refine (handle_answered_iff hq hheld ⟨owner', name', descriptor', href⟩).trans ?_
    exact memberRef_answer_iff hs hb ((share_grows _ (.handle kind _) _).trans hg)
  | dynamic bootstrap name descriptor =>
    obtain ⟨h, -⟩ := enters_dynamic hs bootstrap name descriptor
    obtain ⟨_, hheld, rfl⟩ := hb.holds (h.carries.mono hg)
    rw [slotOf_eq_toNat hq] at hheld
    refine (exists_holds_iff hheld (by simp)).trans ?_
    exact nameAndType_answer_iff hs hb ((share_grows _ (.dynamic bootstrap _) _).trans hg)
  | site bootstrap name descriptor =>
    obtain ⟨h, -⟩ := enters_invokeDynamicRef hs bootstrap name descriptor
    obtain ⟨_, hheld, rfl⟩ := hb.holds (h.carries.mono hg)
    rw [slotOf_eq_toNat hq] at hheld
    refine (exists_holds_iff hheld (by simp)).trans ?_
    exact nameAndType_answer_iff hs hb ((share_grows _ (.site bootstrap _) _).trans hg)

end Assembler

/-! Wordings that tell constants apart. -/

theorem spellPair_inj {name descriptor name' descriptor' : String} (h : ':' ∉ name.toList) (h' : ':' ∉ name'.toList)
    (hs : spellPair name descriptor = spellPair name' descriptor') : name = name' ∧ descriptor = descriptor' :=
  append_separator_inj rfl h h' hs

theorem spellMember_inj {owner name descriptor owner' name' descriptor' : String}
    (h : '.' ∉ owner.toList ∧ ':' ∉ name.toList) (h' : '.' ∉ owner'.toList ∧ ':' ∉ name'.toList)
    (hs : spellMember owner name descriptor = spellMember owner' name' descriptor') :
    owner = owner' ∧ name = name' ∧ descriptor = descriptor' := by
  obtain ⟨rfl, hpair⟩ := append_separator_inj rfl h.1 h'.1 hs
  exact ⟨rfl, spellPair_inj h.2 h'.2 hpair⟩

namespace Ask

theorem wording_constant (q : Ask) : q.constant.wording = q.wording := by
  cases q with
  | integer value => simp [constant, wording]
  | handle kind owner name descriptor isInterface =>
    have h : Assembler.handleMember kind (Assembler.handleMember kind isInterface = .interfaceMethod) =
        Assembler.handleMember kind isInterface := by
      unfold Assembler.handleMember
      split
      · rfl
      · cases isInterface <;> rfl
    simp [constant, wording, h]
  | _ => rfl

theorem constant_eq_of_wording_eq {q r : Ask} (hq : q.Plain) (hr : r.Plain) (h : q.wording = r.wording) :
    q.constant = r.constant := by
  cases q <;> cases r <;> simp only [wording, Wording.plain.injEq, Wording.handle.injEq, Wording.dynamic.injEq,
    Wording.site.injEq, Entry.utf8.injEq, Entry.type.injEq, Entry.string.injEq, Entry.integer.injEq, Entry.pair.injEq,
    Entry.member.injEq, Entry.methodType.injEq, reduceCtorEq] at h
  case utf8.utf8 | type.type | string.string | methodType.methodType => rw [h]
  case integer.integer => rw [constant, h, constant]
  case nameAndType.nameAndType =>
    obtain ⟨rfl, rfl⟩ := spellPair_inj hq hr h
    rfl
  case member.member =>
    obtain ⟨rfl, hspell⟩ := h
    obtain ⟨rfl, rfl, rfl⟩ := spellMember_inj hq hr hspell
    rfl
  case handle.handle =>
    obtain ⟨rfl, hmember, hspell⟩ := h
    obtain ⟨rfl, rfl, rfl⟩ := spellMember_inj hq hr hspell
    rw [constant, hmember, constant]
  case dynamic.dynamic | site.site =>
    obtain ⟨rfl, hspell⟩ := h
    obtain ⟨rfl, rfl⟩ := spellPair_inj hq hr hspell
    rfl

theorem wording_eq_iff {q r : Ask} (hq : q.Plain) (hr : r.Plain) :
    q.wording = r.wording ↔ q.constant = r.constant :=
  ⟨constant_eq_of_wording_eq hq hr, fun h => by rw [← q.wording_constant, h, r.wording_constant]⟩

end Ask

/-! Whatever calls are made. -/

namespace Assembler

variable {α ι : Type} {a b : Assembler}

theorem Grows.of_constants_eq (h : b.constants = a.constants) : a.Grows b := fun i entry hi => by rwa [h]

theorem Sound.of_constants_eq (hs : a.Sound) (h : b.constants = a.constants) : b.Sound where
  distinct hi hj := by
    rw [h] at hi hj
    exact hs.distinct hi hj
  told hi := by
    rw [h] at hi
    obtain ⟨e, hkey, htells⟩ := hs.told hi
    exact ⟨e, hkey, htells.mono (Grows.of_constants_eq h).within⟩

/-- The step keeps a sound assembly sound and only adds constants. -/
def Preserves (x : Assemble α) : Prop := ∀ a, a.Sound → (x a).2.Sound ∧ a.Grows (x a).2

/-- Steps that only ask keep what every request keeps. -/
theorem OnlyAsks.preserves {x : Assemble α} (h : OnlyAsks x) : Preserves x := by
  intro a hs
  refine h.invariant (P := fun b => b.Sound ∧ a.Grows b) ?_ ?_ a ⟨hs, .refl a⟩
  · rintro q b ⟨hb, hg⟩
    obtain ⟨e, he, -⟩ := enters_ask hb q
    exact ⟨he.sound, hg.trans he.grows⟩
  · rintro b c heq ⟨hb, hg⟩
    exact ⟨hb.of_constants_eq heq, hg.trans (.of_constants_eq heq)⟩

namespace Preserves

theorem call (c : Call) : Preserves c.run := (OnlyAsks.call c).preserves

theorem forM {f : ι → Assemble PUnit} (h : ∀ item, Preserves (f item)) (items : List ι) :
    Preserves (items.forM f) := by
  induction items with
  | nil => exact fun a hs => ⟨hs, .refl a⟩
  | cons item items ih =>
    intro a hs
    obtain ⟨hs', hg⟩ := h item a hs
    obtain ⟨hs'', hg'⟩ := ih (f item a).2 hs'
    exact ⟨hs'', hg.trans hg'⟩

end Preserves

end Assembler

namespace Call

/-- The state that the calls lead to from this one. -/
def runFrom (a : Assembler) (calls : List Call) : Assembler := ((calls.forM Call.run) a).2

theorem sound_runAll (name : String) (calls : List Call) : (runAll name calls).Sound := by
  have hnew : (Assembler.new name).Sound := by constructor <;> intros <;> simp_all [Assembler.new]
  exact (Assembler.Preserves.forM Assembler.Preserves.call calls _ hnew).1

end Call

namespace Ask

/-- After any calls, a request and, after any more calls, a second one are answered with the same slot if and only if
they are worded alike; plain requests are worded alike if and only if they ask for the same constant. The slot of the
first one holds the constant it asks for if and only if the pool held nothing else of its spelling before. -/
theorem slots_of_requests (name : String) (calls more : List Call) (q r : Ask) (hq : q.Proper) :
    let a := Call.runAll name calls
    let first := q.run a
    let later := Call.runFrom first.2 more
    let second := r.run later
    (first.1 = second.1 ↔ q.wording = r.wording) ∧
      (q.Plain → r.Plain → (q.wording = r.wording ↔ q.constant = r.constant)) ∧
      (q.constant.Answered later.pool first.1 ↔ ¬ q.Preempted a.pool) := by
  intro a first later second
  have hs : a.Sound := Call.sound_runAll name calls
  obtain ⟨e, he, hreads⟩ := Assembler.enters_ask hs q
  obtain ⟨hlater, hgrows⟩ := Assembler.Preserves.forM Assembler.Preserves.call more first.2 he.sound
  obtain ⟨e', he', hreads'⟩ := Assembler.enters_ask hlater r
  refine ⟨?_, wording_eq_iff, Assembler.answered_iff hs hlater hq hgrows⟩
  -- Both slots are compared in the last state, where each still belongs to its entry.
  have hto := hgrows.trans he'.grows
  have hcarries : second.2.Carries first.1 e := he.carries.mono hto
  rw [← (hreads.mono hto).eq_iff he'.sound hreads']
  constructor
  · intro hslot
    exact (hslot ▸ hcarries).unique he'.carries
  · rintro rfl
    exact he'.sound.slot_eq hcarries he'.carries

/-- The pair `a:b`, `c` is answered with itself in a new assembly; a handle of `B.a`, `b:c` after it is not. Handles of
`B.f` and `B.g` get slots of their own. -/
theorem requests_after_colon :
    let pair := nameAndType "a:b" "c"
    let other := handle 6 "B" "a" "b:c" false
    let first := pair.run (Call.runAll "A" [])
    let second := other.run (Call.runAll "A" [.ask pair])
    let f := handle 6 "B" "f" "()V" false
    let g := handle 6 "B" "g" "()V" false
    let third := f.run (Call.runAll "A" [.ask pair])
    let fourth := g.run (Call.runFrom third.2 [])
    (pair.Proper ∧ pair.Answered first.2.pool first.1) ∧ (other.Proper ∧ ¬ other.Answered second.2.pool second.1) ∧
      (f.Proper ∧ f.Plain ∧ g.Plain ∧ third.1 ≠ fourth.1) := by
  intro pair other first second f g third fourth
  have hkind : other.Proper := ⟨by decide, by decide⟩
  have hf : f.Proper := ⟨by decide, by decide⟩
  have hplain : f.Plain ∧ g.Plain := ⟨⟨by decide, by decide⟩, ⟨by decide, by decide⟩⟩
  refine ⟨⟨trivial, ?_⟩, ⟨hkind, ?_⟩, ⟨hf, hplain.1, hplain.2, ?_⟩⟩
  · have hnone : ¬ pair.Preempted (Call.runAll "A" []).pool := by
      rintro ⟨slot, name, descriptor, hslot, -⟩
      obtain ⟨first, second, hheld, -⟩ := Pool.nameAndType_eq_ok_iff.mp hslot
      obtain ⟨i, key, -, hi⟩ := Assembler.pool_holds_iff.mp hheld
      cases hi
    exact (slots_of_requests "A" [] [] pair (utf8 "") trivial).2.2.mpr hnone
  · have hother : other.Preempted (Call.runAll "A" [.ask pair]).pool :=
      .inl ⟨3, "a:b", "c", by decide +kernel, by decide, by decide⟩
    intro h
    exact (slots_of_requests "A" [.ask pair] [] other (utf8 "") hkind).2.2.mp h hother
  · obtain ⟨hslot, hsame, -⟩ := slots_of_requests "A" [.ask pair] [] f g hf
    intro h
    have hconstant := (hsame hplain.1 hplain.2).mp (hslot.mp h)
    simp [f, g, constant] at hconstant

/-- Requests for different constants can get the same slot. -/
theorem slots_not_by_constant :
    ¬ ∀ (name : String) (calls more : List Call) (q r : Ask), q.Proper → r.Proper →
      let first := q.run (Call.runAll name calls)
      let second := r.run (Call.runFrom first.2 more)
      second.2.constants.size + 1 < 65536 →
        (first.1 = second.1 ↔ q.constant = r.constant) ∧ r.constant.Answered second.2.pool second.1 := by
  intro h
  obtain ⟨hslot, -⟩ := h "A" [] [] (nameAndType "a:b" "c") (nameAndType "a" "b:c") trivial trivial (by decide +kernel)
  have hpairs := hslot.mp (by decide +kernel)
  simp [constant] at hpairs

end Ask

end Linkage
