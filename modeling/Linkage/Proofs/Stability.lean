import Linkage.Proofs.Conflation

/-!
The pool of an assembly over time. Constants are only added, each behind those that it refers to. What asks for constants
and has been done once finds them all when it is done again: it gives the same answer and adds nothing. So a class file
that is written twice is the same both times.
-/
namespace Linkage

/-- The slots that a constant refers to. -/
def Constant.references : Constant → List Nat
  | .utf8 _ | .integer _ | .float _ | .long _ | .double _ => []
  | .type slot | .string slot | .methodHandle _ slot | .methodType slot | .dynamic _ slot | .invokeDynamic _ slot
  | .module slot | .package slot => [slot]
  | .member _ first second | .nameAndType first second => [first, second]

namespace Assembler

variable {α β : Type} {a b : Assembler}

/-! Doing it again. -/

/-- The step changes nothing but that it adds constants. Once it is done, doing it again at any later time gives the same
answer and changes nothing at all. -/
structure Repeats (x : Assemble α) : Prop where
  frame (a : Assembler) : (x a).2 = { a with constants := (x a).2.constants }
  grows (a : Assembler) : a.Grows (x a).2
  again (a b : Assembler) : (x a).2.Grows b → x b = ((x a).1, b)

/-- The first place of a key stays the first one. -/
theorem findIdx?_of_grows {i : Nat} {key : String} (h : a.constants.findIdx? (·.1 == key) = some i)
    (hg : a.Grows b) : b.constants.findIdx? (·.1 == key) = some i := by
  obtain ⟨hlt, hkey, hbefore⟩ := Array.findIdx?_eq_some_iff_getElem.mp h
  have hsame (j : Nat) (hj : j < a.constants.size) : b.constants[j]? = some a.constants[j] :=
    hg j _ (Array.getElem?_eq_getElem hj)
  refine Array.findIdx?_eq_some_iff_getElem.mpr ?_
  obtain ⟨hlt', heq⟩ := Array.getElem?_eq_some_iff.mp (hsame i hlt)
  refine ⟨hlt', by rw [heq]; exact hkey, fun j hj => ?_⟩
  obtain ⟨hjlt, hjeq⟩ := Array.getElem?_eq_some_iff.mp (hsame j (Nat.lt_trans hj hlt))
  rw [hjeq]
  exact hbefore j hj

/-- A key that has been asked for is found where the answer said. -/
theorem findIdx?_share (key : String) (c : Constant) (a : Assembler) :
    ∃ i, (share key c a).1 = i + 1 ∧ (share key c a).2.constants.findIdx? (·.1 == key) = some i := by
  rw [share_apply]
  cases hfind : a.constants.findIdx? (·.1 == key) with
  | some i => exact ⟨i, rfl, hfind⟩
  | none => exact ⟨a.constants.size, rfl, by rw [Array.findIdx?_push, hfind]; simp⟩

namespace Repeats

theorem pure (r : α) : Repeats (Pure.pure r) := ⟨fun _ => rfl, .refl, fun _ _ _ => rfl⟩

theorem bind {x : Assemble α} {f : α → Assemble β} (hx : Repeats x) (hf : ∀ r, Repeats (f r)) :
    Repeats (x >>= f) where
  frame a := by
    change (f (x a).1 (x a).2).2 = { a with constants := (f (x a).1 (x a).2).2.constants }
    rw [(hf (x a).1).frame (x a).2, hx.frame a]
  grows a := (hx.grows a).trans ((hf (x a).1).grows (x a).2)
  again a b h := by
    have hb : (x a).2.Grows b := ((hf (x a).1).grows (x a).2).trans h
    change f (x b).1 (x b).2 = _
    rw [hx.again a b hb]
    exact (hf (x a).1).again (x a).2 b h

theorem share (key : String) (c : Constant) : Repeats (Assembler.share key c) where
  frame a := by
    rw [share_apply]
    cases a.constants.findIdx? (·.1 == key) <;> rfl
  grows a := by
    rw [share_apply]
    cases a.constants.findIdx? (·.1 == key) with
    | some i => exact .refl a
    | none => exact grows_push a (key, c)
  again a b h := by
    obtain ⟨i, hslot, hfind⟩ := findIdx?_share key c a
    rw [hslot, share_apply, findIdx?_of_grows hfind h]

theorem type (name : String) : Repeats (Assembler.type name) := (share _ _).bind fun _ => share _ _

theorem nameAndType (name descriptor : String) : Repeats (Assembler.nameAndType name descriptor) :=
  (share _ _).bind fun _ => (share _ _).bind fun _ => share _ _

theorem memberRef (kind : MemberKind) (owner name descriptor : String) :
    Repeats (Assembler.memberRef kind owner name descriptor) :=
  (type owner).bind fun _ => (nameAndType name descriptor).bind fun _ => share _ _

theorem ask (q : Ask) : Repeats q.run := by
  cases q with
  | utf8 | integer => exact share _ _
  | type name => exact type name
  | string | methodType => exact (share _ _).bind fun _ => share _ _
  | nameAndType name descriptor => exact nameAndType name descriptor
  | member kind owner name descriptor => exact memberRef kind owner name descriptor
  | handle kind owner name descriptor isInterface => exact (memberRef _ owner name descriptor).bind fun _ => share _ _
  | dynamic bootstrap name descriptor => exact (nameAndType name descriptor).bind fun _ => share _ _
  | site bootstrap name descriptor => exact (nameAndType name descriptor).bind fun _ => share _ _

end Repeats

theorem Inquires.repeats {x : Assemble α} (h : Inquires x) : Repeats x := by
  induction h with
  | pure r => exact .pure r
  | ask q => exact .ask q
  | bind _ _ ihx ihf => exact ihx.bind ihf

/-! The written class file. -/

/-- The entries of the pool as they are written, from slot 1 on. -/
def entries (a : Assembler) : List Bytes := a.constants.toList.map fun entry => entry.2.encode utf8Bytes

/-- The entry in a slot. -/
def entryAt (a : Assembler) : Nat → Option Bytes
  | 0 => none
  | i + 1 => a.entries[i]?

theorem entryAt_eq_some_iff {slot : Nat} {bs : Bytes} :
    a.entryAt slot = some bs ↔ ∃ c, a.pool.Holds slot c ∧ c.encode utf8Bytes = bs := by
  cases slot with
  | zero => simp [entryAt, Pool.Holds]
  | succ i =>
    simp only [entryAt, entries, List.getElem?_map, Array.getElem?_toList, Option.map_eq_some_iff, pool_holds_iff]
    constructor
    · rintro ⟨⟨key, c⟩, hc, rfl⟩
      exact ⟨c, ⟨i, key, rfl, hc⟩, rfl⟩
    · rintro ⟨c, ⟨_, key, heq, hc⟩, rfl⟩
      cases heq
      exact ⟨(key, c), hc, rfl⟩

theorem Grows.entryAt {slot : Nat} {bs : Bytes} (hg : a.Grows b) (h : a.entryAt slot = some bs) :
    b.entryAt slot = some bs := by
  obtain ⟨c, hc, hbs⟩ := entryAt_eq_some_iff.mp h
  exact entryAt_eq_some_iff.mpr ⟨c, hg.within _ _ hc, hbs⟩

/-- The file has the pool as it is when the rest of the file has been written. -/
theorem encode_eq (a : Assembler) :
    encode a = (u4Bytes 0xCAFEBABE ++ u2Bytes 0 ++ u2Bytes 52 ++ u2Bytes ((bodyOf a a).2.entries.length + 1) ++
      (bodyOf a a).2.entries.flatten ++ (bodyOf a a).1, (bodyOf a a).2) := by
  have hlength : (bodyOf a a).2.entries.length = (bodyOf a a).2.constants.size := by simp [entries]
  have hflatten : (bodyOf a a).2.entries.flatten =
      (bodyOf a a).2.constants.toList.flatMap fun entry => entry.2.encode utf8Bytes := by
    rw [entries, List.flatMap_def]
  rw [hlength, hflatten]
  rfl

theorem bodyOf_congr (a : Assembler) (constants : Array (String × Constant)) :
    bodyOf { a with constants } = bodyOf a := rfl

/-- Written once more, the class file is the same and the assembly stays as it is. -/
theorem encode_again (a : Assembler) : encode (encode a).2 = encode a := by
  have hrepeats := (Inquires.bodyOf a).repeats
  have hstate : (encode a).2 = (bodyOf a a).2 := by rw [encode_eq]
  have hbody : bodyOf (bodyOf a a).2 (bodyOf a a).2 = bodyOf a a := by
    have hdeclared : bodyOf (bodyOf a a).2 = bodyOf a := by rw [hrepeats.frame a, bodyOf_congr]
    rw [hdeclared]
    exact hrepeats.again a _ (.refl _)
  rw [hstate, encode_eq, encode_eq, hbody]

/-! References. -/

/-- Each constant refers to slots before its own. -/
def Backward (a : Assembler) : Prop :=
  ∀ slot c, a.pool.Holds slot c → ∀ r ∈ c.references, 0 < r ∧ r < slot

/-- There is a constant in the slot. -/
def Has (a : Assembler) (slot : Nat) : Prop := 0 < slot ∧ slot ≤ a.constants.size

theorem Has.mono {slot : Nat} (h : a.Has slot) (hg : a.Grows b) : b.Has slot := by
  refine ⟨h.1, ?_⟩
  have hlt : slot - 1 < a.constants.size := by
    have := h.1
    have := h.2
    omega
  have hlater := (Array.getElem?_eq_some_iff.mp (hg _ _ (Array.getElem?_eq_getElem hlt))).1
  omega

/-- From the state `a` on, the step answers with a slot that has a constant, and references stay backward. -/
structure Backs (a : Assembler) (x : Assemble Nat) : Prop where
  backward : (x a).2.Backward
  has : (x a).2.Has (x a).1

theorem Backs.bind {x : Assemble Nat} {f : Nat → Assemble Nat} (hf : Backs (x a).2 (f (x a).1)) : Backs a (x >>= f) :=
  ⟨hf.backward, hf.has⟩

theorem backs_share {key : String} {c : Constant} (ha : a.Backward) (hc : ∀ r ∈ c.references, a.Has r) :
    Backs a (share key c) := by
  constructor
  · rw [share_apply]
    cases a.constants.findIdx? (·.1 == key) with
    | some i => exact ha
    | none =>
      intro slot d hd r hr
      obtain ⟨i, known, rfl, hi⟩ := pool_holds_iff.mp hd
      obtain hi | ⟨rfl, heq⟩ := getElem?_push_cases hi
      · exact ha _ d (pool_holds_iff.mpr ⟨i, known, rfl, hi⟩) r hr
      · obtain rfl : d = c := (Prod.mk.inj heq).2
        exact ⟨(hc r hr).1, Nat.lt_succ_of_le (hc r hr).2⟩
  · obtain ⟨i, hslot, hfind⟩ := findIdx?_share key c a
    rw [hslot]
    exact ⟨Nat.succ_pos i, (Array.findIdx?_eq_some_iff_getElem.mp hfind).1⟩

theorem backs_utf8 (ha : a.Backward) (text : String) : Backs a (utf8 text) :=
  backs_share ha (by simp [Constant.references])

/-- A constant that refers to the slot before it. -/
theorem backs_reference {x : Assemble Nat} {key : Nat → String} {c : Nat → Constant} (h : Backs a x)
    (hc : ∀ slot, (c slot).references = [slot]) : Backs a (x >>= fun slot => share (key slot) (c slot)) :=
  .bind (backs_share h.backward (by simpa [hc] using h.has))

theorem backs_nameAndType (ha : a.Backward) (name descriptor : String) : Backs a (nameAndType name descriptor) := by
  have hn := backs_utf8 ha name
  have hd := backs_utf8 hn.backward descriptor
  have hfirst := hn.has.mono ((Repeats.ask (.utf8 descriptor)).grows _)
  exact .bind (.bind (backs_share hd.backward (by simpa [Constant.references] using ⟨hfirst, hd.has⟩)))

theorem backs_memberRef (ha : a.Backward) (kind : MemberKind) (owner name descriptor : String) :
    Backs a (memberRef kind owner name descriptor) := by
  have ho : Backs a (type owner) := backs_reference (backs_utf8 ha owner) fun _ => rfl
  have hp := backs_nameAndType ho.backward name descriptor
  have hfirst := ho.has.mono ((Repeats.nameAndType name descriptor).grows _)
  exact .bind (.bind (backs_share hp.backward (by simpa [Constant.references] using ⟨hfirst, hp.has⟩)))

theorem backs_ask (ha : a.Backward) (q : Ask) : Backs a q.run := by
  cases q with
  | utf8 text => exact backs_utf8 ha text
  | integer value => exact backs_share ha (by simp [Constant.references])
  | type text | string text | methodType text => exact backs_reference (backs_utf8 ha text) fun _ => rfl
  | nameAndType name descriptor => exact backs_nameAndType ha name descriptor
  | member kind owner name descriptor => exact backs_memberRef ha kind owner name descriptor
  | handle kind owner name descriptor isInterface =>
    exact backs_reference (backs_memberRef ha _ owner name descriptor) fun _ => rfl
  | dynamic bootstrap name descriptor => exact backs_reference (backs_nameAndType ha name descriptor) fun _ => rfl
  | site bootstrap name descriptor => exact backs_reference (backs_nameAndType ha name descriptor) fun _ => rfl

theorem Backward.of_constants_eq (ha : a.Backward) (h : b.constants = a.constants) : b.Backward :=
  fun slot c hc => ha slot c ((Grows.of_constants_eq h.symm).within slot c hc)

end Assembler

/-! Steps. -/

/-- A step of an assembly: a call, or bytes for the code of a method as they are. -/
inductive Step where
  | call (c : Call)
  | raw (m : Nat) (bytes : Bytes)

namespace Step

open Assembler

def run : Step → Assemble Unit
  | .call c => c.run
  | .raw m bytes => Assembler.raw m bytes

/-- The state that the steps lead to from this one. -/
def runFrom (a : Assembler) (steps : List Step) : Assembler := steps.foldl (fun a step => (step.run a).2) a

theorem onlyAsks (s : Step) : OnlyAsks s.run := by
  cases s with
  | call c => exact .call c
  | raw m bytes => exact .quiet fun _ => rfl

theorem runFrom_sound_and_grows {a : Assembler} (hs : a.Sound) (steps : List Step) :
    (runFrom a steps).Sound ∧ a.Grows (runFrom a steps) := by
  induction steps generalizing a with
  | nil => exact ⟨hs, .refl a⟩
  | cons step steps ih =>
    obtain ⟨hs', hg⟩ := step.onlyAsks.preserves a hs
    obtain ⟨hs'', hg'⟩ := ih hs'
    exact ⟨hs'', hg.trans hg'⟩

theorem runFrom_backward {a : Assembler} (ha : a.Backward) (steps : List Step) : (runFrom a steps).Backward := by
  induction steps generalizing a with
  | nil => exact ha
  | cons step steps ih =>
    refine ih (step.onlyAsks.invariant ?_ ?_ a ha)
    · exact fun q b hb => (backs_ask hb q).backward
    · exact fun b c heq hb => hb.of_constants_eq heq

end Step

end Linkage
