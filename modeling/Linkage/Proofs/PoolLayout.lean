import Mathlib
import Linkage.Proofs.Pool
import Linkage.Proofs.PoolReading

/-!
Constant pools as they stand in a class file. The constants follow their count one after the other, and each is found
in the slot after those of the constants before it. The other slots, of which the first is one and each eight-byte
constant leaves one, answer to no kind of constant, and neither does any number from the count on.
-/
namespace Linkage

namespace Constant

/-- The bytes of a constant: its tag, and then its parts. A text has any bytes that decode to it. -/
inductive Laid : Constant → Bytes → Prop
  | utf8 {raw : Bytes} {text : String} (hlength : raw.length < 65536) (htext : ModifiedUtf8.decode raw = .ok text) :
    Laid (.utf8 text) (u1Bytes 1 ++ (u2Bytes raw.length ++ raw))
  | integer (bits : UInt32) : Laid (.integer bits) (u1Bytes 3 ++ u4Bytes bits.toNat)
  | float (bits : UInt32) : Laid (.float bits) (u1Bytes 4 ++ u4Bytes bits.toNat)
  | long (bits : UInt64) : Laid (.long bits) (u1Bytes 5 ++ Bytes.ofNat 8 bits.toNat)
  | double (bits : UInt64) : Laid (.double bits) (u1Bytes 6 ++ Bytes.ofNat 8 bits.toNat)
  | type {name : Nat} (h : name < 65536) : Laid (.type name) (u1Bytes 7 ++ u2Bytes name)
  | string {text : Nat} (h : text < 65536) : Laid (.string text) (u1Bytes 8 ++ u2Bytes text)
  | field {owner described : Nat} (h : owner < 65536 ∧ described < 65536) :
    Laid (.member .field owner described) (u1Bytes 9 ++ (u2Bytes owner ++ u2Bytes described))
  | method {owner described : Nat} (h : owner < 65536 ∧ described < 65536) :
    Laid (.member .method owner described) (u1Bytes 10 ++ (u2Bytes owner ++ u2Bytes described))
  | interfaceMethod {owner described : Nat} (h : owner < 65536 ∧ described < 65536) :
    Laid (.member .interfaceMethod owner described) (u1Bytes 11 ++ (u2Bytes owner ++ u2Bytes described))
  | nameAndType {name descriptor : Nat} (h : name < 65536 ∧ descriptor < 65536) :
    Laid (.nameAndType name descriptor) (u1Bytes 12 ++ (u2Bytes name ++ u2Bytes descriptor))
  | methodHandle {kind reference : Nat} (h : kind < 256 ∧ reference < 65536) :
    Laid (.methodHandle kind reference) (u1Bytes 15 ++ (u1Bytes kind ++ u2Bytes reference))
  | methodType {descriptor : Nat} (h : descriptor < 65536) :
    Laid (.methodType descriptor) (u1Bytes 16 ++ u2Bytes descriptor)
  | dynamic {bootstrap described : Nat} (h : bootstrap < 65536 ∧ described < 65536) :
    Laid (.dynamic bootstrap described) (u1Bytes 17 ++ (u2Bytes bootstrap ++ u2Bytes described))
  | invokeDynamic {bootstrap described : Nat} (h : bootstrap < 65536 ∧ described < 65536) :
    Laid (.invokeDynamic bootstrap described) (u1Bytes 18 ++ (u2Bytes bootstrap ++ u2Bytes described))
  | module {name : Nat} (h : name < 65536) : Laid (.module name) (u1Bytes 19 ++ u2Bytes name)
  | package {name : Nat} (h : name < 65536) : Laid (.package name) (u1Bytes 20 ++ u2Bytes name)

theorem Laid.exists_encode {c : Constant} {bs : Bytes} (h : Laid c bs) :
    ∃ text, c.FitsAs text ∧ bs = c.encode text := by
  cases h with
  | @utf8 raw text hlength htext => exact ⟨fun _ => raw, ⟨hlength, htext⟩, rfl⟩
  | integer bits | float bits | long bits | double bits => exact ⟨utf8Bytes, trivial, rfl⟩
  | type h | string h | field h | method h | interfaceMethod h | nameAndType h | methodHandle h | methodType h
  | dynamic h | invokeDynamic h | module h | package h => exact ⟨utf8Bytes, h, rfl⟩

theorem Laid.reads {c : Constant} {bs : Bytes} (h : Laid c bs) (entry : Nat) : Scan.Reads (read entry) bs c := by
  obtain ⟨text, hfits, rfl⟩ := h.exists_encode
  exact reads_read hfits entry

/-- The number of slots that a constant takes. -/
def width : Constant → Nat
  | .long _ | .double _ => 2
  | _ => 1

theorem length_slots (c : Constant) : c.slots.length = c.width := by
  cases c <;> rfl

theorem slots_of_width {c : Constant} (h : c.width = 2) : c.slots = [some c, none] := by
  cases c <;> first | rfl | cases h

theorem exists_slots (c : Constant) : ∃ rest, c.slots = some c :: rest := by
  cases c <;> exact ⟨_, rfl⟩

/-- The slot that follows those of the constants, where slot 0 is left empty. -/
def nextSlot (cs : List Constant) : Nat := 1 + (cs.map width).sum

theorem length_flatMap_slots (cs : List Constant) : (cs.flatMap slots).length + 1 = nextSlot cs := by
  rw [List.length_flatMap, List.map_congr_left fun c _ => length_slots c, nextSlot, Nat.add_comm]

theorem nextSlot_concat (cs : List Constant) (c : Constant) : nextSlot (cs ++ [c]) = nextSlot cs + c.width := by
  simp [nextSlot, Nat.add_assoc]

/-- A slot in use is the first or the second one of some constant. -/
theorem exists_of_lt_nextSlot {cs : List Constant} {index : Nat} (hpos : index ≠ 0) (hlt : index < nextSlot cs) :
    ∃ before c after, cs = before ++ c :: after ∧
      (index = nextSlot before ∨ c.width = 2 ∧ index = nextSlot before + 1) := by
  induction cs using List.reverseRecOn with
  | nil =>
    rw [nextSlot, List.map_nil, List.sum_nil] at hlt
    omega
  | append_singleton cs c ih =>
    by_cases hold : index < nextSlot cs
    · obtain ⟨before, d, after, rfl, hindex⟩ := ih hold
      exact ⟨before, d, after ++ [c], by simp, hindex⟩
    · refine ⟨cs, c, [], rfl, ?_⟩
      rw [nextSlot_concat] at hlt
      have hwidth : c.width = 1 ∨ c.width = 2 := by cases c <;> simp [width]
      omega

end Constant

namespace Pool

open Constant

/-- A slot answers for this constant: what is asked for is taken from it, or its tag is named. -/
def Answers (pool : Pool) (index : Nat) (c : Constant) : Prop :=
  ∀ (α : Type) (expected : List Tag) (select : Constant → Option α),
    pool.expect index expected select = (select c).elim (.error (.mistyped index c.tag.code expected)) .ok

/-- Whatever kinds of constant are asked for in a slot, there is this fault. -/
def Rejects (pool : Pool) (index : Nat) (fault : List Tag → PoolFault) : Prop :=
  ∀ (α : Type) (expected : List Tag) (select : Constant → Option α),
    pool.expect index expected select = .error (fault expected)

variable {pool : Pool} {index : Nat}

theorem Holds.answers {c : Constant} (h : pool.Holds index c) : pool.Answers index c := by
  intro α expected select
  simp only [expect, if_neg h.1, h.2]
  cases select c <;> rfl

theorem Answers.not_rejects {c : Constant} (h : pool.Answers index c) (fault : List Tag → PoolFault) :
    ¬ pool.Rejects index fault := by
  intro hrejects
  have hok := h Constant [] some
  rw [hrejects] at hok
  cases hok

theorem rejects_zero (pool : Pool) : pool.Rejects 0 fun _ => .outOfRange 0 := by
  intro α expected select
  rw [expect, if_pos rfl]

theorem rejects_of_size_le (h : pool.slots.size ≤ index) : pool.Rejects index fun _ => .outOfRange index := by
  intro α expected select
  rw [expect, Array.getElem?_eq_none h]
  split <;> rfl

theorem rejects_of_empty (hpos : index ≠ 0) (h : pool.slots[index]? = some none) :
    pool.Rejects index fun expected => .mistyped index 0 expected := by
  intro α expected select
  rw [expect, if_neg hpos, h]

theorem size_ofConstants (cs : List Constant) : (ofConstants cs).slots.size = nextSlot cs := by
  rw [ofConstants, List.size_toArray, List.length_cons, length_flatMap_slots]

/-- From the next free slot on stands what the constants that follow put there. -/
theorem getElem?_ofConstants (before after : List Constant) (offset : Nat) :
    (ofConstants (before ++ after)).slots[nextSlot before + offset]? =
      (after.flatMap Constant.slots)[offset]? := by
  rw [ofConstants, List.flatMap_append, ← List.cons_append, List.getElem?_toArray, ← length_flatMap_slots before,
    ← List.length_cons, List.getElem?_append_right (Nat.le_add_right _ _), Nat.add_sub_cancel_left]

theorem answers_ofConstants (before : List Constant) (c : Constant) (after : List Constant) :
    (ofConstants (before ++ c :: after)).Answers (nextSlot before) c := by
  refine Holds.answers ⟨by rw [nextSlot]; omega, ?_⟩
  obtain ⟨rest, hslots⟩ := c.exists_slots
  have h := getElem?_ofConstants before (c :: after) 0
  rwa [List.flatMap_cons, hslots] at h

theorem rejects_ofConstants (before : List Constant) {c : Constant} (after : List Constant) (h : c.width = 2) :
    (ofConstants (before ++ c :: after)).Rejects (nextSlot before + 1)
      fun expected => .mistyped (nextSlot before + 1) 0 expected := by
  refine rejects_of_empty (Nat.succ_ne_zero _) ?_
  rw [getElem?_ofConstants, List.flatMap_cons, slots_of_width h]
  rfl

/-- A pool is read from its layout to the last byte. Its constants are found in turn, each in its first slot, and no
other number leads to a constant. -/
theorem reads_laid {cs : List Constant} {parts : List Bytes} (hparts : List.Forall₂ Laid cs parts)
    (hcount : nextSlot cs ≤ 65535) :
    ∃ pool, Scan.Reads Pool.read (u2Bytes (nextSlot cs) ++ parts.flatten) pool ∧
      (∀ before c after, cs = before ++ c :: after → pool.Answers (nextSlot before) c) ∧
      pool.Rejects 0 (fun _ => .outOfRange 0) ∧
      (∀ before c after, cs = before ++ c :: after → c.width = 2 →
        pool.Rejects (nextSlot before + 1) fun expected => .mistyped (nextSlot before + 1) 0 expected) ∧
      (∀ index, nextSlot cs ≤ index → pool.Rejects index fun _ => .outOfRange index) ∧
      ∀ index fault, pool.Rejects index fault →
        index = 0 ∨ nextSlot cs ≤ index ∨
          ∃ before c after, cs = before ++ c :: after ∧ c.width = 2 ∧ index = nextSlot before + 1 := by
  refine ⟨ofConstants cs, ?_, ?_, rejects_zero _, ?_, ?_, ?_⟩
  · rw [← length_flatMap_slots] at hcount ⊢
    exact Pool.reads_slots (by omega) (hparts.imp fun _ _ => Laid.reads)
  · rintro before c after rfl
    exact answers_ofConstants before c after
  · rintro before c after rfl hwide
    exact rejects_ofConstants before after hwide
  · intro index hindex
    exact rejects_of_size_le (Nat.le_trans (Nat.le_of_eq (size_ofConstants cs)) hindex)
  · intro index fault hrejects
    by_cases hpos : index = 0
    · exact .inl hpos
    · by_cases hlt : index < nextSlot cs
      · obtain ⟨before, c, after, rfl, rfl | ⟨hwide, hindex⟩⟩ := exists_of_lt_nextSlot hpos hlt
        · exact absurd hrejects ((answers_ofConstants before c after).not_rejects fault)
        · exact .inr (.inr ⟨before, c, after, rfl, hwide, hindex⟩)
      · exact .inr (.inl (Nat.le_of_not_lt hlt))

/-- A long in the middle and a double in the last slot, with a text whose zero takes two bytes. -/
theorem reads_laid_wide :
    let cs : List Constant := [.utf8 "a\x00", .long 1, .type 1, .double 0x7ff8000000000000]
    let parts : List Bytes :=
      [[1, 0, 3, 0x61, 0xc0, 0x80], [5, 0, 0, 0, 0, 0, 0, 0, 1], [7, 0, 1], [6, 0x7f, 0xf8, 0, 0, 0, 0, 0, 0]]
    List.Forall₂ Laid cs parts ∧ nextSlot cs = 7 ∧
      ∃ pool, Scan.Reads Pool.read (u2Bytes 7 ++ parts.flatten) pool ∧ pool.Answers 4 (.type 1) ∧
        pool.Rejects 3 (fun expected => .mistyped 3 0 expected) ∧
        pool.Rejects 6 (fun expected => .mistyped 6 0 expected) ∧ pool.Rejects 7 fun _ => .outOfRange 7 := by
  intro cs parts
  have hparts : List.Forall₂ Laid cs parts :=
    .cons (@Laid.utf8 [0x61, 0xc0, 0x80] _ (by decide) (by decide +kernel)) <|
      .cons (.long 1) <| .cons (.type (by decide)) <| .cons (.double _) .nil
  obtain ⟨pool, hreads, hanswers, -, hwide, hend, -⟩ := reads_laid hparts (by decide)
  exact ⟨hparts, rfl, pool, hreads, hanswers [_, _] _ [_] rfl, hwide [_] _ [_, _] rfl rfl,
    hwide [_, _, _] _ [] rfl rfl, hend 7 (by decide)⟩

end Pool

end Linkage
