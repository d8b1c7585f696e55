import Linkage.Proofs.InstructionGrammar

/-!
Code as a row of instructions. Code is tiled by the encodings of its instructions, which follow each other without a gap
from the first byte to the last. Decoding accepts exactly the code that can be tiled and gives the instructions of the
tiling. Code that is cut at the start of an instruction loses just what follows there, and code that is cut anywhere
else is refused as truncated.
-/
namespace Linkage

namespace Instruction

/-- The bytes are encodings of the instructions without a gap, the first of which stands at the offset. -/
inductive Tiled : Nat → Bytes → List Instruction → Prop
  | nil {offset : Nat} : Tiled offset [] []
  | cons {i : Instruction} {bs rest : Bytes} {is : List Instruction} : i.Encoded bs →
    Tiled (i.offset + bs.length) rest is → Tiled i.offset (bs ++ rest) (i :: is)

variable {pos fuel n : Nat} {code : Bytes} {is : List Instruction}

theorem readAll_nil (fuel pos : Nat) : readAll fuel ⟨pos, [], none⟩ = .ok [] := by
  cases fuel <;> rfl

theorem readAll_of_ne_nil (hcode : code ≠ []) :
    readAll (fuel + 1) ⟨pos, code, none⟩ = (do
      let (i, c) ← readAt pos ⟨pos, code, none⟩
      return i :: (← readAll fuel c)) := by
  have hempty : (Cursor.mk pos code none).rest.isEmpty = false := by simpa using hcode
  rw [readAll, hempty]
  rfl

/-- One turn at an encoding. -/
theorem readAll_encoded {i : Instruction} {bs : Bytes} (h : i.Encoded bs) (rest : Bytes) :
    readAll (fuel + 1) ⟨i.offset, bs ++ rest, none⟩ =
      (do return i :: (← readAll fuel ⟨i.offset + bs.length, rest, none⟩)) := by
  have hne : bs ++ rest ≠ [] := List.append_ne_nil_of_left_ne_nil (List.ne_nil_of_length_pos h.length_pos) rest
  rw [readAll_of_ne_nil hne, ((accepts_readAt i.offset).takes bs i ⟨rfl, h⟩).reads]
  rfl

theorem readAll_of_tiled (h : Tiled pos code is) (hfuel : code.length ≤ fuel) :
    readAll fuel ⟨pos, code, none⟩ = .ok is := by
  induction h generalizing fuel with
  | nil => exact readAll_nil _ _
  | @cons i bs rest is hi _ ih =>
    have hpos := hi.length_pos
    rw [List.length_append] at hfuel
    obtain ⟨fuel, rfl⟩ := Nat.exists_eq_succ_of_ne_zero (show fuel ≠ 0 by omega)
    rw [readAll_encoded hi, ih (by omega)]
    rfl

theorem tiled_of_readAll (h : readAll fuel ⟨pos, code, none⟩ = .ok is) (hfuel : code.length ≤ fuel) :
    Tiled pos code is := by
  -- on the fuel: an encoding has a byte at least, so that what is left of the fuel covers the rest
  induction fuel generalizing pos code is with
  | zero =>
    obtain rfl := List.eq_nil_of_length_eq_zero (Nat.le_zero.mp hfuel)
    cases h
    exact .nil
  | succ fuel ih =>
    by_cases hcode : code = []
    · subst hcode
      cases h
      exact .nil
    · rw [readAll_of_ne_nil hcode] at h
      obtain ⟨⟨i, c⟩, hread, hrest⟩ := bind_eq_ok_iff.mp h
      obtain ⟨is, his, hcons⟩ := bind_eq_ok_iff.mp hrest
      cases hcons
      obtain ⟨bs, rest, rfl, ⟨rfl, hi⟩, rfl⟩ := (accepts_readAt pos).eq_ok hread
      have hpos := hi.length_pos
      rw [List.length_append] at hfuel
      exact .cons hi (ih his (by omega))

/-- Decoding accepts exactly the code that is tiled by instructions. -/
theorem decode_eq_ok_iff : decode code = .ok is ↔ Tiled 0 code is :=
  ⟨fun h => tiled_of_readAll h (Nat.le_refl _), fun h => readAll_of_tiled h (Nat.le_refl _)⟩

/-- The offsets of the instructions and of the end, where code may be cut. -/
def bounds (is : List Instruction) (stop : Nat) : List Nat := is.map (·.offset) ++ [stop]

theorem Tiled.le_of_mem_bounds (h : Tiled pos code is) {offset : Nat}
    (hoffset : offset ∈ bounds is (pos + code.length)) : pos ≤ offset := by
  induction h with
  | nil =>
    simp [bounds] at hoffset
    omega
  | @cons i bs rest is hi _ ih =>
    simp only [bounds, List.map_cons, List.cons_append, List.mem_cons, List.length_append, ← Nat.add_assoc]
      at hoffset ih
    obtain rfl | hoffset := hoffset
    · exact Nat.le_refl _
    · exact Nat.le_trans (Nat.le_add_right _ _) (ih hoffset)

theorem Tiled.pairwise_offsets (h : Tiled pos code is) : (is.map (·.offset)).Pairwise (· < ·) := by
  induction h with
  | nil => exact .nil
  | @cons i bs rest is hi hrest ih =>
    refine .cons (fun offset hoffset => ?_) ih
    have hle := hrest.le_of_mem_bounds (List.mem_append_left _ hoffset)
    have hpos := hi.length_pos
    show i.offset < offset
    omega

/-- Code that is cut at a bound keeps the instructions before it. -/
theorem Tiled.take {k : Nat} (h : Tiled pos code is) (hk : (bounds is (pos + code.length))[k]? = some (pos + n)) :
    Tiled pos (code.take n) (is.take k) := by
  induction h generalizing k n with
  | nil => simpa using Tiled.nil
  | @cons i bs rest is hi hrest ih =>
    cases k with
    | zero =>
      obtain rfl : n = 0 := by simpa [bounds] using hk
      exact .nil
    | succ k =>
      have hk : (bounds is (i.offset + bs.length + rest.length))[k]? = some (i.offset + n) := by
        simpa [bounds, Nat.add_assoc] using hk
      have hle := hrest.le_of_mem_bounds (List.mem_of_getElem? hk)
      obtain ⟨m, rfl⟩ := Nat.exists_eq_add_of_le (show bs.length ≤ n by omega)
      rw [List.take_append, List.take_of_length_le (by omega), Nat.add_sub_cancel_left, List.take_succ_cons]
      exact .cons hi (ih (by rw [hk, Nat.add_assoc]))

/-- Code that is cut inside an instruction is refused as truncated. -/
theorem Tiled.readAll_take (h : Tiled pos code is) (hn : n < code.length) (hoffset : pos + n ∉ is.map (·.offset))
    (hfuel : n ≤ fuel) : ∃ e, readAll fuel ⟨pos, code.take n, none⟩ = .error e ∧ e.IsTruncation := by
  induction h generalizing n fuel with
  | nil => exact absurd hn (Nat.not_lt_zero n)
  | @cons i bs rest is hi _ ih =>
    have hne : n ≠ 0 := by
      rintro rfl
      simp at hoffset
    obtain ⟨fuel, rfl⟩ := Nat.exists_eq_succ_of_ne_zero (show fuel ≠ 0 by omega)
    by_cases hlt : n < bs.length
    · obtain ⟨e, he, hcut⟩ := ((accepts_readAt i.offset).takes bs i ⟨rfl, hi⟩).cut i.offset n hlt
      have hcode : bs.take n ≠ [] := by simp [hne, List.ne_nil_of_length_pos hi.length_pos]
      rw [List.take_append_of_le_length (Nat.le_of_lt hlt), readAll_of_ne_nil hcode, he]
      exact ⟨e, rfl, hcut⟩
    · obtain ⟨m, rfl⟩ := Nat.exists_eq_add_of_le (Nat.le_of_not_lt hlt)
      rw [List.length_append] at hn
      have hpos := hi.length_pos
      have hm : i.offset + bs.length + m ∉ is.map (·.offset) := by
        rw [List.map_cons, List.mem_cons, not_or, ← Nat.add_assoc] at hoffset
        exact hoffset.2
      obtain ⟨e, he, hcut⟩ := ih (by omega) hm (show m ≤ fuel by omega)
      rw [List.take_append, List.take_of_length_le (by omega), Nat.add_sub_cancel_left, readAll_encoded hi, he]
      exact ⟨e, rfl, hcut⟩

/-- Decoding accepts exactly the grammar: encodings start with the opcodes up to 201; code decodes to instructions
exactly if it is tiled by their encodings; and of such code a part up to a bound decodes to the instructions before it,
while a part that ends inside an instruction is truncated. -/
theorem decode_accepts_grammar :
    (∀ op : UInt8, (∃ i rest, Encoded i (op :: rest)) ↔ op.toNat ≤ 201) ∧
      ∀ code is, (decode code = .ok is ↔ Tiled 0 code is) ∧
        (decode code = .ok is →
          (∀ k n, (bounds is code.length)[k]? = some n → decode (code.take n) = .ok (is.take k)) ∧
          ∀ n < code.length, n ∉ bounds is code.length →
            ∃ e, decode (code.take n) = .error e ∧ e.IsTruncation) := by
  refine ⟨fun op => exists_encoded_iff, fun code is => ⟨decode_eq_ok_iff, fun h => ?_⟩⟩
  have htiled := decode_eq_ok_iff.mp h
  refine ⟨fun k n hk => ?_, fun n hn hout => ?_⟩
  · exact decode_eq_ok_iff.mpr (htiled.take (by simpa using hk))
  · have hoffset : 0 + n ∉ is.map (·.offset) := by
      rw [Nat.zero_add]
      exact fun hmem => hout (List.mem_append_left _ hmem)
    exact htiled.readAll_take hn hoffset (by rw [List.length_take]; omega)

/-- A short form, a switch behind its padding, a wide form and a branch backward. -/
def switching : Bytes :=
  [27, 170, 9, 9, 0, 0, 0, 23, 255, 255, 255, 255, 255, 255, 255, 255, 0, 0, 0, 23, 196, 132, 1, 0, 255, 255,
    200, 255, 255, 255, 230]

def switchingInstructions : List Instruction :=
  [⟨0, 21, .localVar 1⟩, ⟨1, 170, .tableSwitch (-1) (-1) 24 [24]⟩, ⟨20, 132, .increment 256 (-1)⟩, ⟨26, 167, .jump 0⟩]

theorem switching_accepted :
    decode switching = .ok switchingInstructions ∧ Tiled 0 switching switchingInstructions ∧
      decode (switching.take 20) = .ok (switchingInstructions.take 2) ∧
      ∃ e, decode (switching.take 19) = .error e ∧ e.IsTruncation := by
  have hdecode : decode switching = .ok switchingInstructions := by decide +kernel
  obtain ⟨htiled, hcut⟩ := decode_accepts_grammar.2 switching switchingInstructions
  obtain ⟨hbound, hinside⟩ := hcut hdecode
  exact ⟨hdecode, htiled.mp hdecode, hbound 2 20 rfl, hinside 19 (by decide) (by decide)⟩

end Instruction

end Linkage
