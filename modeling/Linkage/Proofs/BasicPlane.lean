import Mathlib.Algebra.Group.Nat.Defs
import Linkage.Jvm.Layout
import Linkage.Text.ModifiedUtf8

/-!
Texts whose characters all lie in the Basic Multilingual Plane. Their UTF-8 bytes are read back as a class file's text
although that has an encoding of its own.
-/
namespace Linkage

/-- A text that a constant holds when it is written in UTF-8. -/
structure Storable (text : String) : Prop where
  basic : ∀ c ∈ text.toList, c.toNat < 0x10000
  length_le : text.utf8ByteSize ≤ 65535

instance (text : String) : Decidable (Storable text) :=
  decidable_of_iff (text.toList.all (·.toNat < 0x10000) ∧ text.utf8ByteSize ≤ 65535)
    ⟨fun h => ⟨by simpa using h.1, h.2⟩, fun h => ⟨by simpa using h.basic, h.length_le⟩⟩

theorem byteArray_toList_loop (bs : ByteArray) (i : Nat) (r : List UInt8) :
    ByteArray.toList.loop bs i r = r.reverse ++ bs.data.toList.drop i := by
  induction i, r using ByteArray.toList.loop.induct bs with
  | case1 i r hlt ih =>
    have hlt' : i < bs.data.toList.length := by simpa using hlt
    have hget : bs.get! i = bs.data.toList[i] := by
      rw [Array.getElem_toList]
      exact getElem!_pos bs.data i hlt
    rw [ByteArray.toList.loop, if_pos hlt, ih, hget, List.drop_eq_getElem_cons hlt']
    simp
  | case2 i r hge =>
    have hge' : bs.data.toList.length ≤ i := by simpa using hge
    rw [ByteArray.toList.loop, if_neg hge, List.drop_eq_nil_of_le hge', List.append_nil]

/-- The UTF-8 bytes of a text are those of its characters. -/
theorem utf8Bytes_eq_flatMap (text : String) : utf8Bytes text = text.toList.flatMap String.utf8EncodeChar := by
  rw [utf8Bytes, String.toUTF8_eq_toByteArray, ← String.utf8Encode_toList, ByteArray.toList, byteArray_toList_loop]
  simp [List.utf8Encode]

theorem length_utf8Bytes (text : String) : (utf8Bytes text).length = text.utf8ByteSize := by
  rw [utf8Bytes, String.toUTF8_eq_toByteArray, ByteArray.toList, byteArray_toList_loop]
  simp

namespace Utf16

theorem toNat_charOfNat {n : Nat} (h : n.isValidChar) : (Char.ofNat n).toNat = n := by
  rw [Char.ofNat, dif_pos h]
  rfl

theorem isHigh_iff {u : Unit16} : isHigh u = true ↔ 0xD800 ≤ u.toNat ∧ u.toNat < 0xDC00 := by
  simp only [isHigh, Bool.and_eq_true, decide_eq_true_eq, UInt16.le_iff_toNat_le, UInt16.lt_iff_toNat_lt]
  rfl

theorem isLow_iff {u : Unit16} : isLow u = true ↔ 0xDC00 ≤ u.toNat ∧ u.toNat < 0xE000 := by
  simp only [isLow, Bool.and_eq_true, decide_eq_true_eq, UInt16.le_iff_toNat_le, UInt16.lt_iff_toNat_lt]
  rfl

theorem not_surrogate {c : Char} (h : c.toNat < 0x10000) :
    isHigh (UInt16.ofNat c.toNat) = false ∧ isLow (UInt16.ofNat c.toNat) = false := by
  have hunit : (UInt16.ofNat c.toNat).toNat = c.toNat := by simp; omega
  have hvalid : c.toNat < 0xD800 ∨ 0xDFFF < c.toNat := c.valid.imp id And.left
  rw [Bool.eq_false_iff, Bool.eq_false_iff, ne_eq, ne_eq, isHigh_iff, isLow_iff, hunit]
  omega

/-- A character of the plane is spelled by one unit. -/
theorem decode_cons {c : Char} (h : c.toNat < 0x10000) (rest : List Unit16) :
    decode (UInt16.ofNat c.toNat :: rest) = c :: decode rest := by
  obtain ⟨hhigh, hlow⟩ := not_surrogate h
  have hsingle : decode.single (UInt16.ofNat c.toNat) = c := by
    have hunit : (UInt16.ofNat c.toNat).toNat = c.toNat := by simp; omega
    rw [decode.single, hhigh, hlow, hunit]
    exact Char.ofNat_toNat c
  cases rest with
  | nil => simp [decode, hsingle]
  | cons v rest => simp [decode, hhigh, hsingle]

theorem decode_map_ofNat {cs : List Char} (h : ∀ c ∈ cs, c.toNat < 0x10000) :
    decode (cs.map fun c => UInt16.ofNat c.toNat) = cs := by
  induction cs with
  | nil => rfl
  | cons c cs ih =>
    rw [List.map_cons, decode_cons (h c (by simp)), ih fun c hc => h c (by simp [hc])]

end Utf16

namespace ModifiedUtf8

/-- High bits beside low bits make a sum. -/
theorem toNat_shiftLeft_or {x y s : UInt16} {k : Nat} (hs : s.toNat % 16 = k) (hx : x.toNat * 2 ^ k < 2 ^ 16)
    (hy : y.toNat < 2 ^ k) : (x <<< s ||| y).toNat = x.toNat * 2 ^ k + y.toNat := by
  rw [UInt16.toNat_or, UInt16.toNat_shiftLeft, hs, Nat.shiftLeft_eq, Nat.mod_eq_of_lt hx, ← Nat.shiftLeft_eq]
  exact (Nat.shiftLeft_add_eq_or_of_lt hy x.toNat).symm

theorem toNat_and_low {mask a : UInt8} {k : Nat} (hmask : mask.toNat = 2 ^ k - 1) :
    (a &&& mask).toUInt16.toNat = a.toNat % 2 ^ k := by
  rw [UInt8.toNat_toUInt16, UInt8.toNat_and, hmask, Nat.and_two_pow_sub_one_eq_mod]

theorem toNat_unit2 (a b : UInt8) : (unit2 a b).toNat = a.toNat % 32 * 64 + b.toNat % 64 := by
  have ha : (a &&& 0x1F).toUInt16.toNat = a.toNat % 32 := toNat_and_low (k := 5) rfl
  have hb : (b &&& 0x3F).toUInt16.toNat = b.toNat % 64 := toNat_and_low (k := 6) rfl
  rw [unit2, toNat_shiftLeft_or (k := 6) rfl (by omega) (by omega), ha, hb]
  rfl

theorem toNat_unit3 (a b c : UInt8) :
    (unit3 a b c).toNat = a.toNat % 16 * 4096 + (b.toNat % 64 * 64 + c.toNat % 64) := by
  have ha : (a &&& 0x0F).toUInt16.toNat = a.toNat % 16 := toNat_and_low (k := 4) rfl
  have hb : (b &&& 0x3F).toUInt16.toNat = b.toNat % 64 := toNat_and_low (k := 6) rfl
  have hc : (c &&& 0x3F).toUInt16.toNat = c.toNat % 64 := toNat_and_low (k := 6) rfl
  have hlow : ((b &&& 0x3F).toUInt16 <<< 6 ||| (c &&& 0x3F).toUInt16).toNat = b.toNat % 64 * 64 + c.toNat % 64 := by
    rw [toNat_shiftLeft_or (k := 6) rfl (by omega) (by omega), hb, hc]
    rfl
  rw [unit3, UInt16.or_assoc, toNat_shiftLeft_or (k := 12) rfl (by omega) (by omega), ha, hlow]
  rfl

/-- The first byte tells how many follow. -/
theorem first_byte : ∀ n < 256,
    ((UInt8.ofNat n &&& 0x80 = 0) ↔ n < 128) ∧ ((UInt8.ofNat n &&& 0xE0 = 0xC0) ↔ 192 ≤ n ∧ n < 224) ∧
      ((UInt8.ofNat n &&& 0xF0 = 0xE0) ↔ 224 ≤ n ∧ n < 240) := by
  decide +kernel

theorem first_byte_of (a : UInt8) :
    (a &&& 0x80 = 0 ↔ a.toNat < 128) ∧ (a &&& 0xE0 = 0xC0 ↔ 192 ≤ a.toNat ∧ a.toNat < 224) ∧
      (a &&& 0xF0 = 0xE0 ↔ 224 ≤ a.toNat ∧ a.toNat < 240) := by
  simpa only [UInt8.ofNat_toNat] using first_byte a.toNat a.toNat_lt

theorem unitsFrom_of_lt {a : UInt8} (h : a.toNat < 128) (offset : Nat) (rest : Bytes) :
    unitsFrom offset (a :: rest) = (do return a.toUInt16 :: (← unitsFrom (offset + 1) rest)) := by
  obtain ⟨hone, -, -⟩ := first_byte_of a
  rw [unitsFrom.eq_def]
  dsimp only
  rw [if_pos (hone.mpr h)]

theorem unitsFrom_of_two {a : UInt8} (h : 192 ≤ a.toNat ∧ a.toNat < 224) (b : UInt8) (offset : Nat) (rest : Bytes) :
    unitsFrom offset (a :: b :: rest) = (do return unit2 a b :: (← unitsFrom (offset + 2) rest)) := by
  obtain ⟨hone, htwo, -⟩ := first_byte_of a
  rw [unitsFrom.eq_def]
  dsimp only
  rw [if_neg (mt hone.mp (by omega)), if_pos (htwo.mpr h)]

theorem unitsFrom_of_three {a : UInt8} (h : 224 ≤ a.toNat ∧ a.toNat < 240) (b c : UInt8) (offset : Nat)
    (rest : Bytes) :
    unitsFrom offset (a :: b :: c :: rest) = (do return unit3 a b c :: (← unitsFrom (offset + 3) rest)) := by
  obtain ⟨hone, htwo, hthree⟩ := first_byte_of a
  rw [unitsFrom.eq_def]
  dsimp only
  rw [if_neg (mt hone.mp (by omega)), if_neg (mt htwo.mp (by omega)), if_pos (hthree.mpr h)]

theorem unitsFrom_one {n : Nat} (hn : n < 128) (offset : Nat) (rest : Bytes) :
    unitsFrom offset (UInt8.ofNat n :: rest) = (do return UInt16.ofNat n :: (← unitsFrom (offset + 1) rest)) := by
  have hlead : (UInt8.ofNat n).toNat = n := by simp; omega
  have hunit : (UInt8.ofNat n).toUInt16 = UInt16.ofNat n := by
    apply UInt16.toNat_inj.mp
    simp
    omega
  rw [unitsFrom_of_lt (by omega), hunit]

theorem unitsFrom_two {x y : Nat} (hx : x < 32) (hy : y < 64) (offset : Nat) (rest : Bytes) :
    unitsFrom offset (UInt8.ofNat (x + 192) :: UInt8.ofNat (y + 128) :: rest) =
      (do return UInt16.ofNat (64 * x + y) :: (← unitsFrom (offset + 2) rest)) := by
  have hlead : (UInt8.ofNat (x + 192)).toNat = x + 192 := by simp; omega
  have hunit : unit2 (UInt8.ofNat (x + 192)) (UInt8.ofNat (y + 128)) = UInt16.ofNat (64 * x + y) := by
    apply UInt16.toNat_inj.mp
    rw [toNat_unit2]
    simp
    omega
  rw [unitsFrom_of_two (by omega), hunit]

theorem unitsFrom_three {x y z : Nat} (hx : x < 16) (hy : y < 64) (hz : z < 64) (offset : Nat) (rest : Bytes) :
    unitsFrom offset (UInt8.ofNat (x + 224) :: UInt8.ofNat (y + 128) :: UInt8.ofNat (z + 128) :: rest) =
      (do return UInt16.ofNat (4096 * x + 64 * y + z) :: (← unitsFrom (offset + 3) rest)) := by
  have hlead : (UInt8.ofNat (x + 224)).toNat = x + 224 := by simp; omega
  have hunit : unit3 (UInt8.ofNat (x + 224)) (UInt8.ofNat (y + 128)) (UInt8.ofNat (z + 128)) =
      UInt16.ofNat (4096 * x + 64 * y + z) := by
    apply UInt16.toNat_inj.mp
    rw [toNat_unit3]
    simp
    omega
  rw [unitsFrom_of_three (by omega), hunit]

/-- A character of the plane is read as its unit. -/
theorem unitsFrom_utf8EncodeChar {c : Char} (h : c.toNat < 0x10000) (offset : Nat) (rest : Bytes) :
    ∃ next, unitsFrom offset (String.utf8EncodeChar c ++ rest) =
      (do return UInt16.ofNat c.toNat :: (← unitsFrom next rest)) := by
  rw [String.utf8EncodeChar, show c.val.toNat = c.toNat from rfl]
  by_cases hone : c.toNat ≤ 127
  · rw [if_pos hone]
    exact ⟨offset + 1, unitsFrom_one (by omega) offset rest⟩
  · rw [if_neg hone]
    by_cases htwo : c.toNat ≤ 2047
    · rw [if_pos htwo]
      have hr := unitsFrom_two (show c.toNat / 64 % 32 < 32 by omega) (show c.toNat % 64 < 64 by omega) offset rest
      rw [show 64 * (c.toNat / 64 % 32) + c.toNat % 64 = c.toNat by omega] at hr
      exact ⟨offset + 2, hr⟩
    · rw [if_neg htwo, if_pos (show c.toNat ≤ 65535 by omega)]
      have hr := unitsFrom_three (show c.toNat / 4096 % 16 < 16 by omega) (show c.toNat / 64 % 64 < 64 by omega)
        (show c.toNat % 64 < 64 by omega) offset rest
      rw [show 4096 * (c.toNat / 4096 % 16) + 64 * (c.toNat / 64 % 64) + c.toNat % 64 = c.toNat by omega] at hr
      exact ⟨offset + 3, hr⟩

theorem unitsFrom_flatMap {cs : List Char} (h : ∀ c ∈ cs, c.toNat < 0x10000) (offset : Nat) :
    unitsFrom offset (cs.flatMap String.utf8EncodeChar) = .ok (cs.map fun c => UInt16.ofNat c.toNat) := by
  induction cs generalizing offset with
  | nil => rfl
  | cons c cs ih =>
    obtain ⟨next, hc⟩ := unitsFrom_utf8EncodeChar (h c (by simp)) offset (cs.flatMap String.utf8EncodeChar)
    rw [List.flatMap_cons, hc, ih fun c hm => h c (by simp [hm])]
    rfl

theorem toNat_lt_of_isPlain {b : UInt8} (h : isPlain b = true) : b.toNat < 128 := by
  simp only [isPlain, Bool.and_eq_true, decide_eq_true_eq] at h
  exact UInt8.lt_iff_toNat_lt.mp h.2

/-- A plain byte is read as the unit of its character. -/
theorem unitsFrom_plain {bytes : Bytes} (h : ∀ b ∈ bytes, isPlain b = true) (offset : Nat) :
    unitsFrom offset bytes = .ok (bytes.map fun b => UInt16.ofNat b.toNat) := by
  induction bytes generalizing offset with
  | nil => rfl
  | cons b bytes ih =>
    have hone := unitsFrom_one (toNat_lt_of_isPlain (h b (by simp))) offset bytes
    rw [UInt8.ofNat_toNat] at hone
    rw [hone, ih fun b hm => h b (by simp [hm])]
    rfl

/-- Plain bytes spell the text whose characters they are. -/
theorem decodeUnits_plain {bytes : Bytes} (h : ∀ b ∈ bytes, isPlain b = true) :
    decodeUnits bytes = .ok (plainText bytes) := by
  have hchar (b : UInt8) (hb : b ∈ bytes) : (Char.ofNat b.toNat).toNat = b.toNat := by
    have hlt := toNat_lt_of_isPlain (h b hb)
    exact Utf16.toNat_charOfNat (.inl (by omega))
  have hunits : (bytes.map fun b => UInt16.ofNat b.toNat) =
      (bytes.map fun b => Char.ofNat b.toNat).map fun c => UInt16.ofNat c.toNat := by
    rw [List.map_map]
    exact List.map_congr_left fun b hb => by simp only [Function.comp_apply, hchar b hb]
  have hplane : ∀ c ∈ bytes.map fun b => Char.ofNat b.toNat, c.toNat < 0x10000 := by
    intro c hc
    obtain ⟨b, hb, rfl⟩ := List.mem_map.mp hc
    have hlt := toNat_lt_of_isPlain (h b hb)
    rw [hchar b hb]
    omega
  rw [decodeUnits, units, unitsFrom_plain h, hunits]
  change Except.ok (String.ofList _) = _
  rw [Utf16.decode_map_ofNat hplane, plainText]

/-- Reading plain bytes without taking them apart changes nothing. -/
theorem decode_eq_decodeUnits (bytes : Bytes) : decode bytes = decodeUnits bytes := by
  rw [decode]
  split
  · rename_i h
    rw [decodeUnits_plain (List.all_eq_true.mp h)]
  · rfl

/-- The UTF-8 bytes of a text of the plane are read back as the text. -/
theorem decode_utf8Bytes {text : String} (h : ∀ c ∈ text.toList, c.toNat < 0x10000) :
    decode (utf8Bytes text) = .ok text := by
  rw [decode_eq_decodeUnits, decodeUnits, units, utf8Bytes_eq_flatMap, unitsFrom_flatMap h 0]
  change Except.ok (String.ofList _) = _
  rw [Utf16.decode_map_ofNat h, String.ofList_toList]

end ModifiedUtf8
end Linkage
