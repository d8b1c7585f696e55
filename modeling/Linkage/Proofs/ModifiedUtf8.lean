import Linkage.Proofs.BasicPlane

/-!
The text encoding of class files gives every text back, whatever characters it has: each UTF-16 unit is read as it was
written, and the two units of a character beyond the Basic Multilingual Plane are joined again. Units need not be those
of a text; a surrogate that is no half of a pair is then replaced. Nor need bytes be an encoding: they are read as long
as they are a string of whole sequences.
-/
namespace Linkage

namespace Utf16

theorem ofNat_isHigh {n : Nat} (h : 0xD800 ≤ n ∧ n < 0xDC00) : isHigh (UInt16.ofNat n) = true := by
  have hunit : (UInt16.ofNat n).toNat = n := by simp; omega
  rwa [isHigh_iff, hunit]

theorem ofNat_isLow {n : Nat} (h : 0xDC00 ≤ n ∧ n < 0xE000) : isLow (UInt16.ofNat n) = true := by
  have hunit : (UInt16.ofNat n).toNat = n := by simp; omega
  rwa [isLow_iff, hunit]

theorem toNat_lt (c : Char) : c.toNat < 0x110000 := by
  rcases c.valid with h | h
  · exact Nat.lt_trans h (by decide)
  · exact h.2

/-- A character beyond the plane is spelled by a surrogate pair. -/
theorem decode_pair {c : Char} (h : 0x10000 ≤ c.toNat) (rest : List Unit16) :
    decode (encodeChar c ++ rest) = c :: decode rest := by
  have hlt := toNat_lt c
  have hhigh : isHigh (UInt16.ofNat (0xD800 + (c.toNat - 0x10000) / 0x400)) = true := ofNat_isHigh (by omega)
  have hlow : isLow (UInt16.ofNat (0xDC00 + (c.toNat - 0x10000) % 0x400)) = true := ofNat_isLow (by omega)
  have hpair : pair (UInt16.ofNat (0xD800 + (c.toNat - 0x10000) / 0x400))
      (UInt16.ofNat (0xDC00 + (c.toNat - 0x10000) % 0x400)) = c := by
    have hnumber : ((UInt16.ofNat (0xD800 + (c.toNat - 0x10000) / 0x400)).toNat - 0xD800) * 0x400 +
        ((UInt16.ofNat (0xDC00 + (c.toNat - 0x10000) % 0x400)).toNat - 0xDC00) + 0x10000 = c.toNat := by
      rw [UInt16.toNat_ofNat', UInt16.toNat_ofNat']
      omega
    rw [pair, hnumber]
    exact Char.ofNat_toNat c
  rw [encodeChar, if_neg (Nat.not_lt.mpr h)]
  dsimp only [List.cons_append, List.nil_append]
  rw [decode, hhigh, hlow, hpair]
  rfl

theorem decode_encode (cs : List Char) : decode (encode cs) = cs := by
  induction cs with
  | nil => rfl
  | cons c cs ih =>
    rw [encode, List.flatMap_cons]
    by_cases h : c.toNat < 0x10000
    · rw [encodeChar, if_pos h, List.singleton_append, decode_cons h]
      exact congrArg (c :: ·) ih
    · rw [decode_pair (Nat.not_lt.mp h)]
      exact congrArg (c :: ·) ih

/-- The unit is half of a pair whose other half is not beside it. -/
def isUnpaired (previous next : Option Unit16) (u : Unit16) : Bool :=
  isHigh u && !next.any isLow || isLow u && !previous.any isHigh

/-- The units, which follow `previous`, with U+FFFD for each unpaired surrogate. -/
def mendAfter (previous : Option Unit16) : List Unit16 → List Unit16
  | [] => []
  | u :: us => (if isUnpaired previous us.head? u then 0xFFFD else u) :: mendAfter (some u) us

/-- The units with U+FFFD for each unpaired surrogate. -/
def mend (us : List Unit16) : List Unit16 := mendAfter none us

theorem isLow_of_isHigh {u : Unit16} (h : isHigh u = true) : isLow u = false := by
  rw [Bool.eq_false_iff, ne_eq, isLow_iff]
  have := isHigh_iff.mp h
  omega

theorem isHigh_of_isLow {u : Unit16} (h : isLow u = true) : isHigh u = false := by
  rw [Bool.eq_false_iff, ne_eq, isHigh_iff]
  have := isLow_iff.mp h
  omega

/-- One unit by itself: a surrogate is replaced, any other unit is kept. -/
theorem encodeChar_single (u : Unit16) :
    encodeChar (decode.single u) = [if isHigh u || isLow u then 0xFFFD else u] := by
  rw [decode.single]
  by_cases h : (isHigh u || isLow u) = true
  · rw [if_pos h, if_pos h]
    rfl
  · rw [if_neg h, if_neg h]
    simp only [Bool.or_eq_true, isHigh_iff, isLow_iff] at h
    have hlt := u.toNat_lt
    have hvalid : u.toNat.isValidChar := by
      simp only [Nat.isValidChar]
      omega
    rw [encodeChar, toNat_charOfNat hvalid, if_pos hlt, UInt16.ofNat_toNat]

/-- A pair is encoded as its halves. -/
theorem encodeChar_pair {high low : Unit16} (hhigh : isHigh high = true) (hlow : isLow low = true) :
    encodeChar (pair high low) = [high, low] := by
  have hh := isHigh_iff.mp hhigh
  have hl := isLow_iff.mp hlow
  have hvalid : ((high.toNat - 0xD800) * 0x400 + (low.toNat - 0xDC00) + 0x10000).isValidChar := by
    simp only [Nat.isValidChar]
    omega
  rw [encodeChar, pair, toNat_charOfNat hvalid, if_neg (by omega)]
  dsimp only
  rw [show 0xD800 + ((high.toNat - 0xD800) * 0x400 + (low.toNat - 0xDC00) + 0x10000 - 0x10000) / 0x400 = high.toNat
      by omega,
    show 0xDC00 + ((high.toNat - 0xD800) * 0x400 + (low.toNat - 0xDC00) + 0x10000 - 0x10000) % 0x400 = low.toNat
      by omega, UInt16.ofNat_toNat, UInt16.ofNat_toNat]

/-- A surrogate whose neighbours are not its partners is unpaired. -/
theorem isUnpaired_eq {previous next : Option Unit16} {u : Unit16}
    (hprevious : ∀ p ∈ previous, isHigh p = true → isLow u = false)
    (hnext : isHigh u = true → ∀ v ∈ next, isLow v = false) :
    isUnpaired previous next u = (isHigh u || isLow u) := by
  have hhigh : isHigh u = true → next.any isLow = false := by
    intro hu
    cases next with
    | none => rfl
    | some v => simpa using hnext hu v rfl
  have hlow : isLow u = true → previous.any isHigh = false := by
    intro hu
    cases previous with
    | none => rfl
    | some p =>
      cases hp : isHigh p with
      | false => simpa using hp
      | true => rw [hprevious p rfl hp] at hu; cases hu
  rw [isUnpaired]
  cases hu : isHigh u <;> cases hv : isLow u <;> simp_all

/-- The characters of units that no pair is split before are encoded as the mended units. -/
theorem encode_decode_after {previous : Option Unit16} {us : List Unit16}
    (h : ∀ p ∈ previous, isHigh p = true → ∀ v ∈ us.head?, isLow v = false) :
    encode (decode us) = mendAfter previous us := by
  induction us using decode.induct generalizing previous with
  | case1 => rfl
  | case2 u =>
    have hu : isUnpaired previous none u = (isHigh u || isLow u) :=
      isUnpaired_eq (fun p hp hhigh => h p hp hhigh u rfl) (by simp)
    simp [decode, encode, mendAfter, encodeChar_single, hu]
  | case3 u v rest hpair ih =>
    obtain ⟨hu, hv⟩ := Bool.and_eq_true_iff.mp hpair
    have hrest : encode (decode rest) = mendAfter (some v) rest := ih (by simp [isHigh_of_isLow hv])
    rw [encode] at hrest
    simp [decode, encode, mendAfter, isUnpaired, encodeChar_pair, hu, hv, isLow_of_isHigh, isHigh_of_isLow, hrest]
  | case4 u v rest hpair ih =>
    have hsplit (hhigh : isHigh u = true) : isLow v = false := by simpa [hhigh] using hpair
    have hu : isUnpaired previous (some v) u = (isHigh u || isLow u) :=
      isUnpaired_eq (fun p hp hhigh => h p hp hhigh u rfl) (by simpa using hsplit)
    have hrest : encode (decode (v :: rest)) = mendAfter (some u) (v :: rest) := ih (by simpa using hsplit)
    rw [encode] at hrest
    rw [decode, if_neg hpair, encode, List.flatMap_cons, encodeChar_single, hrest]
    simp [mendAfter, hu]

/-- Decoding replaces the unpaired surrogates and changes nothing else. -/
theorem encode_decode (us : List Unit16) : encode (decode us) = mend us := encode_decode_after (by simp)

theorem decode_eq_iff {us : List Unit16} {cs : List Char} : decode us = cs ↔ encode cs = mend us := by
  constructor
  · rintro rfl
    exact encode_decode us
  · intro h
    rw [← decode_encode cs, h, ← encode_decode, decode_encode]

end Utf16

namespace ModifiedUtf8

/-- Marks above the bits of a unit add up with them. -/
theorem or_marks :
    (∀ n < 32, UInt8.ofNat n ||| 0xC0 = UInt8.ofNat (n + 192)) ∧
      (∀ n < 16, UInt8.ofNat n ||| 0xE0 = UInt8.ofNat (n + 224)) ∧
      ∀ n < 64, UInt8.ofNat n ||| 0x80 = UInt8.ofNat (n + 128) := by
  decide +kernel

theorem toUInt8_shiftRight {u s : Unit16} {k : Nat} (hs : s.toNat % 16 = k) :
    (u >>> s).toUInt8 = UInt8.ofNat (u.toNat / 2 ^ k) := by
  apply UInt8.toNat_inj.mp
  rw [UInt16.toNat_toUInt8, UInt16.toNat_shiftRight, hs, Nat.shiftRight_eq_div_pow, UInt8.toNat_ofNat']

theorem encodeUnit_tail (u : Unit16) : encodeUnit.tail u = UInt8.ofNat (u.toNat % 64 + 128) := by
  have hlow : (u &&& 0x3F).toUInt8 = UInt8.ofNat (u.toNat % 64) := by
    apply UInt8.toNat_inj.mp
    rw [UInt16.toNat_toUInt8, UInt16.toNat_and, show (0x3F : UInt16).toNat = 2 ^ 6 - 1 from rfl,
      Nat.and_two_pow_sub_one_eq_mod, UInt8.toNat_ofNat']
  rw [encodeUnit.tail, hlow, or_marks.2.2 _ (by omega)]

/-- A unit is read as it was written. -/
theorem unitsFrom_encodeUnit (u : Unit16) (offset : Nat) (rest : Bytes) :
    ∃ next, unitsFrom offset (encodeUnit u ++ rest) = (do return u :: (← unitsFrom next rest)) := by
  have hlt := u.toNat_lt
  have hunit : UInt16.ofNat u.toNat = u := UInt16.ofNat_toNat
  rw [encodeUnit]
  split
  · rename_i h
    have hsmall : u.toNat < 128 := UInt16.lt_iff_toNat_lt.mp h.2
    have hbyte : u.toUInt8 = UInt8.ofNat u.toNat := rfl
    refine ⟨offset + 1, ?_⟩
    rw [hbyte, List.singleton_append, unitsFrom_one hsmall, hunit]
  · split
    · rename_i h
      have hsmall : u.toNat < 2048 := UInt16.lt_iff_toNat_lt.mp h
      have hlead : (u >>> 6).toUInt8 ||| 0xC0 = UInt8.ofNat (u.toNat / 64 + 192) := by
        rw [toUInt8_shiftRight (k := 6) rfl]
        exact or_marks.1 _ (by omega)
      refine ⟨offset + 2, ?_⟩
      rw [hlead, encodeUnit_tail, List.cons_append, List.singleton_append, unitsFrom_two (by omega) (by omega),
        show 64 * (u.toNat / 64) + u.toNat % 64 = u.toNat by omega, hunit]
    · have hlead : (u >>> 12).toUInt8 ||| 0xE0 = UInt8.ofNat (u.toNat / 4096 + 224) := by
        rw [toUInt8_shiftRight (k := 12) rfl]
        exact or_marks.2.1 _ (by omega)
      have hmiddle : (u >>> 6).toNat = u.toNat / 64 := by
        rw [UInt16.toNat_shiftRight, Nat.shiftRight_eq_div_pow]
        rfl
      refine ⟨offset + 3, ?_⟩
      rw [hlead, encodeUnit_tail, encodeUnit_tail, hmiddle, List.cons_append, List.cons_append, List.singleton_append,
        unitsFrom_three (by omega) (by omega) (by omega),
        show 4096 * (u.toNat / 4096) + 64 * (u.toNat / 64 % 64) + u.toNat % 64 = u.toNat by omega, hunit]

theorem unitsFrom_flatMap_encodeUnit (us : List Unit16) (offset : Nat) :
    unitsFrom offset (us.flatMap encodeUnit) = .ok us := by
  induction us generalizing offset with
  | nil => rfl
  | cons u us ih =>
    obtain ⟨next, hu⟩ := unitsFrom_encodeUnit u offset (us.flatMap encodeUnit)
    rw [List.flatMap_cons, hu, ih]
    rfl

theorem decode_flatMap_encodeUnit (us : List Unit16) :
    decode (us.flatMap encodeUnit) = .ok (String.ofList (Utf16.decode us)) := by
  rw [decode_eq_decodeUnits, decodeUnits, units, unitsFrom_flatMap_encodeUnit]
  rfl

/-- Every text is read back from its encoding. -/
theorem decode_encode (text : String) : decode (encode text) = .ok text := by
  rw [encode, decode_flatMap_encodeUnit, Utf16.decode_encode, String.ofList_toList]

/-- A whole sequence: a first byte 0xxxxxxx, 110xxxxx or 1110xxxx, and as many bytes after it as it announces. -/
inductive Sequence : Bytes → Prop where
  | one {a : UInt8} : a.toNat / 128 = 0b0 → Sequence [a]
  | two {a : UInt8} (b : UInt8) : a.toNat / 32 = 0b110 → Sequence [a, b]
  | three {a : UInt8} (b c : UInt8) : a.toNat / 16 = 0b1110 → Sequence [a, b, c]

/-- Bytes at the offset that do not go on with a whole sequence, and why. -/
inductive Breaks (offset : Nat) : Bytes → Fault → Prop where
  /-- The first byte is 10xxxxxx or 1111xxxx. -/
  | invalid {a : UInt8} (rest : Bytes) : a.toNat / 64 = 0b10 ∨ a.toNat / 16 = 0b1111 →
      Breaks offset (a :: rest) (.invalid a offset)
  | two {a : UInt8} : a.toNat / 32 = 0b110 → Breaks offset [a] (.truncated offset)
  | three {a : UInt8} {rest : Bytes} : a.toNat / 16 = 0b1110 → rest.length < 2 →
      Breaks offset (a :: rest) (.truncated offset)

theorem Sequence.unitsFrom {s : Bytes} (h : Sequence s) :
    ∃ u, ∀ offset rest, ModifiedUtf8.unitsFrom offset (s ++ rest) =
      (do return u :: (← ModifiedUtf8.unitsFrom (offset + s.length) rest)) := by
  cases h with
  | one ha => exact ⟨_, unitsFrom_of_lt (by omega)⟩
  | two b ha => exact ⟨_, unitsFrom_of_two (by omega) b⟩
  | three b c ha => exact ⟨_, unitsFrom_of_three (by omega) b c⟩

theorem Breaks.unitsFrom {offset : Nat} {bytes : Bytes} {fault : Fault} (h : Breaks offset bytes fault) :
    ModifiedUtf8.unitsFrom offset bytes = .error fault := by
  cases h with
  | @invalid a rest ha =>
    obtain ⟨hone, htwo, hthree⟩ := first_byte_of a
    rw [ModifiedUtf8.unitsFrom.eq_def]
    dsimp only
    rw [if_neg (mt hone.mp (by omega)), if_neg (mt htwo.mp (by omega)), if_neg (mt hthree.mp (by omega))]
  | @two a ha =>
    obtain ⟨hone, htwo, -⟩ := first_byte_of a
    rw [ModifiedUtf8.unitsFrom.eq_def]
    dsimp only
    rw [if_neg (mt hone.mp (by omega)), if_pos (htwo.mpr (by omega))]
  | @three a rest ha hrest =>
    obtain ⟨hone, htwo, hthree⟩ := first_byte_of a
    rw [ModifiedUtf8.unitsFrom.eq_def]
    dsimp only
    rw [if_neg (mt hone.mp (by omega)), if_neg (mt htwo.mp (by omega)), if_pos (hthree.mpr (by omega))]
    cases rest with
    | nil => rfl
    | cons b rest =>
      cases rest with
      | nil => rfl
      | cons c rest =>
        rw [List.length_cons, List.length_cons] at hrest
        omega

/-- Bytes end, go on with a whole sequence, or break off. -/
theorem sequence_or_breaks (offset : Nat) (bytes : Bytes) :
    bytes = [] ∨ (∃ s rest, Sequence s ∧ bytes = s ++ rest) ∨ ∃ fault, Breaks offset bytes fault := by
  cases bytes with
  | nil => exact .inl rfl
  | cons a rest =>
    have hlt := a.toNat_lt
    right
    by_cases hone : a.toNat / 128 = 0b0
    · exact .inl ⟨[a], rest, .one hone, rfl⟩
    by_cases htwo : a.toNat / 32 = 0b110
    · cases rest with
      | nil => exact .inr ⟨_, .two htwo⟩
      | cons b rest => exact .inl ⟨[a, b], rest, .two b htwo, rfl⟩
    by_cases hthree : a.toNat / 16 = 0b1110
    · match rest with
      | [] => exact .inr ⟨_, .three hthree (by simp)⟩
      | [_] => exact .inr ⟨_, .three hthree (by simp)⟩
      | b :: c :: rest => exact .inl ⟨[a, b, c], rest, .three b c hthree, rfl⟩
    · exact .inr ⟨_, .invalid rest (by omega)⟩

/-- Reading fails exactly where the bytes break off after some whole sequences. -/
theorem unitsFrom_eq_error_iff {offset : Nat} {bytes : Bytes} {fault : Fault} :
    unitsFrom offset bytes = .error fault ↔ ∃ (whole : List Bytes) (rest : Bytes), (∀ s ∈ whole, Sequence s) ∧
      bytes = whole.flatten ++ rest ∧ Breaks (offset + whole.flatten.length) rest fault := by
  constructor
  · intro h
    induction hn : bytes.length using Nat.strongRecOn generalizing offset bytes with
    | ind n ih =>
      obtain rfl | ⟨s, rest, hs, rfl⟩ | ⟨fault', hbreaks⟩ := sequence_or_breaks offset bytes
      · cases h
      · obtain ⟨u, hu⟩ := hs.unitsFrom
        have hshort : rest.length < n := by
          rw [← hn, List.length_append]
          cases hs <;> simp
        have hrest : unitsFrom (offset + s.length) rest = .error fault := by
          rw [hu] at h
          cases hr : unitsFrom (offset + s.length) rest with
          | error e => rw [hr] at h; exact h
          | ok us => rw [hr] at h; cases h
        obtain ⟨whole, last, hwhole, rfl, hbreaks⟩ := ih rest.length hshort hrest rfl
        refine ⟨s :: whole, last, by simpa using ⟨hs, hwhole⟩, by simp, ?_⟩
        rw [List.flatten_cons, List.length_append, ← Nat.add_assoc]
        exact hbreaks
      · obtain rfl : fault' = fault := Except.error.inj (hbreaks.unitsFrom.symm.trans h)
        exact ⟨[], bytes, by simp, rfl, hbreaks⟩
  · rintro ⟨whole, rest, hwhole, rfl, hbreaks⟩
    induction whole generalizing offset with
    | nil => exact hbreaks.unitsFrom
    | cons s whole ih =>
      obtain ⟨u, hu⟩ := (hwhole s (by simp)).unitsFrom
      rw [List.flatten_cons, List.length_append, ← Nat.add_assoc] at hbreaks
      rw [List.flatten_cons, List.append_assoc, hu, ih (fun s hs => hwhole s (by simp [hs])) hbreaks]
      rfl

theorem decode_eq_error_iff {bytes : Bytes} {fault : Fault} :
    decode bytes = .error fault ↔ units bytes = .error fault := by
  rw [decode_eq_decodeUnits, decodeUnits]
  cases units bytes <;> simp [bind, Except.bind, pure, Except.pure]

/-- What reading makes of bytes. Units that were written one by one are read as the text whose units they are, once
each unpaired surrogate is replaced; so every text is read back. Leaving plain bytes whole changes nothing, whatever
the bytes are. Reading fails exactly if the bytes break off after some whole sequences, and says where and why. -/
theorem decode_units_and_faults (us : List Unit16) (text : String) (bytes : Bytes) (fault : Fault) :
    (decode (us.flatMap encodeUnit) = .ok text ↔ Utf16.encode text.toList = Utf16.mend us) ∧
      decode (encode text) = .ok text ∧
      decode bytes = decodeUnits bytes ∧
      (decode bytes = .error fault ↔ ∃ (whole : List Bytes) (rest : Bytes), (∀ s ∈ whole, Sequence s) ∧
        bytes = whole.flatten ++ rest ∧ Breaks whole.flatten.length rest fault) := by
  refine ⟨?_, decode_encode text, decode_eq_decodeUnits bytes, ?_⟩
  · rw [decode_flatMap_encodeUnit, Except.ok.injEq, ← Utf16.decode_eq_iff]
    constructor
    · rintro rfl
      rw [String.toList_ofList]
    · intro h
      rw [h, String.ofList_toList]
  · rw [decode_eq_error_iff, units, unitsFrom_eq_error_iff]
    simp only [Nat.zero_add]

end ModifiedUtf8
end Linkage
