import Mathlib.Algebra.Group.Int.Defs
import Mathlib.Algebra.Group.Nat.Defs
import Mathlib.Data.List.Forall2
import Linkage.Bytes.Cursor
import Linkage.Jvm.Layout

/-!
Reading what has been written. `Reads` says that a step takes exactly the given bytes, whatever follows them and
wherever they stand; such steps compose as the bytes are strung together.
-/
namespace Linkage

namespace Bytes

theorem ofNat_succ (width n : Nat) : ofNat (width + 1) n = UInt8.ofNat (n / 256 ^ width) :: ofNat width n := by
  rw [ofNat, Nat.shiftRight_eq_div_pow, Nat.pow_mul]

theorem ofInt_eq (width : Nat) (n : Int) : ofInt width n = ofNat width (n % (256 ^ width : Nat)).toNat := by
  rw [ofInt, Nat.one_shiftLeft, Nat.pow_mul]

theorem foldl_ofNat (width n start : Nat) :
    (ofNat width n).foldl (fun m b => 256 * m + b.toNat) start = start * 256 ^ width + n % 256 ^ width := by
  induction width generalizing start with
  | zero => simp [ofNat, Nat.mod_one]
  | succ width ih =>
    have hbyte : (UInt8.ofNat (n / 256 ^ width)).toNat = n / 256 ^ width % 256 := by simp
    rw [ofNat_succ, List.foldl_cons, ih, hbyte, Nat.mod_pow_succ, Nat.pow_succ, Nat.add_mul]
    have hcomm : n / 256 ^ width % 256 * 256 ^ width = 256 ^ width * (n / 256 ^ width % 256) := Nat.mul_comm ..
    have hassoc : 256 * start * 256 ^ width = start * (256 ^ width * 256) := by
      rw [Nat.mul_comm 256 start, Nat.mul_assoc, Nat.mul_comm 256]
    omega

theorem toNat_ofNat {width n : Nat} (h : n < 256 ^ width) : (ofNat width n).toNat = n := by
  rw [toNat, foldl_ofNat, Nat.mod_eq_of_lt h, Nat.zero_mul, Nat.zero_add]

@[simp] theorem length_ofInt (width : Nat) (n : Int) : (ofInt width n).length = width := length_ofNat width _

theorem ofInt_natCast {width n : Nat} (h : n < 256 ^ width) : ofInt width n = ofNat width n := by
  rw [ofInt_eq, ← Int.natCast_emod, Int.toNat_natCast, Nat.mod_eq_of_lt h]

/-- A number in two's complement is read back as it was. -/
theorem signed_toNat_ofInt {width : Nat} {n : Int} (hlow : -(2 ^ (8 * width) : Nat) ≤ n * 2)
    (hhigh : n * 2 < (2 ^ (8 * width) : Nat)) : signed (8 * width) (ofInt width n).toNat = n := by
  have hpow : (256 : Nat) ^ width = 2 ^ (8 * width) := by rw [Nat.pow_mul]
  have hpos : (0 : Int) < (256 ^ width : Nat) := by exact_mod_cast Nat.pow_pos (by decide)
  have hnonneg := Int.emod_nonneg n (Int.ne_of_gt hpos)
  have hlt := Int.emod_lt_of_pos n hpos
  rw [ofInt_eq, toNat_ofNat (by omega), signed, Nat.one_shiftLeft, Int.toNat_of_nonneg hnonneg, hpow, Int.emod_bmod]
  exact Int.bmod_eq_of_le_mul_two hlow hhigh

end Bytes

namespace Cursor

variable {n pos : Nat} {data : Bytes}

theorem bytes_of_le (h : n ≤ data.length) :
    bytes n ⟨pos, data, none⟩ = (data.take n, ⟨pos + n, data.drop n, none⟩) := by
  simp [bytes, h]

theorem bytes_of_lt (h : data.length < n) :
    bytes n ⟨pos, data, none⟩ = ([], ⟨pos, data, some ⟨n, pos, data.length⟩⟩) := by
  have hmin : min n data.length ≠ n := by omega
  simp [bytes, hmin]

end Cursor

theorem Cursor.number_append {width n : Nat} (h : n < 256 ^ width) (pos : Nat) (rest : Bytes) :
    number width ⟨pos, Bytes.ofNat width n ++ rest, none⟩ = (n, ⟨pos + width, rest, none⟩) := by
  have hlen : (Bytes.ofNat width n).length = width := Bytes.length_ofNat width n
  simp [number, bytes, List.take_left' hlen, List.drop_left' hlen, hlen, Bytes.toNat_ofNat h]

namespace Scan

variable {ε α β : Type}

/-- The step takes exactly these bytes and gives this value. -/
def Reads (p : Scan ε α) (bs : Bytes) (a : α) : Prop :=
  ∀ pos rest, p ⟨pos, bs ++ rest, none⟩ = .ok (a, ⟨pos + bs.length, rest, none⟩)

theorem reads_pure (a : α) : Reads (pure a : Scan ε α) [] a := fun _ _ => rfl

theorem Reads.bind {p : Scan ε α} {f : α → Scan ε β} {bs cs : Bytes} {a : α} {b : β} (hp : Reads p bs a)
    (hf : Reads (f a) cs b) : Reads (p >>= f) (bs ++ cs) b := by
  intro pos rest
  have h : (p >>= f) ⟨pos, bs ++ cs ++ rest, none⟩ = f a ⟨pos + bs.length, cs ++ rest, none⟩ := by
    rw [List.append_assoc]
    change (p ⟨pos, bs ++ (cs ++ rest), none⟩ >>= fun r => f r.1 r.2) = _
    rw [hp]
    rfl
  rw [h, hf, List.length_append, Nat.add_assoc]

/-- A last step that takes nothing. -/
theorem Reads.bind_nil {p : Scan ε α} {f : α → Scan ε β} {bs : Bytes} {a : α} {b : β} (hp : Reads p bs a)
    (hf : Reads (f a) [] b) : Reads (p >>= f) bs b := by
  simpa using hp.bind hf

theorem Reads.mapError {δ : Type} {p : Scan ε α} {bs : Bytes} {a : α} (h : Reads p bs a) (f : ε → δ) :
    Reads (Scan.mapError f p) bs a := by
  intro pos rest
  rw [Scan.mapError, h]
  rfl

variable [OfTruncation ε]

theorem reads_bytes (bs : Bytes) : Reads (bytes bs.length : Scan ε Bytes) bs bs := by
  intro pos rest
  simp [bytes, ofRead, Cursor.bytes]

theorem reads_number {width n : Nat} (h : n < 256 ^ width) :
    Reads (ofRead (Cursor.number width) : Scan ε Nat) (Bytes.ofNat width n) n := by
  intro pos rest
  rw [ofRead, Cursor.number_append h, Bytes.length_ofNat]

theorem reads_u1 {n : Nat} (h : n < 256) : Reads (u1 : Scan ε Nat) (u1Bytes n) n := reads_number h

theorem reads_u2 {n : Nat} (h : n < 65536) : Reads (u2 : Scan ε Nat) (u2Bytes n) n := reads_number h

theorem reads_u4 {n : Nat} (h : n < 2 ^ 32) : Reads (u4 : Scan ε Nat) (u4Bytes n) n := reads_number h

omit [OfTruncation ε] in
theorem reads_timesFrom {ι : Type} {step : Nat → Scan ε α} {encode : ι → Bytes} {items : List ι} {values : List α}
    (h : List.Forall₂ (fun item a => ∀ i, Reads (step i) (encode item) a) items values) (i : Nat) :
    Reads (timesFrom step i items.length) (items.flatMap encode) values := by
  induction h generalizing i with
  | nil => exact reads_pure []
  | cons hitem _ ih =>
    rw [List.flatMap_cons]
    exact (hitem i).bind ((ih (i + 1)).bind_nil (reads_pure _))

omit [OfTruncation ε] in
theorem reads_times {ι : Type} {step : Nat → Scan ε α} {encode : ι → Bytes} {items : List ι} {values : List α}
    (h : List.Forall₂ (fun item a => ∀ i, Reads (step i) (encode item) a) items values) :
    Reads (times items.length step) (items.flatMap encode) values :=
  reads_timesFrom h 0

end Scan

end Linkage
