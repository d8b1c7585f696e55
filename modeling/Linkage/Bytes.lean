import Linkage.Text.Digit

/-! Byte strings, big-endian numbers and hexadecimal text. -/
namespace Linkage

/-- A byte string. -/
abbrev Bytes := List UInt8

namespace Bytes

/-- The number whose digits to base 256 are the bytes, most significant first. -/
def toNat (bs : Bytes) : Nat := bs.foldl (fun n b => 256 * n + b.toNat) 0

/-- The number whose digits to base 256 are the bytes, least significant first. -/
def toNatLE (bs : Bytes) : Nat := bs.foldr (fun b n => b.toNat + 256 * n) 0

/-- The last `width` digits of `n` to base 256, most significant first. -/
def ofNat : Nat → Nat → Bytes
  | 0, _ => []
  | width + 1, n => UInt8.ofNat (n >>> (8 * width)) :: ofNat width n

/-- The low `8 * width` bits of `n` in two's complement. -/
def ofInt (width : Nat) (n : Int) : Bytes := ofNat width (n % (1 <<< (8 * width) : Nat)).toNat

@[simp] theorem length_ofNat (width n : Nat) : (ofNat width n).length = width := by
  induction width with
  | zero => rfl
  | succ w ih => simp [ofNat, ih]

def hexDigit (n : Nat) : Char := (Nat.digitChar (n % 16))

/-- Two lower-case hexadecimal digits for each byte. -/
def toHex (bs : Bytes) : String :=
  String.ofList (bs.flatMap fun b => [hexDigit (b.toNat / 16), hexDigit b.toNat])

/-- The bytes that a hexadecimal text stands for. -/
def ofHex? (text : String) : Option Bytes := go text.toList
where
  go : List Char → Option Bytes
    | [] => some []
    | [_] => none
    | high :: low :: rest => do
      let h ← Text.digitValue? high
      let l ← Text.digitValue? low
      return UInt8.ofNat (16 * h + l) :: (← go rest)

end Bytes

/-- The signed number with the low `bits` bits of `n`, in two's complement. -/
def signed (bits n : Nat) : Int := (n : Int).bmod (1 <<< bits)

end Linkage
