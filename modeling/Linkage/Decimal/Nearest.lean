import Linkage.Decimal.Shortest

/-! The binary floating-point number nearest to a decimal, a tie going to the number with the even mantissa. -/
namespace Linkage
namespace Decimal

/-- The integer nearest to `num / den`, a tie going to the even one. -/
def roundHalfEven (num den : Nat) : Nat :=
  let below := num / den
  let rest := num % den
  if 2 * rest < den ∨ (2 * rest = den ∧ below % 2 = 0) then below else below + 1

/-- The largest `k` such that `2 ^ k` is at most `num / den`. -/
def binaryMagnitude (num den : Nat) : Int :=
  let k : Int := (num.log2 : Int) - den.log2
  if num <<< (-k).toNat < den <<< k.toNat then k - 1 else k

namespace BinaryFormat

/-- The least exponent of the mantissa's unit. -/
def lowest (f : BinaryFormat) : Int := 2 - (1 <<< (f.exponentBits - 1) : Nat) - f.fractionBits

/-- The bit pattern, without its sign, of the number nearest to `d`; none if that lies beyond the largest number.
A decimal far outside the range of the format is settled by its order of magnitude. -/
def nearest? (f : BinaryFormat) (d : Digits) : Option Nat :=
  let order := digitCount d.digits + d.exponent
  let bound : Int := (1 <<< f.exponentBits : Nat)
  if d.digits = 0 ∨ order < -bound then some 0
  else if bound < order then none
  else
    let num := d.digits * Nat.pow 10 d.exponent.toNat
    let den := Nat.pow 10 (-d.exponent).toNat
    let unit := max (binaryMagnitude num den - f.fractionBits) f.lowest
    let mantissa := roundHalfEven (num <<< (-unit).toNat) (den <<< unit.toNat)
    let bits := (unit - f.lowest).toNat <<< f.fractionBits + mantissa
    if bits < (1 <<< f.exponentBits - 1) <<< f.fractionBits then some bits else none

end BinaryFormat

end Decimal

end Linkage
