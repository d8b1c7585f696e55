/-!
The shortest decimal that reads back as a given binary floating-point number: of all decimals that round to the number
the ones with the fewest digits, and of these the nearest one.
-/
namespace Linkage
namespace Decimal

/-- A binary interchange format by the sizes of its fields. -/
structure BinaryFormat where
  fractionBits : Nat
  exponentBits : Nat
deriving Repr, DecidableEq

def BinaryFormat.single : BinaryFormat := ⟨23, 8⟩
def BinaryFormat.double : BinaryFormat := ⟨52, 11⟩

/-- The number that a bit pattern stands for. -/
inductive Binary where
  | nan
  | infinite (negative : Bool)
  /-- The number `mantissa * 2 ^ exponent`. The numbers below it are twice as close as those above if `closeBelow`. -/
  | finite (negative : Bool) (mantissa : Nat) (exponent : Int) (closeBelow : Bool)
deriving Repr, DecidableEq

namespace BinaryFormat

/-- Splits a bit pattern into sign, exponent and fraction. -/
def decode (f : BinaryFormat) (bits : Nat) : Binary :=
  let fraction := bits % (1 <<< f.fractionBits)
  let biased := bits >>> f.fractionBits % (1 <<< f.exponentBits)
  let negative := decide (bits >>> (f.fractionBits + f.exponentBits) % 2 = 1)
  let lowest : Int := 2 - (1 <<< (f.exponentBits - 1) : Nat) - f.fractionBits
  if biased = 1 <<< f.exponentBits - 1 then
    if fraction = 0 then .infinite negative else .nan
  else if biased = 0 then .finite negative fraction lowest false
  else .finite negative (1 <<< f.fractionBits + fraction) (lowest + (biased - 1)) (decide (fraction = 0 ∧ 1 < biased))

end BinaryFormat

/-- A positive number `digits * 10 ^ exponent`. -/
structure Digits where
  digits : Nat
  exponent : Int
deriving Repr, DecidableEq

/-- The numerator and the denominator of `a * 2 ^ p / 10 ^ e`. -/
def fraction (a : Nat) (p e : Int) : Nat × Nat :=
  (a <<< p.toNat * Nat.pow 10 (-e).toNat, 1 <<< (-p).toNat * Nat.pow 10 e.toNat)

def digitCount (n : Nat) : Nat := (Nat.toDigits 10 n).length

/-- The largest `k` such that `10 ^ k` is at most `num / den`. -/
def magnitude (num den : Nat) : Int :=
  if den ≤ num then digitCount (num / den) - 1
  else
    let count := digitCount (den / num)
    if den ≤ num * Nat.pow 10 (count - 1) then -(count - 1 : Nat) else -(count : Nat)

/-- A decimal with `count` digits that rounds to `m * 2 ^ p`, if there is one. The decimals that round to it lie
between its midpoints with its neighbours; an odd `m` excludes the midpoints. -/
def candidate? (m : Nat) (p : Int) (closeBelow : Bool) (k : Int) (count : Nat) : Option Digits :=
  let e := k - count + 1
  let (num, den) := fraction (4 * m) (p - 2) e
  let unit := (fraction 1 (p - 2) e).1
  let low := num - (if closeBelow then 1 else 2) * unit
  let high := num + 2 * unit
  let inside (c : Nat) : Bool :=
    if m % 2 = 0 then low ≤ c * den && c * den ≤ high else low < c * den && c * den < high
  let below := num / den
  let above := below + 1
  let nearBelow := 2 * (num - below * den) < den || (2 * (num - below * den) == den && below % 2 == 0)
  match inside below && below != 0, inside above with
  | true, true => some ⟨if nearBelow then below else above, e⟩
  | true, false => some ⟨below, e⟩
  | false, true => some ⟨above, e⟩
  | false, false => none

/-- Drops trailing zeros; `fuel` bounds their number. -/
def trimZeros : Nat → Digits → Digits
  | 0, d => d
  | fuel + 1, d => if d.digits ≠ 0 ∧ d.digits % 10 = 0 then trimZeros fuel ⟨d.digits / 10, d.exponent + 1⟩ else d

/-- The shortest decimal that rounds to the positive number `m * 2 ^ p`. Seventeen digits always suffice. -/
def shortest (m : Nat) (p : Int) (closeBelow : Bool) : Digits :=
  let (num, den) := fraction m p 0
  let k := magnitude num den
  match (List.range' 1 17).findSome? (candidate? m p closeBelow k) with
  | some d => trimZeros 17 d
  | none => ⟨m, p⟩

/-- Where a decimal changes to exponent notation and how that is written. -/
structure Style where
  /-- Decimal exponents from here on are written out. -/
  lowest : Int
  /-- Decimal exponents below this one are written out. -/
  highest : Int
  /-- The least number of digits of an exponent. -/
  exponentWidth : Nat

def padded (width n : Nat) : String :=
  let digits := Nat.repr n
  String.ofList (List.replicate (width - digits.length) '0') ++ digits

/-- Writes a positive decimal. -/
def Style.render (style : Style) (d : Digits) : String :=
  let digits := Nat.toDigits 10 d.digits
  let exponent := d.exponent + digits.length - 1
  if exponent < style.lowest ∨ style.highest ≤ exponent then
    let tail := digits.drop 1
    let point := if tail.isEmpty then [] else '.' :: tail
    let sign := if exponent < 0 then "-" else "+"
    String.ofList (digits.take 1 ++ point) ++ "e" ++ sign ++ padded style.exponentWidth exponent.natAbs
  else if exponent < 0 then
    String.ofList ('0' :: '.' :: List.replicate (-exponent - 1).toNat '0' ++ digits)
  else
    let whole := digits.take (exponent.toNat + 1)
    let zeros := List.replicate (exponent.toNat + 1 - digits.length) '0'
    let tail := digits.drop (exponent.toNat + 1)
    String.ofList (whole ++ zeros ++ if tail.isEmpty then [] else '.' :: tail)

end Decimal
end Linkage
