import Linkage.Text.Digit

/-!
Integers of 64 bits as texts: a sign, a mark for the base, and digits that single underscores may part.
-/
namespace Linkage
namespace Text

/-- Why a text is no integer. -/
inductive IntegerFault where
  | malformed
  | outOfRange
deriving Repr, DecidableEq

def IntegerFault.message : IntegerFault → String
  | .malformed => "invalid syntax"
  | .outOfRange => "value out of range"

/-- Takes the mark for the base off: a zero alone marks base eight. -/
def baseOf : List Char → Nat × List Char
  | '0' :: mark :: c :: rest =>
    if mark = 'x' ∨ mark = 'X' then (16, c :: rest)
    else if mark = 'o' ∨ mark = 'O' then (8, c :: rest)
    else if mark = 'b' ∨ mark = 'B' then (2, c :: rest)
    else (8, mark :: c :: rest)
  | '0' :: rest => (8, rest)
  | cs => (10, cs)

/-- Adds digits to a number. A number that needs more than 64 bits is refused before the characters behind it are
looked at. -/
def addDigits (base : Nat) : List Char → Nat → Except IntegerFault Nat
  | [], n => .ok n
  | '_' :: rest, n => addDigits base rest n
  | c :: rest, n =>
    match digitValue? c with
    | none => .error .malformed
    | some d =>
      if base ≤ d then .error .malformed
      else if 0x10000000000000000 ≤ n * base + d then .error .outOfRange
      else addDigits base rest (n * base + d)

/-- Whether each underscore stands behind a digit, or the mark for the base, and in front of a digit. -/
def partsDigits : Bool → List Char → Bool
  | digit, [] => digit
  | digit, '_' :: rest => digit && partsDigits false rest
  | _, _ :: rest => partsDigits true rest

/-- Whether the underscores of a number without a sign part digits. -/
def underscoresFit (cs : List Char) : Bool :=
  !cs.contains '_' ||
    match cs with
    | '0' :: mark :: rest => partsDigits true (if "xXoObB".contains mark then rest else mark :: rest)
    | cs => partsDigits false cs

/-- Reads a number without a sign. -/
def unsigned (cs : List Char) : Except IntegerFault Nat := do
  if cs.isEmpty then throw .malformed
  let (base, digits) := baseOf cs
  let n ← addDigits base digits 0
  if underscoresFit cs then return n else throw .malformed

/-- Reads an integer of 64 bits. -/
def integer (s : String) : Except IntegerFault Int := do
  match s.toList with
  | '-' :: rest =>
    let n ← unsigned rest
    if 0x8000000000000000 < n then throw .outOfRange
    return -(n : Int)
  | cs =>
    let n ← unsigned (match cs with
      | '+' :: rest => rest
      | cs => cs)
    if 0x8000000000000000 ≤ n then throw .outOfRange
    return n

end Text

end Linkage
