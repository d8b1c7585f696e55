import Linkage.Bytes

/-! Bytes written in base 64, four characters for three bytes. -/
namespace Linkage
namespace Text

/-- The value of a digit to base 64. -/
def digit64? (c : Char) : Option Nat :=
  if 'A' ≤ c ∧ c ≤ 'Z' then some (c.toNat - 'A'.toNat)
  else if 'a' ≤ c ∧ c ≤ 'z' then some (c.toNat - 'a'.toNat + 26)
  else if '0' ≤ c ∧ c ≤ '9' then some (c.toNat - '0'.toNat + 52)
  else if c = '+' then some 62
  else if c = '/' then some 63
  else none

/-- The first `width` bytes of three that four digits tell. -/
def bytes64? (width : Nat) (digits : List Char) : Option Bytes :=
  (digits.mapM digit64?).map fun values => (Bytes.ofNat 3 (values.foldl (fun n v => 64 * n + v) 0)).take width

/-- Reads groups of four digits. The last group is filled up with one or two equality signs. -/
def groups64? : List Char → Option Bytes
  | [] => some []
  | [a, b, '=', '='] => bytes64? 1 [a, b, 'A', 'A']
  | [a, b, c, '='] => bytes64? 2 [a, b, c, 'A']
  | a :: b :: c :: d :: rest => do return (← bytes64? 3 [a, b, c, d]) ++ (← groups64? rest)
  | _ => none

/-- The bytes that a text in base 64 stands for. Line ends are left out. -/
def decode64? (s : String) : Option Bytes := groups64? (s.toList.filter fun c => c != '\n' && c != '\r')

end Text

end Linkage
