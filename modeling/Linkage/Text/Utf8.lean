import Linkage.Bytes

/-! Texts in UTF-8. A byte that does not belong to a character reads as the replacement character. -/
namespace Linkage
namespace Text

def encodeUtf8 (s : String) : Bytes := s.toUTF8.toList

def isContinuation (b : UInt8) : Bool := b &&& 0xC0 == 0x80

/-- The character whose number has the given digits to base 64, unless a shorter form or no character has it. -/
def charOfDigits? (least : Nat) (digits : List Nat) : Option Char :=
  let n := digits.foldl (fun n d => 64 * n + d) 0
  let c := Char.ofNat n
  if least ≤ n ∧ c.toNat = n then some c else none

/-- The character that the bytes start with, and its length. -/
def firstChar? : Bytes → Option (Char × Nat)
  | [] => none
  | a :: rest =>
    let tail (n : Nat) : Option (List Nat) :=
      let bs := rest.take n
      if bs.length = n ∧ bs.all isContinuation then some (bs.map fun b => b.toNat % 64) else none
    let wide (lead least n : Nat) : Option (Char × Nat) :=
      ((tail n).bind fun digits => charOfDigits? least (lead :: digits)).map (·, n + 1)
    if a < 0x80 then some (Char.ofNat a.toNat, 1)
    else if a &&& 0xE0 == 0xC0 then wide (a.toNat % 32) 0x80 1
    else if a &&& 0xF0 == 0xE0 then wide (a.toNat % 16) 0x800 2
    else if a &&& 0xF8 == 0xF0 then wide (a.toNat % 8) 0x10000 3
    else none

/-- Reads characters up to the end; `fuel` bounds their number. -/
def decodeUtf8Within : Nat → Bytes → List Char
  | 0, _ => []
  | _, [] => []
  | fuel + 1, b :: rest =>
    match firstChar? (b :: rest) with
    | some (c, n) => c :: decodeUtf8Within fuel ((b :: rest).drop n)
    | none => '\ufffd' :: decodeUtf8Within fuel rest

def decodeUtf8 (data : Bytes) : String := String.ofList (decodeUtf8Within data.length data)

end Text

end Linkage
