import Linkage.Bytes
import Linkage.Text.Utf16

/-!
The text encoding of class files: every UTF-16 unit is written by itself in one, two or three bytes, and NUL
takes two. Reading does not look at the upper bits of continuation bytes.
-/
namespace Linkage
namespace ModifiedUtf8

/-- Why bytes are not a text. -/
inductive Fault where
  /-- The bytes end inside the sequence that starts here. -/
  | truncated (offset : Nat)
  /-- No sequence starts with this byte. -/
  | invalid (byte : UInt8) (offset : Nat)
deriving Repr, DecidableEq

namespace Fault

def message : Fault → String
  | .truncated offset => s!"truncated sequence at {offset}"
  | .invalid byte offset =>
    s!"invalid byte 0x{String.ofList (Nat.toDigits 16 byte.toNat)} at {offset}"

end Fault

def unit2 (a b : UInt8) : Unit16 := (a &&& 0x1F).toUInt16 <<< 6 ||| (b &&& 0x3F).toUInt16

def unit3 (a b c : UInt8) : Unit16 :=
  (a &&& 0x0F).toUInt16 <<< 12 ||| (b &&& 0x3F).toUInt16 <<< 6 ||| (c &&& 0x3F).toUInt16

/-- The units of `bytes`, the first of which stands at `offset`. -/
def unitsFrom (offset : Nat) : Bytes → Except Fault (List Unit16)
  | [] => .ok []
  | a :: rest =>
    if a &&& 0x80 = 0 then do
      return a.toUInt16 :: (← unitsFrom (offset + 1) rest)
    else if a &&& 0xE0 = 0xC0 then
      match rest with
      | b :: rest => do return unit2 a b :: (← unitsFrom (offset + 2) rest)
      | [] => .error (.truncated offset)
    else if a &&& 0xF0 = 0xE0 then
      match rest with
      | b :: c :: rest => do return unit3 a b c :: (← unitsFrom (offset + 3) rest)
      | _ => .error (.truncated offset)
    else .error (.invalid a offset)

def units (bytes : Bytes) : Except Fault (List Unit16) := unitsFrom 0 bytes

/-- The text that the units of `bytes` spell. -/
def decodeUnits (bytes : Bytes) : Except Fault String := do
  return String.ofList (Utf16.decode (← units bytes))

/-- A byte that is a character by itself. -/
def isPlain (b : UInt8) : Bool := b != 0 && b < 0x80

/-- The text whose characters are the bytes. -/
def plainText (bytes : Bytes) : String := String.ofList (bytes.map fun b => Char.ofNat b.toNat)

/-- The text of `bytes`. Plain bytes, which most texts consist of, are not taken apart into units. -/
def decode (bytes : Bytes) : Except Fault String :=
  if bytes.all isPlain then .ok (plainText bytes) else decodeUnits bytes

def encodeUnit (u : Unit16) : Bytes :=
  if u ≠ 0 ∧ u < 0x80 then [u.toUInt8]
  else if u < 0x800 then [(u >>> 6).toUInt8 ||| 0xC0, tail u]
  else [(u >>> 12).toUInt8 ||| 0xE0, tail (u >>> 6), tail u]
where
  tail (u : Unit16) : UInt8 := (u &&& 0x3F).toUInt8 ||| 0x80

/-- The encoding of a text. -/
def encode (text : String) : Bytes := (Utf16.encode text.toList).flatMap encodeUnit

end ModifiedUtf8
end Linkage
