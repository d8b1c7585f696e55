/-! UTF-16 code units and the characters they spell. -/
namespace Linkage

/-- A UTF-16 code unit. -/
abbrev Unit16 := UInt16

namespace Utf16

def isHigh (u : Unit16) : Bool := 0xD800 ≤ u && u < 0xDC00
def isLow (u : Unit16) : Bool := 0xDC00 ≤ u && u < 0xE000

/-- The character of a surrogate pair. -/
def pair (high low : Unit16) : Char :=
  Char.ofNat ((high.toNat - 0xD800) * 0x400 + (low.toNat - 0xDC00) + 0x10000)

/-- Stands for a surrogate without its partner. -/
def replacement : Char := '\ufffd'

/-- The characters of a unit sequence; a surrogate without its partner becomes U+FFFD. -/
def decode : List Unit16 → List Char
  | [] => []
  | [u] => [single u]
  | u :: v :: rest =>
    if isHigh u && isLow v then pair u v :: decode rest
    else single u :: decode (v :: rest)
where
  single (u : Unit16) : Char := if isHigh u || isLow u then replacement else Char.ofNat u.toNat

/-- The units of one character. -/
def encodeChar (c : Char) : List Unit16 :=
  if c.toNat < 0x10000 then [UInt16.ofNat c.toNat]
  else
    let n := c.toNat - 0x10000
    [UInt16.ofNat (0xD800 + n / 0x400), UInt16.ofNat (0xDC00 + n % 0x400)]

def encode (cs : List Char) : List Unit16 := cs.flatMap encodeChar

end Utf16

end Linkage
