import Linkage.Text.Utf16
import Linkage.Text.Utf8
import Linkage.Yaml.Glyph
import Linkage.Yaml.Token

/-!
Decoding a YAML stream. A stream is decoded piece by piece, as far as its reader gets: what is wrong with a piece does
not matter to a reader that stops before it.
-/
namespace Linkage
namespace Yaml

/-- How the characters of a stream are written. -/
inductive Encoding where
  | utf8
  | utf16 (lowFirst : Bool)
deriving Repr, DecidableEq

/-- What bytes start with. -/
inductive Start where
  | char (c : Char) (length : Nat)
  /-- The start of a character that needs more bytes. -/
  | incomplete
  | invalid
deriving Repr, DecidableEq

namespace Encoding

/-- The encoding that a byte order mark tells, and the length of the mark. -/
def detect : Bytes → Encoding × Nat
  | 0xFF :: 0xFE :: _ => (.utf16 true, 2)
  | 0xFE :: 0xFF :: _ => (.utf16 false, 2)
  | 0xEF :: 0xBB :: 0xBF :: _ => (.utf8, 3)
  | _ => (.utf8, 0)

/-- The length of a character in UTF-8 that the first byte tells, zero if it is none. -/
def width (b : UInt8) : Nat :=
  if b < 0x80 then 1
  else if b &&& 0xE0 == 0xC0 then 2
  else if b &&& 0xF0 == 0xE0 then 3
  else if b &&& 0xF8 == 0xF0 then 4
  else 0

def startUtf8 (data : Bytes) : Start :=
  match data with
  | [] => .incomplete
  | b :: _ =>
    if (data.take (width b)).length < width b then .incomplete
    else
      match Text.firstChar? data with
      | some (c, n) => .char c n
      | none => .invalid

/-- The code unit that bytes start with. -/
def unit? (lowFirst : Bool) : Bytes → Option Unit16
  | a :: b :: _ => some (UInt16.ofNat (Bytes.toNat (if lowFirst then [b, a] else [a, b])))
  | _ => none

def startUtf16 (lowFirst : Bool) (data : Bytes) : Start :=
  match unit? lowFirst data with
  | none => .incomplete
  | some u =>
    if Utf16.isHigh u then
      match unit? lowFirst (data.drop 2) with
      | none => .incomplete
      | some v => if Utf16.isLow v then .char (Utf16.pair u v) 4 else .invalid
    else if Utf16.isLow u then .invalid
    else .char (Char.ofNat u.toNat) 2

def start : Encoding → Bytes → Start
  | .utf8 => startUtf8
  | .utf16 lowFirst => startUtf16 lowFirst

/-- Decodes a piece of a stream; `read` is what has been read of it, in reverse. Answers its characters and what is
left: the start of a character. Every character takes a byte, so `fuel` need not exceed their number. -/
def decode (e : Encoding) : Nat → List Char → Bytes → Except Fault (List Char × Bytes)
  | 0, read, data => .ok (read.reverse, data)
  | fuel + 1, read, data =>
    match e.start data with
    | .incomplete => .ok (read.reverse, data)
    | .invalid => .error .encoding
    | .char c n => if isAllowed c then decode e fuel (c :: read) (data.drop n) else .error .controlCharacter

/-- The number of bytes in a piece. -/
def pieceSize : Nat := 512

/-- Decodes pieces, the first with the given room, up to the first that is not sound; `fuel` bounds their number. -/
def pieces (e : Encoding) : Nat → Nat → Bytes → List (List Char) × Option Fault
  | 0, _, _ => ([], none)
  | fuel + 1, room, data =>
    match e.decode (room + 1) [] (data.take room) with
    | .error fault => ([], some fault)
    | .ok (cs, left) =>
      let further := data.drop room
      if further.isEmpty then ([cs], if left.isEmpty then none else some .encoding)
      else
        let (more, fault) := pieces e fuel pieceSize (left ++ further)
        (cs :: more, fault)

end Encoding

/-- What a reader finds in a stream. -/
structure Stream where
  glyphs : List Glyph
  /-- What is wrong with the piece behind the glyphs, if anything. -/
  fault : Option Fault
  /-- Where a second byte order mark follows the first, the first character of a line before this index does not count,
  whatever it is. -/
  margin : Nat

/-- Decodes a stream. An empty one has an empty line. -/
def Stream.decode (data : Bytes) : Stream :=
  let data := if data.isEmpty then [0x0A] else data
  let (encoding, mark) := Encoding.detect data
  let (pieces, fault) := encoding.pieces (data.length + 1) (Encoding.pieceSize - mark) (data.drop mark)
  let chars := pieces.flatten
  let marked := chars.head? == some '\ufeff'
  ⟨Glyph.place chars, fault, if marked then (pieces.head?.elim 0 List.length) - 2 else 0⟩

end Yaml

end Linkage
