import Linkage.Archive.Crc32
import Linkage.Archive.Deflate
import Linkage.Text.Utf8

/-!
Zip archives. The directory stands at the end, and anything may stand before the archive. Entries are listed in the
order of the directory and are checked when they are read.
-/
namespace Linkage
namespace Archive

/-- Why an archive or one of its entries cannot be read. -/
inductive ZipFault where
  | format
  | algorithm
  | checksum
  | unexpectedEnd
  | endOfData
  | negativeOffset
  | corrupt (offset : Nat)
deriving Repr, DecidableEq

namespace ZipFault

def message : ZipFault → String
  | .format => "zip: not a valid zip file"
  | .algorithm => "zip: unsupported compression algorithm"
  | .checksum => "zip: checksum error"
  | .unexpectedEnd => "unexpected EOF"
  | .endOfData => "EOF"
  | .negativeOffset => "bytes.Reader.ReadAt: negative offset"
  | .corrupt offset => "flate: corrupt input before offset " ++ toString offset

end ZipFault

/-- An entry of the directory. -/
structure ZipEntry where
  name : String
  isDirectory : Bool
  flags : Nat
  method : Nat
  crc : Nat
  packedSize : Nat
  size : Nat
  /-- Where the entry itself starts. -/
  offset : Int
deriving Repr, DecidableEq

namespace Zip

/-- The number in `width` bytes at an offset, the lowest byte first. -/
def number (data : Bytes) (offset width : Nat) : Nat := Bytes.toNatLE ((data.drop offset).take width)

/-- Exactly `n` bytes. Nothing at all is told apart from too little. -/
def readFull (n : Nat) (data : Bytes) : Except ZipFault (Bytes × Bytes) :=
  let taken := data.take n
  if taken.length = n then .ok (taken, data.drop n)
  else if taken.isEmpty then .error .endOfData
  else .error .unexpectedEnd

/-- Whether the attributes say that an entry is a directory, as the system that made it writes them. -/
def attributesTellDirectory (system attributes : Nat) : Bool :=
  if system = 3 ∨ system = 19 then attributes / 0x10000 / 0x1000 % 16 == 4
  else if system = 0 ∨ system = 11 ∨ system = 14 then attributes / 0x10 % 2 == 1
  else false

/-- What 32 bits hold in place of a number that needs more. -/
def large : Nat := 0xffffffff

/-- Sizes and offset that stand in the first block of wide numbers, in order, for those that are large; `fuel` bounds
the number of blocks. -/
def widen : Nat → Bytes → List Nat → Except ZipFault (List Nat)
  | 0, _, values => .ok values
  | fuel + 1, extra, values =>
    let size := number extra 2 2
    let block := (extra.drop 4).take size
    if extra.length < 4 ∨ block.length < size then .ok values
    else if number extra 0 2 = 1 then
      let step (state : List Nat × Bytes) (v : Nat) : Except ZipFault (List Nat × Bytes) :=
        if v = large then
          if state.2.length < 8 then .error .format
          else .ok (state.1 ++ [number state.2 0 8], state.2.drop 8)
        else .ok (state.1 ++ [v], state.2)
      (values.foldlM step ([], block)).map (·.1)
    else widen fuel (extra.drop (4 + size)) values

/-- Reads an entry of the directory. -/
def readHeader (data : Bytes) : Except ZipFault (ZipEntry × Bytes) := do
  let (h, rest) ← readFull 46 data
  if number h 0 4 ≠ 0x02014b50 then throw .format
  let nameLength := number h 28 2
  let extraLength := number h 30 2
  let tail := nameLength + extraLength + number h 32 2
  let (d, rest) ← if tail = 0 then pure ([], rest) else readFull tail rest
  let name := Text.decodeUtf8 (d.take nameLength)
  let extra := (d.drop nameLength).take extraLength
  let wide ← widen (extraLength + 1) extra [number h 24 4, number h 20 4, number h 42 4]
  match wide with
  | [size, packedSize, offset] =>
    if packedSize = large then throw .format
    return (⟨name, attributesTellDirectory (number h 5 1) (number h 38 4) || name.endsWith "/", number h 8 2,
      number h 10 2, number h 16 4, packedSize, size, offset⟩, rest)
  | _ => throw .format

/-- The position of the last end record in a block. -/
def lastEnd (i : Nat) (best : Option Nat) : Bytes → Option Nat
  | [] => best
  | b :: rest =>
    let found := b == 0x50 && rest.take 3 == [0x4b, 0x05, 0x06] && 21 ≤ rest.length
    lastEnd (i + 1) (if found then some i else best) rest

/-- The position of the end record, searched in the last bytes first. Its comment has to be complete. -/
def findEnd (data : Bytes) : Option Nat :=
  [1024, 65 * 1024].findSome? fun reach =>
    let start := data.length - reach
    let block := data.drop start
    (lastEnd 0 none block).bind fun i =>
      if i + 22 + number block (i + 20) 2 ≤ block.length then some (start + i) else none

/-- Where the directory is and how many entries it has. -/
structure Directory where
  /-- Where its end record starts. -/
  endOffset : Int
  records : Nat
  size : Nat
  offset : Nat

/-- The directory as an end record with wide numbers tells it. -/
def wideDirectory (data : Bytes) (d : Directory) : Except ZipFault Directory :=
  let start := d.endOffset.toNat
  let locator := (data.drop (start - 20)).take 20
  if start < 20 ∨ number locator 0 4 ≠ 0x07064b50 ∨ number locator 4 4 ≠ 0 ∨ number locator 16 4 ≠ 1 then .ok d
  else
    let position := number locator 8 8
    if 0x8000000000000000 ≤ position then .ok d
    else
      let record := (data.drop position).take 56
      if record.length < 56 then .error .endOfData
      else if number record 0 4 ≠ 0x06064b50 then .error .format
      else .ok ⟨position, number record 32 8, number record 40 8, number record 48 8⟩

/-- Finds the directory and the offset at which the archive starts. -/
def findDirectory (data : Bytes) : Except ZipFault (Directory × Int) := do
  match findEnd data with
  | none => throw .format
  | some i =>
    let d : Directory := ⟨i, number data (i + 10) 2, number data (i + 12) 4, number data (i + 16) 4⟩
    let d ← if d.records = 0xffff ∨ d.size = 0xffff ∨ d.offset = large then wideDirectory data d else pure d
    if 0x8000000000000000 ≤ d.size ∨ 0x8000000000000000 ≤ d.offset then throw .format
    let base := d.endOffset - d.size - d.offset
    let start := base + d.offset
    if start < 0 ∨ (data.length : Int) ≤ start then throw .format
    if 0 < base ∧ (readHeader (data.drop d.offset)).toOption.isSome then return (d, 0)
    return (d, base)

/-- Reads entries up to what is none, and answers why it is none; `fuel` bounds their number. -/
def readHeaders (base : Int) : Nat → Bytes → List ZipEntry × ZipFault
  | 0, _ => ([], .unexpectedEnd)
  | fuel + 1, data =>
    match readHeader data with
    | .error fault => ([], fault)
    | .ok (entry, rest) =>
      let (entries, fault) := readHeaders base fuel rest
      ({ entry with offset := entry.offset + base } :: entries, fault)

/-- The entries of an archive. Their number is only told up to multiples of 65536. -/
def entries (data : Bytes) : Except ZipFault (List ZipEntry) := do
  let (d, base) ← findDirectory data
  let (entries, fault) := readHeaders base (data.length + 1) (data.drop (base + d.offset).toNat)
  if fault = .endOfData ∨ entries.length % 65536 ≠ d.records % 65536 then throw fault
  return entries

/-- Where the data of an entry starts. -/
def bodyOffset (data : Bytes) (e : ZipEntry) : Except ZipFault Nat := do
  if e.offset < 0 then throw .negativeOffset
  let h := (data.drop e.offset.toNat).take 30
  if h.length < 30 then throw .endOfData
  if number h 0 4 ≠ 0x04034b50 then throw .format
  return e.offset.toNat + 30 + number h 26 2 + number h 28 2

/-- Checks what stands behind the data of an entry: the checksum, after an optional mark. -/
def checkDescriptor (data : Bytes) (crc : Nat) : Except ZipFault Unit := do
  let short (fault : ZipFault) : ZipFault := if fault = .endOfData then .unexpectedEnd else fault
  let (first, rest) ← (readFull 4 (data.take 16)).mapError short
  let rest := if number first 0 4 = 0x08074b50 then rest else first ++ rest
  let (sums, _) ← (readFull 12 rest).mapError short
  if number sums 0 4 ≠ crc then throw .checksum

/-- Reads an entry. Its size has to be the announced one. A checksum of zero is checked only if it stands behind the
data. -/
def read (data : Bytes) (e : ZipEntry) : Except ZipFault Bytes := do
  let start ← bodyOffset data e
  let packed := (data.drop start).take e.packedSize
  let (outcome, content) ←
    if e.method = 0 then pure (.ok (), packed)
    else if e.method = 8 then pure (Deflate.unpack packed)
    else throw .algorithm
  if e.size < content.length then throw .format
  match outcome with
  | .error (.corrupt offset) => throw (.corrupt offset)
  | .error .unexpectedEnd => throw .unexpectedEnd
  | .ok () =>
    if content.length < e.size then throw .unexpectedEnd
    let sum := (crc32 content).toNat
    if e.flags / 8 % 2 = 1 then
      checkDescriptor (data.drop (start + e.packedSize)) e.crc
      if sum ≠ e.crc then throw .checksum
    else if e.crc ≠ 0 ∧ sum ≠ e.crc then throw .checksum
    return content

end Zip

end Archive

end Linkage
