import Linkage.Bytes
import Linkage.Run

/-!
Unpacking deflated data: blocks of bytes as they are, or of codes for bytes and for repetitions of earlier output.
Input is taken byte by byte and only when its bits are needed, so a fault is found at a definite offset.
-/
namespace Linkage
namespace Archive
namespace Deflate

/-- Why data cannot be unpacked. -/
inductive Fault where
  | corrupt (offset : Nat)
  | unexpectedEnd
deriving Repr, DecidableEq

/-- The input that is left, the bits taken from it and not used, and the output. -/
structure Stream where
  rest : Bytes
  offset : Nat := 0
  bits : Nat := 0
  count : Nat := 0
  out : Array UInt8 := #[]

abbrev Inflate := Run Stream Fault

def corrupt {α : Type} : Inflate α := do throw (.corrupt (← get).offset)

/-- Takes one more byte of the input. -/
def moreBits : Inflate Unit := do
  let s ← get
  match s.rest with
  | [] => throw .unexpectedEnd
  | b :: rest =>
    set { s with rest, offset := s.offset + 1, bits := s.bits + b.toNat <<< s.count, count := s.count + 8 }

/-- Takes input until `n` bits are there; `fuel` bounds the number of bytes. -/
def fillWithin (n : Nat) : Nat → Inflate Unit
  | 0 => pure ()
  | fuel + 1 => do
    if (← get).count < n then
      moreBits
      fillWithin n fuel

def fill (n : Nat) : Inflate Unit := fillWithin n n

def dropBits (n : Nat) : Inflate Unit := modify fun s => { s with bits := s.bits >>> n, count := s.count - n }

/-- The next `n` bits as a number, the lowest first. -/
def takeBits (n : Nat) : Inflate Nat := do
  fill n
  let value := (← get).bits % (1 <<< n)
  dropBits n
  return value

/-- The longest code in bits. -/
def longest : Nat := 15

/-- A canonical code: shorter codes come before longer ones and, of one length, smaller symbols before larger. -/
structure Code where
  /-- The number of codes of one bit, of two bits and so on. -/
  counts : List Nat
  /-- The symbols in the order of their codes. -/
  symbols : Array Nat
  /-- The number of bits that are there before a code is looked up. -/
  least : Nat

namespace Code

/-- The code with the given lengths, where zero is for a symbol without a code. Every string of bits has to start with
a code, unless there is none or a single code of one bit. -/
def ofLengths? (lengths : List Nat) : Option Code :=
  let widths := (List.range longest).map (· + 1)
  let counts := widths.map fun w => lengths.count w
  let used : Nat := (widths.zip counts).foldl (fun n (w, c) => n + c <<< (longest - w)) 0
  let total : Nat := counts.foldl (· + ·) 0
  let numbered := (List.range lengths.length).zip lengths
  let symbols := widths.flatMap fun w => (numbered.filter (·.2 == w)).map (·.1)
  if used = 1 <<< longest ∨ total = 0 ∨ (total = 1 ∧ counts.head? = some 1) then
    some ⟨counts, symbols.toArray, (widths.find? fun w => lengths.contains w).getD 0⟩
  else none

/-- Follows the bits through the lengths: `code` are the bits so far, `first` is the first code of this length and
`index` its position. -/
def lookupFrom (symbols : Array Nat) (code first index width bits : Nat) : List Nat → Option (Nat × Nat)
  | [] => none
  | c :: rest =>
    let code := 2 * code + bits % 2
    if code < first + c then (symbols[index + (code - first)]?).map (width + 1, ·)
    else lookupFrom symbols code (2 * (first + c)) (index + c) (width + 1) (bits / 2) rest

/-- The length and the symbol of the code that the bits start with. -/
def lookup? (c : Code) (bits : Nat) : Option (Nat × Nat) := lookupFrom c.symbols 0 0 0 0 bits c.counts

end Code

/-- Reads a code. Bits that are not there count as zero: where the code found then is longer than what is there, that
many bits are taken and it is looked up again; `fuel` bounds the attempts. -/
def symbolWithin (c : Code) : Nat → Nat → Inflate Nat
  | 0, _ => corrupt
  | fuel + 1, n => do
    fill n
    match c.lookup? (← get).bits with
    | none => corrupt
    | some (width, symbol) =>
      if width ≤ (← get).count then
        dropBits width
        return symbol
      else symbolWithin c fuel width

def symbol (c : Code) : Inflate Nat := symbolWithin c (longest + 1) c.least

/-- The code for bytes and lengths that needs no description. -/
def fixedLengths : List Nat :=
  List.replicate 144 8 ++ List.replicate 112 9 ++ List.replicate 24 7 ++ List.replicate 8 8

/-- The codes of a block; without a code for distances they take five bits each. -/
structure Codes where
  literals : Code
  distances : Option Code

/-- The order in which the lengths of the codes for lengths are told. -/
def lengthOrder : List Nat := [16, 17, 18, 0, 8, 7, 9, 6, 10, 5, 11, 4, 12, 3, 13, 2, 14, 1, 15]

/-- Reads lengths up to the given number of them, in reverse. Some codes repeat the last length or zero. -/
def readLengths (c : Code) (total : Nat) : Nat → List Nat → Inflate (List Nat)
  | 0, lengths => return lengths
  | fuel + 1, lengths => do
    if total ≤ lengths.length then return lengths
    let x ← symbol c
    if x < 16 then readLengths c total fuel (x :: lengths)
    else
      let (least, width) := if x = 16 then (3, 2) else if x = 17 then (3, 3) else (11, 7)
      if x = 16 ∧ lengths.isEmpty then corrupt
      else
        let times := least + (← takeBits width)
        let repeated := if x = 16 then lengths.headD 0 else 0
        if total < lengths.length + times then corrupt
        else readLengths c total fuel (List.replicate times repeated ++ lengths)

/-- The symbol that ends a block. -/
def endOfBlock : Nat := 256

def codeOrCorrupt (lengths : List Nat) : Inflate Code :=
  match Code.ofLengths? lengths with
  | some c => pure c
  | none => corrupt

/-- Reads the description of the codes of a block. Every block has to end, so the code that ends it tells how many bits
are there at least. -/
def readCodes : Inflate Codes := do
  fill 14
  let literals := (← takeBits 5) + 257
  if 286 < literals then corrupt
  else
    let distances := (← takeBits 5) + 1
    if 30 < distances then corrupt
    else
      let described := (← takeBits 4) + 4
      let told ← (lengthOrder.take described).mapM fun symbol => return (symbol, ← takeBits 3)
      let lengthCode ← codeOrCorrupt ((List.range 19).map fun symbol => (told.lookup symbol).getD 0)
      let lengths := (← readLengths lengthCode (literals + distances) (literals + distances) []).reverse
      let literalCode ← codeOrCorrupt (lengths.take literals)
      let distanceCode ← codeOrCorrupt (lengths.drop literals)
      let least := max literalCode.least (lengths.getD endOfBlock 0)
      return ⟨{ literalCode with least }, some distanceCode⟩

/-- Five bits as a number, the highest first. -/
def reverse5 (n : Nat) : Nat :=
  n % 2 * 16 + n / 2 % 2 * 8 + n / 4 % 2 * 4 + n / 8 % 2 * 2 + n / 16 % 2

/-- The length of a repetition: the least one of its symbol and the number of bits to add. -/
def lengthBase (x : Nat) : Option (Nat × Nat) :=
  if x < 265 then some (x - 254, 0)
  else if x < 269 then some (2 * x - 519, 1)
  else if x < 273 then some (4 * x - 1057, 2)
  else if x < 277 then some (8 * x - 2149, 3)
  else if x < 281 then some (16 * x - 4365, 4)
  else if x < 285 then some (32 * x - 8861, 5)
  else if x < 286 then some (258, 0)
  else none

/-- Reads how far back a repetition starts. -/
def readDistance (codes : Codes) : Inflate Nat := do
  let x ← match codes.distances with
    | some c => symbol c
    | none => reverse5 <$> takeBits 5
  if x < 4 then return x + 1
  else if x < 30 then
    let width := (x - 2) / 2
    return 1 <<< (width + 1) + 1 + (x % 2) <<< width + (← takeBits width)
  else corrupt

/-- Repeats output from `distance` back. -/
def copyBack (distance : Nat) : Nat → Array UInt8 → Array UInt8
  | 0, out => out
  | n + 1, out => copyBack distance n (out.push (out.getD (out.size - distance) 0))

/-- Unpacks the codes of a block up to its end; `fuel` bounds their number. -/
def unpackCodes (codes : Codes) : Nat → Inflate Unit
  | 0 => corrupt
  | fuel + 1 => do
    let x ← symbol codes.literals
    if x < 256 then
      modify fun s => { s with out := s.out.push (UInt8.ofNat x) }
      unpackCodes codes fuel
    else if x = endOfBlock then return
    else
      match lengthBase x with
      | none => corrupt
      | some (base, width) =>
        let length := base + (← takeBits width)
        let distance ← readDistance codes
        if (← get).out.size < distance then corrupt
        else
          modify fun s => { s with out := copyBack distance length s.out }
          unpackCodes codes fuel

/-- Takes bytes as they are, as many as there are up to `n`. -/
def takeBytes (n : Nat) : Inflate Bytes := do
  let s ← get
  let taken := s.rest.take n
  set { s with rest := s.rest.drop n, offset := s.offset + taken.length }
  return taken

/-- Copies a block of bytes as they are. Its length is told twice, the second time with all bits turned. -/
def copyBlock : Inflate Unit := do
  modify fun s => { s with bits := 0, count := 0 }
  let header ← takeBytes 4
  if header.length < 4 then throw .unexpectedEnd
  let length := Bytes.toNatLE (header.take 2)
  if length + Bytes.toNatLE (header.drop 2) ≠ 0xFFFF then corrupt
  else
    let data ← takeBytes length
    modify fun s => { s with out := s.out ++ data.toArray }
    if data.length < length then throw .unexpectedEnd

/-- Unpacks blocks up to the last; `fuel` bounds their number and that of the codes in each. -/
def unpackBlocks : Nat → Inflate Unit
  | 0 => corrupt
  | fuel + 1 => do
    let isLast ← takeBlockBit
    match ← takeBits 2 with
    | 0 => copyBlock
    | 1 =>
      match Code.ofLengths? fixedLengths with
      | some literals => unpackCodes ⟨literals, none⟩ (fuel + 1)
      | none => corrupt
    | 2 => unpackCodes (← readCodes) (fuel + 1)
    | _ => corrupt
    if isLast then return else unpackBlocks fuel
where
  takeBlockBit : Inflate Bool := do
    fill 3
    return (← takeBits 1) == 1

/-- Unpacks data. A fault comes with the output made before it. Every code and every block takes at least one bit. -/
def unpack (data : Bytes) : Except Fault Unit × Bytes :=
  let (outcome, s) := unpackBlocks (8 * data.length + 1) { rest := data }
  (outcome, s.out.toList)

end Deflate

end Archive

end Linkage
