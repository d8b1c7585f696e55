import Linkage.Text.Quoted

/-!
Internet addresses in numbers: four octets, or eight groups of hexadecimal digits. Two colons stand for groups of
zeros, four octets may stand for the last two groups, and a zone may follow.
-/
namespace Linkage
namespace Neo4j

/-- What is wrong with a text that should be an internet address. -/
inductive IpFaultKind where
  | noAddress
  | onlyZone
  | emptyZone
  | leadingZero
  | largeOctet
  | emptyOctet
  | manyOctets
  | fewOctets
  | unexpected
  | longGroup
  | emptyGroup
  | misplacedOctets
  | noRoomForOctets
  | noColon
  | lastColon
  | secondGap
  | remainder
  | fewGroups
  | emptyGap
deriving Repr, DecidableEq

def IpFaultKind.text : IpFaultKind → String
  | .noAddress => "unable to parse IP"
  | .onlyZone => "missing IPv6 address"
  | .emptyZone => "zone must be a non-empty string"
  | .leadingZero => "IPv4 field has octet with leading zero"
  | .largeOctet => "IPv4 field has value >255"
  | .emptyOctet => "IPv4 field must have at least one digit"
  | .manyOctets => "IPv4 address too long"
  | .fewOctets => "IPv4 address too short"
  | .unexpected => "unexpected character"
  | .longGroup => "each group must have 4 or fewer digits"
  | .emptyGroup => "each colon-separated field must have at least one digit"
  | .misplacedOctets => "embedded IPv4 address must replace the final 2 fields of the address"
  | .noRoomForOctets => "too many hex fields to fit an embedded IPv4 at the end of the address"
  | .noColon => "unexpected character, want colon"
  | .lastColon => "colon must be followed by more characters"
  | .secondGap => "multiple :: in address"
  | .remainder => "trailing garbage after address"
  | .fewGroups => "address string too short"
  | .emptyGap => "the :: must expand to at least one field of zeros"

/-- A fault, and what is left of the text where it was found, if that is told. -/
structure IpFault where
  kind : IpFaultKind
  rest : Bytes := []
deriving Repr, DecidableEq

def IpFault.text (f : IpFault) : String :=
  f.kind.text ++ if f.rest.isEmpty then "" else " (at " ++ Text.quoteBytes f.rest ++ ")"

/-- The two forms of an internet address. -/
inductive IpForm where
  | octets
  | groups
deriving Repr, DecidableEq

namespace IpForm

/-- The byte of a character below 128. -/
def byteOf (c : Char) : UInt8 := UInt8.ofNat c.toNat

def isDigit (b : UInt8) : Bool := byteOf '0' ≤ b && b ≤ byteOf '9'

def isHexDigit (b : UInt8) : Bool := (Text.digitValue? (Char.ofNat b.toNat)).isSome

/-- Checks octets; `past` of them are complete, and of the next, which has the given value, so many digits are read. -/
def checkOctets (past value digits : Nat) : Bytes → Except IpFault Unit
  | [] => if past < 3 then .error ⟨.fewOctets, []⟩ else .ok ()
  | b :: rest =>
    if isDigit b then
      let value' := 10 * value + (b.toNat - '0'.toNat)
      if digits = 1 ∧ value = 0 then .error ⟨.leadingZero, []⟩
      else if 255 < value' then .error ⟨.largeOctet, []⟩
      else checkOctets past value' (digits + 1) rest
    else if b = byteOf '.' then
      if digits = 0 ∨ rest.isEmpty then .error ⟨.emptyOctet, b :: rest⟩
      else if past = 3 then .error ⟨.manyOctets, []⟩
      else checkOctets (past + 1) 0 0 rest
    else .error ⟨.unexpected, b :: rest⟩

/-- Checks that groups fill an address: all eight are there, or a gap stands for at least one. -/
def checkCount (groups : Nat) (gap : Bool) : Except IpFault Unit :=
  if groups < 8 then if gap then .ok () else .error ⟨.fewGroups, []⟩
  else if gap then .error ⟨.emptyGap, []⟩
  else .ok ()

/-- Checks groups after the first `past`, with a gap before them or not; `fuel` bounds their number. -/
def checkGroups : Nat → Nat → Bool → Bytes → Except IpFault Unit
  | 0, _, _, s => .error ⟨.remainder, s⟩
  | fuel + 1, past, gap, s =>
    let digits := s.takeWhile isHexDigit
    if digits.isEmpty then .error ⟨.emptyGroup, s⟩
    else if 4 < digits.length then .error ⟨.longGroup, s⟩
    else
      match s.drop digits.length with
      | [] => checkCount (past + 1) gap
      | b :: rest =>
        if b = byteOf '.' then
          if !gap && past ≠ 6 then .error ⟨.misplacedOctets, s⟩
          else if 6 < past then .error ⟨.noRoomForOctets, s⟩
          else do
            checkOctets 0 0 0 s
            checkCount (past + 2) gap
        else if b ≠ byteOf ':' then .error ⟨.noColon, b :: rest⟩
        else
          match rest with
          | [] => .error ⟨.lastColon, [b]⟩
          | c :: after =>
            if c ≠ byteOf ':' then checkGroups fuel (past + 1) gap rest
            else if gap then .error ⟨.secondGap, rest⟩
            else if after.isEmpty then checkCount (past + 1) true
            else checkGroups fuel (past + 1) true after

/-- Checks groups with a zone or without. -/
def checkZoned (s : Bytes) : Except IpFault Unit :=
  let numbers := s.takeWhile (· != byteOf '%')
  let zone := s.drop numbers.length
  let colon := byteOf ':'
  if zone.length = 1 then .error ⟨.emptyZone, []⟩
  else if numbers.take 2 = [colon, colon] then
    if numbers.length = 2 then .ok () else checkGroups 8 0 true (numbers.drop 2)
  else checkGroups 8 0 false numbers

/-- The form of an internet address: what tells it is the first point, colon or percent sign. -/
def ofText (s : Bytes) : Except IpFault IpForm :=
  match s.find? fun b => b == byteOf '.' || b == byteOf ':' || b == byteOf '%' with
  | none => .error ⟨.noAddress, []⟩
  | some b =>
    if b = byteOf '.' then (checkOctets 0 0 0 s).map fun _ => .octets
    else if b = byteOf ':' then (checkZoned s).map fun _ => .groups
    else .error ⟨.onlyZone, []⟩

end IpForm

end Neo4j

end Linkage
