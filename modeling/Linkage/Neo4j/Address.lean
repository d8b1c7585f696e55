import Linkage.Neo4j.IpAddress

/-!
Addresses of graph databases: a scheme, a host with what leads to it, a path, a query and a fragment. A byte may be
written as a percent sign with two hexadecimal digits.
-/
namespace Linkage
namespace Neo4j

/-- Why an address cannot be used. -/
inductive AddressFault where
  | control
  | noScheme
  | colonInPath
  | user
  | hostNumber (text : Bytes)
  | escape (text : Bytes)
  | hostCharacter (b : UInt8)
  | openBracket
  | bracket
  | numbers (text : Bytes) (fault : IpFault)
deriving Repr, DecidableEq

def AddressFault.text : AddressFault → String
  | .control => "net/url: invalid control character in URL"
  | .noScheme => "missing protocol scheme"
  | .colonInPath => "first path segment in URL cannot contain colon"
  | .user => "net/url: invalid userinfo"
  | .hostNumber text => "invalid port " ++ Text.quoteBytes text ++ " after host"
  | .escape text => "invalid URL escape " ++ Text.quoteBytes text
  | .hostCharacter b => "invalid character " ++ Text.quoteBytes [b] ++ " in host name"
  | .openBracket => "missing ']' in host"
  | .bracket => "invalid IP-literal"
  | .numbers text fault => "invalid host: ParseAddr(" ++ Text.quoteBytes text ++ "): " ++ fault.text

/-- Why no connection is made. -/
inductive ConnectError where
  | malformed (address : String) (fault : AddressFault)
  | unsupported (scheme : String)
  | unreachable (address : String)
deriving Repr, DecidableEq

def ConnectError.message : ConnectError → String
  | .malformed address fault =>
    "failed to create neo4j driver: parse " ++ Text.quote address ++ ": " ++ fault.text
  | .unsupported scheme => "failed to create neo4j driver: URI scheme " ++ scheme ++ " is not supported"
  | .unreachable address => "failed to connect to " ++ address ++ ": no server can be reached"

namespace Address

open IpForm (byteOf isDigit)

def isLetter (b : UInt8) : Bool := (byteOf 'a' ≤ b && b ≤ byteOf 'z') || (byteOf 'A' ≤ b && b ≤ byteOf 'Z')

/-- Whether a byte is a letter, a digit or one of the given characters. -/
def isAmong (others : String) (b : UInt8) : Bool := isLetter b || isDigit b || (Text.encodeUtf8 others).contains b

/-- The bytes before the first that is a given character, and those behind it; none are behind it if there is none. -/
def cut (c : Char) (s : Bytes) : Bytes × Bytes :=
  let before := s.takeWhile (· != byteOf c)
  (before, s.drop (before.length + 1))

/-- The bytes from the last one on that is a given character, and those before it. -/
def cutLast? (c : Char) (s : Bytes) : Option (Bytes × Bytes) :=
  let after := (s.reverse.takeWhile (· != byteOf c)).reverse
  if after.length < s.length then
    let n := s.length - after.length - 1
    some (s.take n, s.drop n)
  else none

/-- The parts of an address that differ in what may stand in them. -/
inductive Part where
  | host
  /-- What follows the numbers of a host. -/
  | zone
  | other
deriving Repr, DecidableEq

/-- What may stand in a host. -/
def isHostByte : UInt8 → Bool := isAmong "!$&'()*+,;=:[]<>\"-_.~"

/-- Whether a byte may be written with a percent sign: in a host only what is not ASCII, in a zone a space and what may
stand in a host; a percent sign itself everywhere. -/
def mayEscape (part : Part) (b : UInt8) : Bool :=
  match part with
  | .host => b == byteOf '%' || 0x80 ≤ b
  | .zone => b == byteOf '%' || b == byteOf ' ' || isHostByte b
  | .other => true

/-- The bytes that a part stands for. -/
def unescape (part : Part) : Bytes → Except AddressFault Bytes
  | [] => .ok []
  | b :: rest =>
    if b = byteOf '%' then
      match rest with
      | high :: low :: after =>
        match Text.natural? 16 [Char.ofNat high.toNat, Char.ofNat low.toNat] with
        | some n =>
          if mayEscape part (UInt8.ofNat n) then do return UInt8.ofNat n :: (← unescape part after)
          else .error (.escape [b, high, low])
        | none => .error (.escape [b, high, low])
      | _ => .error (.escape (b :: rest))
    else if part ≠ .other ∧ b < 0x80 ∧ !isHostByte b then .error (.hostCharacter b)
    else do return b :: (← unescape part rest)

/-- Refuses what follows a host unless it is a colon with digits. -/
def checkHostNumber (s : Bytes) : Except AddressFault Unit :=
  match s with
  | [] => .ok ()
  | b :: digits => if b = byteOf ':' ∧ digits.all isDigit then .ok () else .error (.hostNumber s)

/-- Checks a host between brackets: groups of digits, which a zone may follow. -/
def checkBracketed (host : Bytes) : Except AddressFault Unit := do
  match cutLast? ']' host with
  | none => throw .openBracket
  | some (before, after) =>
    checkHostNumber after.tail
    let name := before.tail
    let zoneMark := [byteOf '%', byteOf '2', byteOf '5']
    let start := (List.range name.length).find? fun i => (name.drop i).take 3 == zoneMark
    let numbers ← unescape .host (name.take (start.getD name.length))
    let zone ← unescape .zone (name.drop (start.getD name.length))
    match IpForm.ofText (numbers ++ zone) with
    | .error fault => throw (.numbers (numbers ++ zone) fault)
    | .ok .octets => throw .bracket
    | .ok .groups => pure ()

/-- Checks a host and the number behind it. -/
def checkHost (host : Bytes) : Except AddressFault Unit := do
  match cutLast? '[' host with
  | some ([], _) => checkBracketed host
  | some _ => throw .bracket
  | none =>
    if let some (_, number) := cutLast? ':' host then checkHostNumber number
    let _ ← unescape .host host

/-- Checks what stands between two slashes and the path: a host, before which a user may stand. -/
def checkAuthority (authority : Bytes) : Except AddressFault Unit := do
  match cutLast? '@' authority with
  | none => checkHost authority
  | some (user, host) =>
    checkHost host.tail
    if !user.all (isAmong "-._:~!$&'()*+,;=%@") then throw .user
    let (name, password) := cut ':' user
    let _ ← unescape .other name
    let _ ← unescape .other password

/-- The scheme of an address in small letters, and what follows it; an address may have none. -/
def schemeOf (address : Bytes) : Except AddressFault (String × Bytes) :=
  let name := address.takeWhile (isAmong "+-.")
  match address.drop name.length with
  | b :: rest =>
    if b ≠ byteOf ':' then .ok ("", address)
    else if name.isEmpty then .error .noScheme
    else if name.head?.any isLetter then .ok ((Text.decodeUtf8 name).toLower, rest)
    else .ok ("", address)
  | [] => .ok ("", address)

/-- The scheme of a well-formed address without a fragment. -/
def check (address : Bytes) : Except AddressFault String := do
  if address.any fun b => b < 0x20 || b == 0x7F then throw .control
  if address == [byteOf '*'] then return ""
  let (scheme, rest) ← schemeOf address
  let path := (cut '?' rest).1
  let slash := byteOf '/'
  if path.head? ≠ some slash then
    if scheme ≠ "" then return scheme
    if (cut '/' path).1.contains (byteOf ':') then throw .colonInPath
  if path.take 2 = [slash, slash] ∧ (scheme ≠ "" ∨ path.take 3 ≠ [slash, slash, slash]) then
    let authority := (cut '/' (path.drop 2)).1
    checkAuthority authority
    let _ ← unescape .other (path.drop (authority.length + 2))
  else
    let _ ← unescape .other path
  return scheme

end Address

def schemes : List String := ["bolt", "bolt+unix", "bolt+s", "bolt+ssc", "neo4j", "neo4j+s", "neo4j+ssc"]

/-- Why there is no connection to an address. No server is ever reached: the statements of an export are data, and
running them is left to the caller. -/
def connectError (address : String) : ConnectError :=
  let located := String.ofList (address.toList.takeWhile (· != '#'))
  match Address.check (Text.encodeUtf8 located) with
  | .error fault => .malformed located fault
  | .ok scheme =>
    match Address.unescape .other (Address.cut '#' (Text.encodeUtf8 address)).2 with
    | .error fault => .malformed address fault
    | .ok _ => if schemes.contains scheme then .unreachable address else .unsupported scheme

end Neo4j

end Linkage
