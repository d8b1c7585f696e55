import Linkage.Text.Digit
import Linkage.Text.Utf8
import Linkage.Yaml.Stream

/-!
Tags as they stand in a stream. A byte may be written as a percent sign with two hexadecimal digits; such bytes spell
characters in UTF-8.
-/
namespace Linkage
namespace Yaml

/-- The characters of tags. -/
def isTagChar (c : Char) : Bool := isWordChar c || ";/?:@&=+$,.!~*'()[]%".toList.contains c

/-- Reads characters of a tag, as bytes. The last escape needs `more` further ones. -/
def readTagBytes (more : Nat) : List Glyph → Except Fault (Bytes × List Glyph)
  | [] => if more = 0 then .ok ([], []) else .error .tagName
  | g :: rest =>
    if g.char == '%' then
      match rest with
      | high :: low :: rest =>
        match Text.natural? 16 [high.char, low.char] with
        | none => .error .tagName
        | some n =>
          let octet := UInt8.ofNat n
          let sound := if more = 0 then Encoding.width octet ≠ 0 else Text.isContinuation octet
          let further := if more = 0 then Encoding.width octet - 1 else more - 1
          if sound then do
            let (octets, rest) ← readTagBytes further rest
            .ok (octet :: octets, rest)
          else .error .tagName
      | _ => .error .tagName
    else if more ≠ 0 then .error .tagName
    else if isTagChar g.char then do
      let (octets, rest) ← readTagBytes 0 rest
      .ok (UInt8.ofNat g.char.toNat :: octets, rest)
    else .ok ([], g :: rest)

/-- Reads one or more characters of a tag. -/
def readTagText (gs : List Glyph) : Except Fault (String × List Glyph) := do
  let (octets, rest) ← readTagBytes 0 gs
  if octets.isEmpty then .error .tagName else .ok (Text.decodeUtf8 octets, rest)

/-- Reads a handle: an exclamation mark, word characters, and another mark if one follows. -/
def readHandle (gs : List Glyph) : String × List Glyph :=
  let word := (gs.drop 1).takeWhile (isWordChar ·.char)
  let after := gs.drop (word.length + 1)
  let size := word.length + if after.head?.any (·.char == '!') then 2 else 1
  (textOf (gs.take size), gs.drop size)

/-- Reads a tag: in full between angle brackets, with a handle between exclamation marks, or after one mark. Answers
the handle, the suffix and the rest. A mark alone is a tag that says nothing. -/
def readTag (gs : List Glyph) : Except Fault (String × String × List Glyph) := do
  let (handle, suffix, rest) ←
    if (gs.drop 1).head?.any (·.char == '<') then
      match ← readTagText (gs.drop 2) with
      | (suffix, g :: rest) => if g.char == '>' then .ok ("", suffix, rest) else .error .tagName
      | (_, []) => .error .tagName
    else
      let (handle, rest) := readHandle gs
      if 1 < handle.length && handle.endsWith "!" then
        let (suffix, rest) ← readTagText rest
        .ok (handle, suffix, rest)
      else
        let (octets, rest) ← readTagBytes 0 rest
        let suffix := (handle.drop 1).toString ++ Text.decodeUtf8 octets
        .ok (if suffix == "" then ("", "!", rest) else ("!", suffix, rest))
  if endsWord rest then .ok (handle, suffix, rest) else .error .tagName

end Yaml

end Linkage
