import Linkage.Text.Digit
import Linkage.Text.Printable
import Linkage.Text.Utf8

/-! Texts between double quotes and characters between single quotes, with escapes for what cannot be shown. -/
namespace Linkage
namespace Text

/-- The escapes of one letter. -/
def letterEscape? (c : Char) : Option Char :=
  [('\x07', 'a'), ('\x08', 'b'), ('\x0c', 'f'), ('\n', 'n'), ('\r', 'r'), ('\t', 't'), ('\x0b', 'v'),
    ('\\', '\\')].lookup c

/-- A character between quotes of the given kind. -/
def quotedChar (mark c : Char) : List Char :=
  if c = mark then ['\\', c]
  else
    match letterEscape? c with
    | some letter => ['\\', letter]
    | none =>
      let n := c.toNat
      if isPrintable c then [c]
      else if n < 0x80 then '\\' :: 'x' :: hexDigits 2 n
      else if n < 0x10000 then '\\' :: 'u' :: hexDigits 4 n
      else '\\' :: 'U' :: hexDigits 8 n

/-- The text between double quotes. -/
def quote (s : String) : String := "\"" ++ String.ofList (s.toList.flatMap (quotedChar '"')) ++ "\""

/-- Bytes as the characters that they spell, each of which is escaped where it cannot stand between double quotes. A
byte that belongs to no character is escaped by itself; `fuel` bounds the number of characters. -/
def quotedBytes : Nat → Bytes → List Char
  | 0, _ => []
  | _, [] => []
  | fuel + 1, b :: rest =>
    match firstChar? (b :: rest) with
    | some (c, n) => quotedChar '"' c ++ quotedBytes fuel ((b :: rest).drop n)
    | none => '\\' :: 'x' :: hexDigits 2 b.toNat ++ quotedBytes fuel rest

/-- The text that bytes spell between double quotes. -/
def quoteBytes (data : Bytes) : String := "\"" ++ String.ofList (quotedBytes data.length data) ++ "\""

/-- The character between single quotes. -/
def quoteChar (c : Char) : String := "'" ++ String.ofList (quotedChar '\'' c) ++ "'"

end Text

end Linkage
