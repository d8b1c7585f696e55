import Linkage.Decimal.Nearest
import Linkage.Text.Digit

/-!
What an unquoted YAML scalar stands for: null, a truth value, a number, a point in time or the text itself.
-/
namespace Linkage
namespace Yaml

/-- A number with a fraction or an exponent, or one beyond the integers. -/
inductive Real where
  | nan
  | infinite (negative : Bool)
  /-- The number of double precision with the given bits, which hold no sign. -/
  | finite (negative : Bool) (bits : Nat)
deriving Repr, DecidableEq

/-- What an unquoted scalar stands for. -/
inductive Plain where
  | null
  | bool (value : Bool)
  | int (value : Int)
  | real (value : Real)
  | timestamp
  | text
deriving Repr, DecidableEq

namespace Plain

open Text (isDigit natural?)

/-- The words with a meaning of their own. -/
def words : List (String × Plain) :=
  [("", .null), ("~", .null), ("null", .null), ("Null", .null), ("NULL", .null),
    ("true", .bool true), ("True", .bool true), ("TRUE", .bool true),
    ("false", .bool false), ("False", .bool false), ("FALSE", .bool false),
    (".nan", .real .nan), (".NaN", .real .nan), (".NAN", .real .nan),
    (".inf", .real (.infinite false)), (".Inf", .real (.infinite false)), (".INF", .real (.infinite false)),
    ("+.inf", .real (.infinite false)), ("+.Inf", .real (.infinite false)), ("+.INF", .real (.infinite false)),
    ("-.inf", .real (.infinite true)), ("-.Inf", .real (.infinite true)), ("-.INF", .real (.infinite true))]

/-- Splits off a sign; true for a minus. -/
def sign : List Char → Option Bool × List Char
  | '-' :: rest => (some true, rest)
  | '+' :: rest => (some false, rest)
  | cs => (none, cs)

/-- Reads digits whose base is told by what they start with. -/
def prefixed? : List Char → Option Nat
  | '0' :: rest@(c :: digits@(_ :: _)) =>
    if c = 'x' ∨ c = 'X' then natural? 16 digits
    else if c = 'b' ∨ c = 'B' then natural? 2 digits
    else if c = 'o' ∨ c = 'O' then natural? 8 digits
    else natural? 8 rest
  | '0' :: rest@(_ :: _) => natural? 8 rest
  | cs => natural? 10 cs

/-- Signed numbers have to fit 64 bits with their sign, unsigned ones without. -/
def fit? (mark : Option Bool) (n : Nat) : Option Int :=
  match mark with
  | some true => if n ≤ 0x8000000000000000 then some (-n) else none
  | some false => if n < 0x8000000000000000 then some n else none
  | none => if n < 0x10000000000000000 then some n else none

/-- Reads the digits of a base after an optional sign. -/
def signed? (base : Nat) (cs : List Char) : Option Int :=
  let (mark, digits) := sign cs
  (natural? base digits).bind (fit? mark)

/-- Reads an integer. A base can also be told before the sign, as in `0b-1`. -/
def int? (cs : List Char) : Option Int :=
  let (mark, digits) := sign cs
  match (prefixed? digits).bind (fit? mark) with
  | some n => some n
  | none =>
    match cs with
    | '0' :: 'b' :: rest => signed? 2 rest
    | '0' :: 'o' :: rest => signed? 8 rest
    | _ => none

/-- Reads an optional exponent, to the end. -/
def exponent? : List Char → Option Int
  | [] => some 0
  | c :: rest =>
    if c = 'e' ∨ c = 'E' then
      let (mark, digits) := sign rest
      (natural? 10 digits).map fun n => if mark = some true then -(n : Int) else n
    else none

/-- Reads digits with an optional point and exponent. A point needs a digit on one of its sides. -/
def decimal? (cs : List Char) : Option Decimal.Digits :=
  let whole := cs.takeWhile isDigit
  let (fraction, rest) :=
    match cs.dropWhile isDigit with
    | '.' :: rest => (rest.takeWhile isDigit, rest.dropWhile isDigit)
    | rest => ([], rest)
  match natural? 10 (whole ++ fraction), exponent? rest with
  | some n, some e => some ⟨n, e - fraction.length⟩
  | _, _ => none

/-- Reads a real number of double precision. -/
def real? (cs : List Char) : Option Real :=
  let (mark, rest) := sign cs
  ((decimal? rest).bind Decimal.BinaryFormat.double.nearest?).map (.finite (mark = some true))

/-- Whether every underscore stands between two digits. -/
def groupsDigits : List Char → Bool
  | [] => true
  | '_' :: _ => false
  | d :: '_' :: c :: rest => isDigit d && isDigit c && groupsDigits (c :: rest)
  | _ :: '_' :: [] => false
  | _ :: rest => groupsDigits rest

/-- Splits off a number of one or two digits within bounds. -/
def shortNumber? (low high : Nat) (cs : List Char) : Option (Nat × List Char) :=
  let digits := (cs.take 2).takeWhile isDigit
  (natural? 10 digits).bind fun n => if low ≤ n ∧ n ≤ high then some (n, cs.drop digits.length) else none

def daysIn (year month : Nat) : Nat :=
  if month = 2 then
    if year % 4 = 0 ∧ (year % 100 ≠ 0 ∨ year % 400 = 0) then 29 else 28
  else if month = 4 ∨ month = 6 ∨ month = 9 ∨ month = 11 then 30 else 31

/-- Splits off a date with a year of four digits. -/
def date? (cs : List Char) : Option (List Char) := do
  let year := cs.takeWhile isDigit
  guard (year.length = 4)
  let y ← natural? 10 year
  let ('-' :: rest) := cs.drop 4 | none
  let (month, '-' :: rest) ← shortNumber? 1 12 rest | none
  let (_, rest) ← shortNumber? 1 (daysIn y month) rest
  return rest

/-- Splits off hours, minutes and seconds with an optional fraction. -/
def clock? (cs : List Char) : Option (List Char) := do
  let (_, ':' :: rest) ← shortNumber? 0 23 cs | none
  let (_, ':' :: rest) ← shortNumber? 0 59 rest | none
  let (_, rest) ← shortNumber? 0 59 rest
  match rest with
  | c :: d :: more => return if (c = '.' ∨ c = ',') ∧ isDigit d then more.dropWhile isDigit else rest
  | _ => return rest

/-- Whether the characters tell an offset from universal time. -/
def isZone : List Char → Bool
  | ['Z'] => true
  | [s, a, b, ':', c, d] =>
    (s == '+' || s == '-') &&
      (match natural? 10 [a, b], natural? 10 [c, d] with
        | some hours, some minutes => hours ≤ 24 && minutes ≤ 60
        | _, _ => false)
  | _ => false

/-- Whether the characters tell a date, or a date and a time, which spaces may divide. -/
def isTimestamp (cs : List Char) : Bool :=
  match date? cs with
  | none => false
  | some [] => true
  | some (' ' :: rest) => clock? (rest.dropWhile (· == ' ')) == some []
  | some (c :: rest) => (c == 'T' || c == 't') && (clock? rest).any isZone

/-- Numbers and points in time, with underscores left out of numbers. -/
def number (cs : List Char) : Plain :=
  let digits := cs.filter (· != '_')
  if isTimestamp cs then .timestamp
  else
    match int? digits with
    | some n => .int n
    | none => ((real? digits).map Plain.real).getD .text

/-- What an unquoted scalar stands for. -/
def resolve (s : String) : Plain :=
  match words.lookup s with
  | some meaning => meaning
  | none =>
    match s.toList with
    | '.' :: rest =>
      if groupsDigits rest then ((real? ('.' :: rest.filter (· != '_'))).map Plain.real).getD .text else .text
    | c :: rest => if isDigit c || c == '+' || c == '-' then number (c :: rest) else .text
    | [] => .null

/-- Truth values of an earlier edition of the format. -/
def formerBool? (s : String) : Option Bool :=
  if s ∈ ["y", "Y", "yes", "Yes", "YES", "on", "On", "ON"] then some true
  else if s ∈ ["n", "N", "no", "No", "NO", "off", "Off", "OFF"] then some false
  else none

/-- Whether a text is a number in groups of sixty, which an earlier edition of the format divides by colons. -/
def isSexagesimal (s : String) : Bool :=
  let (whole, fraction) := (s.toList.takeWhile (· != '.'), s.toList.dropWhile (· != '.'))
  let (_, first) := sign (whole.takeWhile (· != ':'))
  let groups := ((String.ofList (whole.dropWhile (· != ':'))).splitOn ":").drop 1
  let inNumber (c : Char) : Bool := isDigit c || c == '_'
  let isGroup (group : String) : Bool :=
    match group.toList with
    | [a] => isDigit a
    | [a, b] => isDigit a && a ≤ '5' && isDigit b
    | _ => false
  first.head?.any isDigit && first.all inNumber && !groups.isEmpty && groups.all isGroup &&
    (fraction.drop 1).all inNumber

/-- Whether a text that is written without quotes reads back as a text, also by readers of earlier editions. -/
def readsAsText (s : String) : Bool :=
  resolve s == .text && !isSexagesimal s && (formerBool? s).isNone

end Plain

end Yaml

end Linkage
