import Linkage.Yaml.Glyph
import Linkage.Yaml.Plain

/-!
YAML documents as they are written: block style, four columns for each level, texts unquoted where they read back as
they are.
-/
namespace Linkage
namespace Yaml

/-- What a document is made of. -/
inductive Value where
  | text (s : String)
  | number (n : Nat)
  | list (items : List Value)
  | record (fields : List (String × Value))
deriving Repr

/-- The characters that may stand for themselves. -/
def isPrintable (c : Char) : Bool :=
  c == '\n' || (' ' ≤ c && c ≤ '~') || ('\u00a0' ≤ c && c ≤ '\ufffd' && c != '\ufeff')

/-- Whether a test holds of a character and the one after it, somewhere in a text. -/
def anyAdjacent (test : Char → Char → Bool) (cs : List Char) : Bool := (cs.zip (cs.drop 1)).any fun (a, b) => test a b

/-- Whether the start of a text, or a mark within it, would be read as structure. -/
def startsStructure (cs : List Char) : Bool :=
  let blank (c : Char) : Bool := c == ' ' || c == '\t'
  let marks := "#,[]\x7b\x7d&*!|>'\"%@`".toList
  let alone := "?:-".toList
  cs.take 3 == ['-', '-', '-'] || cs.take 3 == ['.', '.', '.'] ||
    (match cs with
      | [] => false
      | c :: rest => marks.contains c || (alone.contains c && rest.head?.all blank)) ||
    anyAdjacent (fun a b => a == ':' && blank b) cs || cs.getLast? == some ':' ||
    anyAdjacent (fun a b => blank a && b == '#') cs

/-- How a text is written. -/
inductive TextStyle where
  | plain
  | singleQuoted
  | doubleQuoted
  /-- Line by line, below the key. -/
  | literal
deriving Repr, DecidableEq

namespace TextStyle

/-- Whether only escapes can show all characters. -/
def needsEscapes (cs : List Char) : Bool :=
  cs.any (fun c => c == '\t' || !isPrintable c) ||
    anyAdjacent (fun a b => (isBreak a && b == ' ') || (a == ' ' && isBreak b)) cs

/-- Whether the lines of a text can be written one by one. -/
def allowsLines (cs : List Char) : Bool :=
  cs.all (fun c => c == '\t' || isPrintable c) && !anyAdjacent (fun a b => a == ' ' && isBreak b) cs &&
    cs.getLast? != some ' '

/-- A text of several lines is written line by line, a text that would read back as something else in double quotes,
one that holds or starts like structure in single quotes, and any text that needs escapes in double quotes. -/
def choose (s : String) : TextStyle :=
  let cs := s.toList
  let spaced (c : Option Char) : Bool := c.any fun c => c == ' ' || isBreak c
  if cs.contains '\n' then if allowsLines cs then .literal else .doubleQuoted
  else if !Plain.readsAsText s || needsEscapes cs then .doubleQuoted
  else if startsStructure cs || spaced cs.head? || spaced cs.getLast? || cs.any isBreak then .singleQuoted
  else .plain

end TextStyle

/-- The escapes of one letter. -/
def letterEscapes : List (Char × Char) :=
  [('\x00', '0'), ('\x07', 'a'), ('\x08', 'b'), ('\t', 't'), ('\n', 'n'), ('\x0b', 'v'), ('\x0c', 'f'), ('\r', 'r'),
    ('\x1b', 'e'), ('"', '"'), ('\\', '\\'), ('\u0085', 'N'), ('\u00a0', '_'), ('\u2028', 'L'), ('\u2029', 'P')]

/-- The hexadecimal digits of a number, in capitals and filled up with zeros. -/
def hexCapitals (width n : Nat) : List Char := (Text.hexDigits width n).map Char.toUpper

/-- The escape of a character. -/
def escape (c : Char) : List Char :=
  match letterEscapes.lookup c with
  | some letter => ['\\', letter]
  | none =>
    let n := c.toNat
    '\\' :: if n ≤ 0xff then 'x' :: hexCapitals 2 n else if n ≤ 0xffff then 'u' :: hexCapitals 4 n else 'U' :: hexCapitals 8 n

/-- The characters between double quotes. A text that starts with a byte order mark is escaped throughout. -/
def doubleQuotedBody (cs : List Char) : List Char :=
  let marked := cs.head? == some '\ufeff'
  let bare (c : Char) : Bool := !marked && isPrintable c && !isBreak c && c != '"' && c != '\\'
  cs.flatMap fun c => if bare c then [c] else escape c

/-- The characters between single quotes: a quote is doubled, and a line that follows a break is indented. -/
def singleQuotedBody (indent : Nat) : Bool → List Char → List Char
  | _, [] => []
  | afterBreak, c :: rest =>
    if c != ' ' && isBreak c then c :: singleQuotedBody indent true rest
    else
      let margin := if afterBreak && c != ' ' then List.replicate indent ' ' else []
      let shown := if c == '\'' then ['\'', '\''] else [c]
      margin ++ shown ++ singleQuotedBody indent (afterBreak && c == ' ') rest

/-- What tells the reader of a literal text its indentation and whether breaks at its end count. -/
def literalHints (cs : List Char) : String :=
  let indentation := if cs.head?.any fun c => c == ' ' || isBreak c then "4" else ""
  let ending :=
    match cs.reverse with
    | a :: b :: _ => if !isBreak a then "-" else if isBreak b then "+" else ""
    | [a] => if isBreak a then "+" else "-"
    | [] => "-"
  indentation ++ ending

/-- The lines of a literal text, each that is not empty behind the margin. -/
def literalBody (indent : Nat) : Bool → List Char → List Char
  | _, [] => []
  | afterBreak, c :: rest =>
    if isBreak c then c :: literalBody indent true rest
    else (if afterBreak then List.replicate indent ' ' else []) ++ c :: literalBody indent false rest

/-- A text in its style and the end of its line, the lines after its first indented. A literal text that starts with a
break starts on the line of its mark, and one that ends with a break has ended its line. -/
def renderText (indent : Nat) (s : String) : String :=
  let cs := s.toList
  match TextStyle.choose s with
  | .plain => s ++ "\n"
  | .singleQuoted => "'" ++ String.ofList (singleQuotedBody indent false cs) ++ "'\n"
  | .doubleQuoted => "\"" ++ String.ofList (doubleQuotedBody cs) ++ "\"\n"
  | .literal =>
    "|" ++ literalHints cs ++ (if cs.head?.any isBreak then "" else "\n") ++ String.ofList (literalBody indent true cs) ++
      (if cs.getLast?.any isBreak then "" else "\n")

/-- The column below the given one: the next multiple of four. -/
def deeper (indent : Nat) : Nat := (indent + 4) / 4 * 4

/-- The blanks before what starts a line; `here` if the line has been started. -/
def margin (indent : Nat) (here : Bool) : String :=
  if here then "" else String.ofList (List.replicate indent ' ')

mutual

/-- What follows a key at the given column. -/
def renderAfterKey (indent : Nat) : Value → String
  | .text s => " " ++ renderText (deeper indent) s
  | .number n => " " ++ toString n ++ "\n"
  | .list [] => " []\n"
  | .list (v :: vs) => "\n" ++ renderItems (deeper indent) false (v :: vs)
  | .record [] => " \x7b\x7d\n"
  | .record (f :: fs) => "\n" ++ renderFields (deeper indent) false (f :: fs)

/-- What follows the dash of a list item, or starts a document, at the given column. -/
def renderHere (indent : Nat) : Value → String
  | .text s => renderText indent s
  | .number n => toString n ++ "\n"
  | .list [] => "[]\n"
  | .list (v :: vs) => renderItems indent true (v :: vs)
  | .record [] => "\x7b\x7d\n"
  | .record (f :: fs) => renderFields indent true (f :: fs)

/-- The items of a list, `here` if the line of the first has been started. -/
def renderItems (indent : Nat) (here : Bool) : List Value → String
  | [] => ""
  | v :: vs => margin indent here ++ "- " ++ renderHere (indent + 2) v ++ renderItems indent false vs

/-- The fields of a record, `here` if the line of the first has been started. -/
def renderFields (indent : Nat) (here : Bool) : List (String × Value) → String
  | [] => ""
  | (key, v) :: fs => margin indent here ++ key ++ ":" ++ renderAfterKey indent v ++ renderFields indent false fs

end

/-- The text of a document. The names of fields are written as they are. -/
def Value.render (v : Value) : String := renderHere 0 v

end Yaml

end Linkage
