/-!
Values separated by commas. A value between double quotes may hold commas and line breaks, and a quote in it is
written twice. Of a text of several records the first is read.
-/
namespace Linkage
namespace Separated

inductive FaultKind where
  /-- A quote in a value without quotes. -/
  | bareQuote
  /-- A quote that ends no value, or none where a value has to end. -/
  | strayQuote
deriving Repr, DecidableEq

def FaultKind.text : FaultKind → String
  | .bareQuote => "bare \" in non-quoted-field"
  | .strayQuote => "extraneous or missing \" in quoted-field"

/-- Why a text is no record. -/
inductive Fault where
  | noRecord
  | malformed (start line column : Nat) (kind : FaultKind)
deriving Repr, DecidableEq

def Fault.message : Fault → String
  | .noRecord => "EOF"
  | .malformed start line column kind =>
    let place := "parse error on line " ++ toString line ++ ", column " ++ toString column ++ ": " ++ kind.text
    if start = line then place else "record on line " ++ toString start ++ "; " ++ place

/-- The lines of a text with their breaks. A carriage return before a break or at the end is dropped, and there is no
line after the last break without something in it. -/
def lines (s : String) : List (List Char) :=
  let parts := (s.splitOn "\n").map String.toList
  let withoutReturn (cs : List Char) : List Char := if cs.getLast? = some '\r' then cs.dropLast else cs
  let last := withoutReturn (parts.getLastD [])
  parts.dropLast.map (fun cs => withoutReturn cs ++ ['\n']) ++ (if last.isEmpty then [] else [last])

/-- The number of bytes of characters: columns are counted in bytes. -/
def width (cs : List Char) : Nat := cs.foldl (fun n c => n + c.utf8Size) 0

/-- A place in a record, with what is left of its line and the lines after it. -/
structure Place where
  start : Nat
  line : Nat
  column : Nat
  rest : List Char
  more : List (List Char)

namespace Place

def fault (p : Place) (column : Nat) (kind : FaultKind) : Fault := .malformed p.start p.line column kind

/-- Goes on behind the given characters. -/
def behind (p : Place) (taken rest : List Char) : Place := { p with column := p.column + width taken, rest }

end Place

/-- The rest of a value between quotes, and the place behind it; `fuel` bounds the number of quotes and lines. -/
def quoted : Nat → Place → Except Fault (List Char × Place)
  | 0, p => .error (p.fault p.column .strayQuote)
  | fuel + 1, p =>
    let (before, rest) := (p.rest.takeWhile (· != '"'), p.rest.dropWhile (· != '"'))
    match rest with
    | '"' :: '"' :: rest => do
      let (value, p) ← quoted fuel (p.behind (before ++ ['"', '"']) rest)
      return (before ++ '"' :: value, p)
    | '"' :: rest =>
      let ended := p.behind (before ++ ['"']) rest
      if rest.isEmpty ∨ rest = ['\n'] ∨ rest.head? = some ',' then .ok (before, ended)
      else .error (p.fault (ended.column - 1) .strayQuote)
    | _ =>
      match p.rest, p.more with
      | [], _ => .error (p.fault p.column .strayQuote)
      | _, [] => .error (p.fault (p.column + width p.rest) .strayQuote)
      | _, line :: more => do
        let (value, q) ← quoted fuel ⟨p.start, p.line + 1, 1, line, more⟩
        return (p.rest ++ value, q)

/-- The values from a place on; `fuel` bounds the number of commas. -/
def values : Nat → Place → Except Fault (List String)
  | 0, _ => .ok []
  | fuel + 1, p => do
    let (value, p) ← match p.rest with
      | '"' :: rest => quoted (p.rest.length + p.more.flatten.length + p.more.length + 1) (p.behind ['"'] rest)
      | cs =>
        let value := cs.takeWhile (fun c => c != ',' && c != '\n')
        if value.contains '"' then throw (p.fault (p.column + width (value.takeWhile (· != '"'))) .bareQuote)
        pure (value, p.behind value (cs.drop value.length))
    match p.rest with
    | ',' :: rest => return String.ofList value :: (← values fuel (p.behind [','] rest))
    | _ => return [String.ofList value]

/-- The values of the first line that is not empty, and of those it continues on. -/
def record (s : String) : Except Fault (List String) :=
  let all := lines s
  let empty := all.takeWhile fun line => line.isEmpty || line == ['\n']
  match all.drop empty.length with
  | [] => .error .noRecord
  | line :: more => values (s.length + 1) ⟨empty.length + 1, empty.length + 1, 1, line, more⟩

end Separated

end Linkage
