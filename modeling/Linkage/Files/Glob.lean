import Linkage.Files.Tree
import Linkage.Text.Utf8

/-!
Patterns for names: a star stands for any bytes of a name, a question mark for one character, brackets for one of a
set, and a backslash takes the meaning of the character after it away. A byte that starts no character counts as one.
In a pattern for paths every part is a pattern.
-/
namespace Linkage
namespace Glob

/-- A pattern is malformed. -/
inductive Fault where
  | badPattern
deriving Repr, DecidableEq

/-- Splits off the characters up to the next star outside of brackets. -/
def chunk (inRange : Bool) : List Char → List Char × List Char
  | [] => ([], [])
  | '\\' :: c :: rest =>
    let (taken, left) := chunk inRange rest
    ('\\' :: c :: taken, left)
  | '*' :: rest =>
    if inRange then
      let (taken, left) := chunk inRange rest
      ('*' :: taken, left)
    else ([], '*' :: rest)
  | c :: rest =>
    let (taken, left) := chunk (if c = '[' then true else if c = ']' then false else inRange) rest
    (c :: taken, left)

/-- A member of a set, which something has to follow. -/
def member : List Char → Except Fault (Char × List Char)
  | '\\' :: c :: rest => if rest.isEmpty then .error .badPattern else .ok (c, rest)
  | c :: rest => if c = '-' ∨ c = ']' ∨ c = '\\' ∨ rest.isEmpty then .error .badPattern else .ok (c, rest)
  | [] => .error .badPattern

/-- Whether the character is in a set, and what follows the set; `fuel` bounds the number of members. -/
def inSet (c : Option Char) : Nat → Bool → Bool → List Char → Except Fault (Bool × List Char)
  | 0, _, _, _ => .error .badPattern
  | fuel + 1, started, found, cs => do
    match started, cs with
    | true, ']' :: rest => return (found, rest)
    | _, cs =>
      let (low, rest) ← member cs
      let (high, rest) ← match rest with
        | '-' :: rest => member rest
        | rest => pure (low, rest)
      inSet c fuel true (found || c.any fun c => low ≤ c && c ≤ high) rest

/-- The first character of a name and the bytes behind it. -/
def firstOf (name : Bytes) : Char × Bytes :=
  match Text.firstChar? name with
  | some (c, width) => (c, name.drop width)
  | none => ('\ufffd', name.tail)

/-- What is left of a name behind a character that it starts with. -/
def afterChar? (c : Char) (name : Bytes) : Option Bytes :=
  let bytes := Text.encodeUtf8 c.toString
  if bytes.isPrefixOf name then some (name.drop bytes.length) else none

def slash : UInt8 := 0x2F

/-- Matches a pattern without stars with the start of a name and answers what is left of the name. The rest of the
pattern is read to its end also where it does not match; `fuel` bounds its length. -/
def matchChunk : Nat → List Char → Option Bytes → Except Fault (Option Bytes)
  | 0, _, _ => .error .badPattern
  | fuel + 1, pattern, name => do
    let name := name.bind fun bytes => if bytes.isEmpty ∧ !pattern.isEmpty then none else some bytes
    match pattern with
    | [] => return name
    | '[' :: rest =>
      let (negated, rest) := match rest with
        | '^' :: rest => (true, rest)
        | rest => (false, rest)
      let (found, rest) ← inSet (name.map fun bytes => (firstOf bytes).1) rest.length false false rest
      matchChunk fuel rest (if found == negated then none else name.map fun bytes => (firstOf bytes).2)
    | '?' :: rest =>
      matchChunk fuel rest (name.bind fun bytes => if bytes.head? == some slash then none else some (firstOf bytes).2)
    | ['\\'] => throw .badPattern
    | '\\' :: c :: rest => matchChunk fuel rest (name.bind (afterChar? c))
    | c :: rest => matchChunk fuel rest (name.bind (afterChar? c))

/-- Matches the start of a name with a pattern without stars. -/
def matchStart (pattern : List Char) (name : Bytes) : Except Fault (Option Bytes) :=
  matchChunk (pattern.length + 1) pattern (some name)

/-- What is left of a name after a match that may start later, but not behind a slash. -/
def matchLater (pattern : List Char) (isLast : Bool) : Bytes → Except Fault (Option Bytes)
  | [] => .ok none
  | b :: rest => do
    if b = slash then return none
    match ← matchStart pattern rest with
    | some left => if isLast && !left.isEmpty then matchLater pattern isLast rest else return some left
    | none => matchLater pattern isLast rest

/-- Reads a pattern to its end; `fuel` bounds the number of stars. -/
def check : Nat → List Char → Except Fault Unit
  | 0, _ => .ok ()
  | fuel + 1, pattern => do
    if pattern.isEmpty then return
    let (part, rest) := chunk false (pattern.dropWhile (· == '*'))
    let _ ← matchStart part []
    check fuel rest

/-- Matches a pattern with a whole name; `fuel` bounds the number of stars. -/
def matchWithin : Nat → List Char → Bytes → Except Fault Bool
  | 0, _, _ => .error .badPattern
  | fuel + 1, pattern, name => do
    if pattern.isEmpty then return name.isEmpty
    let star := pattern.head? == some '*'
    let (part, rest) := chunk false (pattern.dropWhile (· == '*'))
    if star && part.isEmpty then return !name.contains slash
    let ends (left : Bytes) : Bool := left.isEmpty || !rest.isEmpty
    match ← matchStart part name with
    | some left =>
      if ends left then return ← matchWithin fuel rest left
    | none => pure ()
    let later ← if star then matchLater part rest.isEmpty name else pure none
    match later with
    | some left => matchWithin fuel rest left
    | none =>
      check (rest.length + 1) rest
      return false

/-- Whether a pattern matches a whole name. -/
def matchName (pattern name : String) : Except Fault Bool :=
  matchWithin (pattern.length + 1) pattern.toList (Text.encodeUtf8 name)

/-- Whether a character of a pattern has a meaning of its own. -/
def hasMeta (pattern : String) : Bool := pattern.toList.any "*?[\\".toList.contains

/-- The entries of a directory that a pattern matches, by rising name. -/
def inDirectory (tree : FileTree) (directory pattern : String) : Except Fault (List String) :=
  match tree.list directory with
  | .error _ => .ok []
  | .ok entries => do
    let names ← (entries.map (·.1)).filterM (matchName pattern)
    return names.map (Path.join directory)

/-- The existing paths that an absolute pattern matches. Patterns for the parts are in reverse. -/
def existing (tree : FileTree) : List String → Except Fault (List String)
  | [] => .ok ["/"]
  | part :: before => do
    let directory := "/" ++ String.intercalate "/" before.reverse
    let path := if before.isEmpty then "/" ++ part else directory ++ "/" ++ part
    let _ ← matchName path ""
    if !hasMeta path then return if tree.existsAt path then [path] else []
    if !hasMeta directory then inDirectory tree directory part
    else
      let directories ← existing tree before
      return (← directories.mapM fun d => inDirectory tree d part).flatten

/-- The paths of a tree that a clean absolute pattern matches. -/
def paths (tree : FileTree) (pattern : String) : Except Fault (List String) :=
  existing tree ((Path.parts pattern).filter (· != "")).reverse

end Glob

end Linkage
