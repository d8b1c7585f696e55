import Linkage.Text.Digit
import Linkage.Yaml.Glyph
import Linkage.Yaml.Token

/-!
Scalars as they stand in a stream: without quotes, between quotes, or line by line below a mark. Each reader answers
the text and what follows it.
-/
namespace Linkage
namespace Yaml

/-- What stands between two words of a scalar. -/
inductive Gap where
  | none
  | blanks (cs : List Char)
  /-- The first end of a line, none if it was escaped, and the ends of the empty lines after it. -/
  | broken (first : Option Char) (more : List Char)
deriving Repr, DecidableEq

namespace Gap

def isBroken : Gap → Bool
  | .broken _ _ => true
  | _ => false

/-- Adds a blank or the end of a line. Blanks next to the end of a line do not count. -/
def add (g : Glyph) : Gap → Gap
  | .broken first more => if g.isBreak then .broken first (more ++ [g.ending]) else .broken first more
  | .none => if g.isBreak then .broken (some g.ending) [] else .blanks [g.char]
  | .blanks cs => if g.isBreak then .broken (some g.ending) [] else .blanks (cs ++ [g.char])

/-- What a gap reads as. A single line feed is a space, and empty lines stand for themselves. -/
def fold : Gap → List Char
  | .none => []
  | .blanks cs => cs
  | .broken (some '\n') [] => [' ']
  | .broken (some '\n') more => more
  | .broken first more => first.toList ++ more

end Gap

/-- Whether a scalar without quotes ends before the given glyphs. -/
def endsPlain (flow : Bool) : List Glyph → Bool
  | [] => true
  | g :: rest => (g.char == ':' && endsWord rest) || (flow && ",?[]\x7b\x7d".toList.contains g.char)

/-- Reads a scalar without quotes; `text` is what has been read, in reverse. Answers the text, whether the scalar was
left at the start of a line, and the rest. In block context the scalar ends where a line starts left of `indent`. -/
def readPlain (flow : Bool) (indent : Nat) (text : List Char) (gap : Gap) :
    List Glyph → Except Fault (String × Bool × List Glyph)
  | [] => .ok (String.ofList text.reverse, gap.isBroken, [])
  | g :: rest =>
    if g.isBlank then
      if gap.isBroken && g.column < indent && g.char == '\t' then .error .tabIndent
      else readPlain flow indent text (gap.add g) rest
    else if g.isBreak then readPlain flow indent text (gap.add g) rest
    else
      let apart := gap != .none
      let outdented := apart && !flow && g.column < indent
      let commented := apart && g.char == '#'
      if outdented || commented || atDocumentMark (g :: rest) || endsPlain flow (g :: rest) then
        .ok (String.ofList text.reverse, gap.isBroken, g :: rest)
      else readPlain flow indent (g.char :: (gap.fold.reverse ++ text)) .none rest

/-- Reads what follows an opening single quote. -/
def readSingleQuoted (text : List Char) (gap : Gap) : List Glyph → Except Fault (String × List Glyph)
  | [] => .error .unclosedQuotes
  | g :: rest =>
    if !g.isSolid then readSingleQuoted text (gap.add g) rest
    else if atDocumentMark (g :: rest) then .error .documentMarkInQuotes
    else
      let text := gap.fold.reverse ++ text
      if g.char == '\'' then
        match rest with
        | h :: rest =>
          if h.char == '\'' then readSingleQuoted ('\'' :: text) .none rest
          else .ok (String.ofList text.reverse, h :: rest)
        | [] => .ok (String.ofList text.reverse, [])
      else readSingleQuoted (g.char :: text) .none rest

/-- The escapes of one letter between double quotes. -/
def escapeChar? (c : Char) : Option Char :=
  [('0', '\x00'), ('a', '\x07'), ('b', '\x08'), ('t', '\t'), ('\t', '\t'), ('n', '\n'), ('v', '\x0b'), ('f', '\x0c'),
    ('r', '\r'), ('e', '\x1b'), (' ', ' '), ('"', '"'), ('\'', '\''), ('\\', '\\'), ('N', '\u0085'), ('_', '\u00a0'),
    ('L', '\u2028'), ('P', '\u2029')].lookup c

/-- The number of hexadecimal digits after an escape letter. -/
def escapeWidth? (c : Char) : Option Nat := [('x', 2), ('u', 4), ('U', 8)].lookup c

/-- The character whose number the first `width` glyphs tell. -/
def numberedChar? (width : Nat) (gs : List Glyph) : Option Char :=
  if gs.length < width then none
  else
    (Text.natural? 16 ((gs.take width).map (·.char))).bind fun n =>
      if h : n.isValidChar then some ⟨n.toUInt32, by
        have : n < UInt32.size := Nat.lt_trans (by rcases h with h | h <;> omega) (by decide : 0x110000 < UInt32.size)
        simpa [UInt32.isValidChar, Nat.mod_eq_of_lt this] using h⟩ else none

/-- Reads what follows an opening double quote. -/
def readDoubleQuoted (text : List Char) (gap : Gap) (gs : List Glyph) : Except Fault (String × List Glyph) :=
  match gs with
  | [] => .error .unclosedQuotes
  | g :: rest =>
    if !g.isSolid then readDoubleQuoted text (gap.add g) rest
    else if atDocumentMark (g :: rest) then .error .documentMarkInQuotes
    else
      let text := gap.fold.reverse ++ text
      if g.char == '"' then .ok (String.ofList text.reverse, rest)
      else if g.char == '\\' then
        match rest with
        | [] => .error .escape
        | e :: rest =>
          if e.isBreak then readDoubleQuoted text (.broken none []) rest
          else
            match escapeChar? e.char, escapeWidth? e.char with
            | some c, _ => readDoubleQuoted (c :: text) .none rest
            | none, some width =>
              match numberedChar? width rest with
              | some c => readDoubleQuoted (c :: text) .none (rest.drop width)
              | none => .error .escape
            | none, none => .error .escape
      else readDoubleQuoted (g.char :: text) .none rest
termination_by gs.length
decreasing_by all_goals simp only [List.length_drop, List.length_cons]; omega

/-- What is kept of the line ends after the last line of a text. -/
inductive Chomping where
  | clip
  | strip
  | keep
deriving Repr, DecidableEq

/-- The mark of a text that stands line by line: how it ends, and by how much it is indented if that is told. -/
structure BlockHeader where
  chomping : Chomping
  increment : Option Nat
deriving Repr, DecidableEq

def chompingOf? (c : Char) : Option Chomping := [('+', .keep), ('-', .strip)].lookup c

/-- Reads how a text ends and by how much it is indented, in either order. -/
def readBlockHeader (gs : List Glyph) : Except Fault (BlockHeader × List Glyph) :=
  let chomping (gs : List Glyph) : Option Chomping × List Glyph :=
    match gs with
    | g :: rest => ((chompingOf? g.char), if (chompingOf? g.char).isSome then rest else gs)
    | [] => (none, [])
  let increment (gs : List Glyph) : Option Nat × List Glyph :=
    match gs with
    | g :: rest => if Text.isDigit g.char then (some (g.char.toNat - '0'.toNat), rest) else (none, gs)
    | [] => (none, [])
  let (before, gs) := chomping gs
  let (digit, gs) := increment gs
  let (after, gs) := if before.isNone && digit.isSome then chomping gs else (none, gs)
  let gs := gs.dropWhile (·.isBlank)
  let gs := if gs.head?.any (·.char == '#') then gs.dropWhile (!·.isBreak) else gs
  if digit == some 0 || !(gs.head?.all (·.isBreak)) then .error .blockHeader
  else .ok (⟨(before <|> after).getD .clip, digit⟩, gs.drop 1)

/-- Passes indentation and empty lines. Answers the ends of the lines passed and the widest column met. While the
indentation is not known, all spaces at the start of a line count as indentation. -/
def passBreaks (indent : Option Nat) (widest : Nat) (breaks : List Char) :
    List Glyph → Except Fault (Nat × List Char × List Glyph)
  | [] => .ok (widest, breaks, [])
  | g :: rest =>
    let inMargin := indent.all (g.column < ·)
    if inMargin && g.char == ' ' then passBreaks indent widest breaks rest
    else if inMargin && g.char == '\t' then .error .tabIndent
    else if g.isBreak then passBreaks indent (max widest g.column) (breaks ++ [g.ending]) rest
    else .ok (max widest g.column, breaks, g :: rest)

/-- What has been read of a text that stands line by line. -/
structure BlockLines where
  text : List Char
  /-- The end of the last line. -/
  ending : List Char
  /-- The ends of the empty lines after it. -/
  breaks : List Char
  /-- Whether the last line starts with a blank. -/
  blankStart : Bool

namespace BlockLines

/-- Adds a line. In a folded text the end of a line before another reads as a space, or not at all before empty lines;
lines that start with a blank are not joined. -/
def add (folded : Bool) (lines : BlockLines) (line : List Glyph) (ending : List Char) (breaks : List Char) :
    BlockLines :=
  let blankStart := line.head?.any (·.isBlank)
  let joint :=
    if folded && !lines.blankStart && !blankStart && lines.ending == ['\n'] then
      if lines.breaks.isEmpty then [' '] else []
    else lines.ending
  ⟨lines.text ++ joint ++ lines.breaks ++ line.map (·.char), ending, breaks, blankStart⟩

def finish (chomping : Chomping) (lines : BlockLines) : String :=
  String.ofList (lines.text ++ (match chomping with
    | .strip => []
    | .clip => lines.ending
    | .keep => lines.ending ++ lines.breaks))

end BlockLines

/-- Reads the lines at the given column; `fuel` bounds their number. -/
def readLines (folded : Bool) (indent : Nat) : Nat → BlockLines → List Glyph → Except Fault (BlockLines × List Glyph)
  | 0, lines, gs => .ok (lines, gs)
  | fuel + 1, lines, gs =>
    if gs.head?.any (·.column == indent) then do
      let rest := gs.dropWhile (!·.isBreak)
      let (_, breaks, after) ← passBreaks (some indent) 0 [] (rest.drop 1)
      readLines folded indent fuel
        (lines.add folded (gs.takeWhile (!·.isBreak)) ((rest.take 1).map (·.ending)) breaks) after
    else .ok (lines, gs)

/-- Reads a text that stands line by line, from behind its mark. `parent` is the column of the collection that holds
it, if any. -/
def readBlock (folded : Bool) (parent : Option Nat) (gs : List Glyph) : Except Fault (String × List Glyph) := do
  let (header, gs) ← readBlockHeader gs
  let known := header.increment.map (parent.getD 0 + ·)
  let (widest, breaks, gs) ← passBreaks known 0 [] gs
  let least := max 1 (parent.elim 0 (· + 1))
  let (lines, gs) ← readLines folded (known.getD (max widest least)) (gs.length + 1) ⟨[], [], breaks, false⟩ gs
  return (lines.finish header.chomping, gs)

end Yaml

end Linkage
