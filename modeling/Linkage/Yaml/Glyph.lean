/-! The characters of a YAML stream with their places. -/
namespace Linkage
namespace Yaml

/-- The characters that end a line. -/
def isBreak (c : Char) : Bool :=
  c == '\n' || c == '\r' || c == '\u0085' || c == '\u2028' || c == '\u2029'

def isBlank (c : Char) : Bool := c == ' ' || c == '\t'

/-- The characters of anchors, of handles of tags and of the names of directives. -/
def isWordChar (c : Char) : Bool :=
  ('0' ≤ c && c ≤ '9') || ('a' ≤ c && c ≤ 'z') || ('A' ≤ c && c ≤ 'Z') || c == '_' || c == '-'

/-- The characters that a stream may hold. -/
def isAllowed (c : Char) : Bool :=
  c == '\t' || c == '\n' || c == '\r' || (' ' ≤ c && c ≤ '~') || c == '\u0085' || ('\u00a0' ≤ c && c ≤ '\ufffd') ||
    '\ufffd'.toNat + 2 < c.toNat

/-- A character with its line, its column and its index in the stream, all counted from zero. -/
structure Glyph where
  char : Char
  line : Nat
  column : Nat
  index : Nat
deriving Repr, DecidableEq

namespace Glyph

def isBreak (g : Glyph) : Bool := Yaml.isBreak g.char
def isBlank (g : Glyph) : Bool := Yaml.isBlank g.char

/-- Neither blank nor the end of a line. -/
def isSolid (g : Glyph) : Bool := !g.isBlank && !g.isBreak

/-- What the end of a line reads as: a line feed, whichever way it is written, but for the separators of lines and of
paragraphs, which stay. -/
def ending (g : Glyph) : Char := if g.char == '\u2028' || g.char == '\u2029' then g.char else '\n'

/-- Places the characters from the given place on. A carriage return and a line feed end a line together. -/
def placeFrom (line column index : Nat) : List Char → List Glyph
  | [] => []
  | '\r' :: '\n' :: rest => ⟨'\n', line, column, index⟩ :: placeFrom (line + 1) 0 (index + 2) rest
  | c :: rest =>
    ⟨c, line, column, index⟩ ::
      if Yaml.isBreak c then placeFrom (line + 1) 0 (index + 1) rest
      else placeFrom line (column + 1) (index + 1) rest

/-- The glyphs of a stream. -/
def place (cs : List Char) : List Glyph := placeFrom 0 0 0 cs

end Glyph

/-- Whether what follows starts with a blank, with the end of a line or not at all. -/
def endsWord (rest : List Glyph) : Bool := rest.head?.all fun g => !g.isSolid

/-- Whether what follows is a mark between documents: three dashes or three points at the start of a line. -/
def atDocumentMark (rest : List Glyph) : Bool :=
  rest.head?.any (·.column == 0) && endsWord (rest.drop 3) &&
    ((rest.take 3).map (·.char) == ['-', '-', '-'] || (rest.take 3).map (·.char) == ['.', '.', '.'])

/-- The text of glyphs. -/
def textOf (gs : List Glyph) : String := String.ofList (gs.map (·.char))

end Yaml

end Linkage
