import Linkage.Yaml.Token.Scalar
import Linkage.Yaml.Token.Tag

/-!
Cutting a YAML stream into tokens, as they are asked for. Collections in block style have no brackets: a token opens
one where the column of an item or a key grows, and another closes it where the column falls. A key is known as such
only when its colon is met, so the token before it is put in late, and what may be a key is held back until then.
-/
namespace Linkage
namespace Yaml

/-- A place at which a key may start. -/
structure KeyPlace where
  /-- Whether a colon that is met now makes it a key. -/
  possible : Bool
  /-- Whether nothing but a key may stand there. -/
  required : Bool
  /-- The number of the token at this place. -/
  number : Nat
  line : Nat
  column : Nat
  index : Nat
deriving Repr, DecidableEq

/-- How far a stream has been read. -/
structure Lexer where
  rest : List Glyph
  /-- At most so many tokens are read. -/
  bound : Nat
  /-- What is wrong with the stream behind the rest, if anything. -/
  fault : Option Fault := none
  /-- The first character of a line before this index does not count. -/
  margin : Nat := 0
  /-- The tokens that have been read and not been taken. -/
  queue : Array Token := #[]
  /-- The number of tokens that have been taken. -/
  taken : Nat := 0
  /-- The columns of the open block collections, the innermost first. -/
  indents : List Nat := []
  keyAllowed : Bool := true
  /-- The last place of a key in the block context and in every open flow collection, the outermost first. -/
  places : Array KeyPlace := #[⟨false, false, 0, 0, 0, 0⟩]
  /-- The tokens that are held back, each with the level of the place that may be a key. -/
  held : List (Nat × Nat) := []

/-- A step of reading. -/
abbrev Lex := StateT Lexer (Except Fault)

namespace Lexer

/-- Where a scan for the next token is. -/
inductive Skip where
  | blank
  | comment
  /-- Between two comments. -/
  | toComment

/-- How far a comment is looked for. -/
def commentReach : Nat := 512

/-- Whether another comment follows the end of a comment after blanks and line ends. Only line feeds and carriage
returns are looked over. -/
def commentFollows (lineEnd : Glyph) (rest : List Glyph) : Bool :=
  let short (g : Glyph) := g.char == '\n' || g.char == '\r'
  short lineEnd && (rest.dropWhile fun g => g.isBlank || short g).head?.any fun g =>
    g.char == '#' && g.index < lineEnd.index + commentReach

/-- Whether a glyph starts a line whose first character does not count. -/
def inMargin (margin : Nat) (g : Glyph) : Bool := g.column == 0 && g.index < margin

/-- Passes blanks, comments and line ends, and answers whether a key may follow. In block context the start of a line
allows one, and where one is allowed a tab does not count as blank, save between comments. A character that does not
count is left to the caller. -/
def skipBlank (flow : Bool) (margin : Nat) (mode : Skip) (keyAllowed : Bool) : List Glyph → Bool × List Glyph
  | [] => (keyAllowed, [])
  | g :: rest =>
    match mode with
    | .toComment => skipBlank flow margin (if g.char == '#' then .comment else .toComment) keyAllowed rest
    | .comment =>
      if !g.isBreak then skipBlank flow margin .comment keyAllowed rest
      else if commentFollows g rest then skipBlank flow margin .toComment keyAllowed rest
      else skipBlank flow margin .blank (keyAllowed || !flow) rest
    | .blank =>
      if inMargin margin g then (keyAllowed, g :: rest)
      else if g.char == ' ' || (g.char == '\t' && (flow || !keyAllowed)) then
        skipBlank flow margin .blank keyAllowed rest
      else if g.isBreak then skipBlank flow margin .blank (keyAllowed || !flow) rest
      else if g.char == '#' then skipBlank flow margin .comment keyAllowed rest
      else (keyAllowed, g :: rest)

def inFlow (l : Lexer) : Bool := 1 < l.places.size

/-- Passes a character that does not count. Where it ends a line it does not do so: the next line goes on. Of two
characters that end a line together only the first is passed. -/
def passMargin (g : Glyph) (rest : List Glyph) : List Glyph :=
  if !g.isBreak then rest
  else if rest.head?.any (·.index == g.index + 2) then { g with column := 1 } :: rest
  else Glyph.placeFrom g.line 1 (g.index + 1) (rest.map (·.char))

/-- Passes all that stands before the next token; `fuel` bounds the number of lines. -/
def skipToToken : Nat → Lexer → Lexer
  | 0, l => l
  | fuel + 1, l =>
    let (keyAllowed, rest) := skipBlank l.inFlow l.margin .blank l.keyAllowed l.rest
    match rest with
    | [] => { l with keyAllowed, rest }
    | g :: after =>
      if inMargin l.margin g then skipToToken fuel { l with keyAllowed, rest := passMargin g after }
      else { l with keyAllowed, rest }

/-- The line of what comes next, counted from one. -/
def line (l : Lexer) : Nat := (l.rest.head?.elim 0 (·.line)) + 1

def column (l : Lexer) : Nat := l.rest.head?.elim 0 (·.column)

/-- The number of the token that is read next. -/
def next (l : Lexer) : Nat := l.taken + l.queue.size

/-- Asks for glyphs. Those behind what has been decoded are not to be had if the stream is faulty there. -/
def demand (n : Nat) : Lex Unit := do
  let l ← get
  if let some fault := l.fault then
    if (l.rest.take n).length < n then throw fault

def push (kind : TokenKind) : Lex Unit := modify fun l => { l with queue := l.queue.push ⟨kind, l.line⟩ }

/-- Puts a token before the one with the given number, or at the end if that one has been taken. -/
def insert (number : Nat) (token : Token) : Lex Unit := modify fun l =>
  let i := if number < l.taken then l.queue.size else number - l.taken
  { l with queue := l.queue.extract 0 i ++ #[token] ++ l.queue.extract i }

/-- Passes over the first glyphs. -/
def skip (n : Nat) : Lex Unit := modify fun l => { l with rest := l.rest.drop n }

def allowKey (allowed : Bool) : Lex Unit := modify fun l => { l with keyAllowed := allowed }

/-- How deep collections may be nested. -/
def maxDepth : Nat := 10000

/-- Closes the block collections that stand right of a column. -/
def closeBlocks (column : Int) : Lex Unit := modify fun l =>
  if l.inFlow then l
  else
    let closed := l.indents.takeWhile fun (indent : Nat) => column < indent
    { l with
      indents := l.indents.drop closed.length
      queue := l.queue ++ (closed.map fun _ => Token.mk .blockEnd l.line).toArray }

/-- Opens a block collection at a column, unless one is open there. -/
def openBlock (kind : TokenKind) (number line column : Nat) : Lex Unit := do
  let l ← get
  if !l.inFlow && l.indents.head?.all (· < column) then
    if l.indents.length = maxDepth then throw .depth
    set { l with indents := column :: l.indents }
    insert number ⟨kind, line⟩

/-- Opens a block collection here. -/
def openBlockHere (kind : TokenKind) : Lex Unit := do
  let l ← get
  openBlock kind l.next l.line l.column

/-- Lets a token no longer be held back. -/
def release (number : Nat) : Lex Unit := modify fun l => { l with held := l.held.filter (·.1 != number) }

/-- Gives the last place of a key up. -/
def dropKey : Lex Unit := do
  let l ← get
  if let some place := l.places.back? then
    if place.possible then
      if place.required then throw .unfinishedKey
      set { l with places := l.places.pop.push { place with possible := false } }
      release place.number

/-- Notes that a key may start here. In block context a key has to start here if a mapping is open at this column. -/
def noteKey : Lex Unit := do
  let l ← get
  if l.keyAllowed then
    dropKey
    modify fun l =>
      let required := !l.inFlow && l.indents.head? == some l.column
      let index := l.rest.head?.elim 0 (·.index)
      { l with
        places := l.places.pop.push ⟨true, required, l.next, l.line, l.column, index⟩
        held := (l.next, l.places.size - 1) :: l.held }

/-- Whether the place at a level may still be a key: it has to be on this line and at most 1024 characters back. -/
def stillPossible (level : Nat) : Lex Bool := do
  let l ← get
  match l.places[level]? with
  | none => return false
  | some place =>
    if !place.possible then return false
    if l.rest.head?.any fun g => place.line = g.line + 1 && g.index ≤ place.index + 1024 then return true
    if place.required then throw .unfinishedKey
    set { l with places := l.places.modify level ({ · with possible := false }) }
    return false

def fetchStreamEnd : Lex Unit := do
  closeBlocks (-1)
  dropKey
  allowKey false
  push .streamEnd

/-- Reads a number of one or two digits. -/
def readVersionNumber (gs : List Glyph) : Except Fault (Nat × List Glyph) :=
  let digits := gs.takeWhile (Text.isDigit ·.char)
  match Text.natural? 10 (digits.map (·.char)) with
  | some n => if digits.length ≤ 2 then .ok (n, gs.drop digits.length) else .error .directive
  | none => .error .directive

/-- Reads what a directive is and its arguments. -/
def readDirective (gs : List Glyph) : Except Fault (TokenKind × List Glyph) := do
  let name := gs.takeWhile (isWordChar ·.char)
  let gs := gs.drop name.length
  if !endsWord gs then throw .directive
  let gs := gs.dropWhile (·.isBlank)
  match textOf name with
  | "YAML" =>
    let (major, gs) ← readVersionNumber gs
    if !(gs.head?.any (·.char == '.')) then throw .directive
    let (minor, gs) ← readVersionNumber (gs.drop 1)
    return (.version major minor, gs)
  | "TAG" =>
    if !(gs.head?.any (·.char == '!')) then throw .directive
    let (handle, gs) := readHandle gs
    if !handle.endsWith "!" || !(gs.head?.any (·.isBlank)) then throw .directive
    let (start, gs) ← readTagText (gs.dropWhile (·.isBlank))
    if !endsWord gs then throw .directive
    return (.tagDirective handle start, gs)
  | _ => throw .directive

def fetchDirective : Lex Unit := do
  closeBlocks (-1)
  dropKey
  allowKey false
  let (kind, gs) ← readDirective ((← get).rest.drop 1)
  let gs := gs.dropWhile (·.isBlank)
  let gs := if gs.head?.any (·.char == '#') then gs.dropWhile (!·.isBreak) else gs
  if !(gs.head?.all (·.isBreak)) then throw .directive
  push kind
  modify fun l => { l with rest := gs }
  demand 1
  skip 1

def fetchDocumentMark (kind : TokenKind) : Lex Unit := do
  closeBlocks (-1)
  dropKey
  allowKey false
  push kind
  skip 3

def fetchFlowStart (kind : TokenKind) : Lex Unit := do
  noteKey
  modify fun l => { l with places := l.places.push ⟨false, false, l.next, 0, 0, 0⟩, keyAllowed := true }
  if maxDepth + 1 < (← get).places.size then throw .depth
  push kind
  skip 1

/-- Closes a flow collection. With it goes the hold of the last place in it; where that place is the collection's own
bracket, the collection is no longer held back. -/
def fetchFlowEnd (kind : TokenKind) : Lex Unit := do
  dropKey
  let l ← get
  if l.inFlow then
    if let some place := l.places.back? then
      set { l with places := l.places.pop }
      release place.number
  allowKey false
  push kind
  skip 1

def fetchFlowEntry : Lex Unit := do
  dropKey
  allowKey true
  push .flowEntry
  skip 1

def fetchBlockEntry : Lex Unit := do
  let l ← get
  if !l.inFlow then
    if !l.keyAllowed then throw .entryNotAllowed
    openBlockHere .blockSequenceStart
  dropKey
  allowKey true
  push .blockEntry
  skip 1

def fetchKey : Lex Unit := do
  let l ← get
  if !l.inFlow then
    if !l.keyAllowed then throw .keyNotAllowed
    openBlockHere .blockMappingStart
  dropKey
  allowKey (!l.inFlow)
  push .key
  skip 1

def fetchValue : Lex Unit := do
  let l ← get
  match ← stillPossible (l.places.size - 1), l.places.back? with
  | true, some place =>
    insert place.number ⟨.key, place.line⟩
    openBlock .blockMappingStart place.number place.line place.column
    modify fun l => { l with places := l.places.pop.push { place with possible := false } }
    release place.number
    allowKey false
  | _, _ =>
    if !l.inFlow then
      if !l.keyAllowed then throw .valueNotAllowed
      openBlockHere .blockMappingStart
    allowKey (!l.inFlow)
  push .value
  skip 1

/-- Reads a name after its mark. -/
def fetchName (kind : String → TokenKind) : Lex Unit := do
  noteKey
  allowKey false
  let gs := (← get).rest.drop 1
  let name := gs.takeWhile (isWordChar ·.char)
  let after := gs.drop name.length
  if name.isEmpty || !(endsWord after || after.head?.any fun g => "?:,]\x7d%@`".toList.contains g.char) then
    throw .anchorName
  push (kind (textOf name))
  modify fun l => { l with rest := after }

def fetchTag : Lex Unit := do
  noteKey
  allowKey false
  let (handle, suffix, gs) ← readTag (← get).rest
  push (.tag handle suffix)
  modify fun l => { l with rest := gs }

def fetchBlockScalar (folded : Bool) : Lex Unit := do
  dropKey
  allowKey true
  let l ← get
  let (text, gs) ← readBlock folded l.indents.head? (l.rest.drop 1)
  push (.scalar text true)
  modify fun l => { l with rest := gs }
  demand 1

def fetchQuoted (single : Bool) : Lex Unit := do
  noteKey
  allowKey false
  let gs := (← get).rest.drop 1
  let (text, gs) ← if single then readSingleQuoted [] .none gs else readDoubleQuoted [] .none gs
  push (.scalar text true)
  modify fun l => { l with rest := gs }

/-- Reads a scalar without quotes. Answers whether it was left at the start of a line. -/
def fetchPlain : Lex Bool := do
  noteKey
  allowKey false
  let l ← get
  let (text, atLineStart, gs) ← readPlain l.inFlow (l.indents.head?.elim 0 (· + 1)) [] .none l.rest
  push (.scalar text false)
  modify fun l => { l with rest := gs, keyAllowed := l.keyAllowed || atLineStart }
  demand (if atLineStart then 1 else 2)
  return atLineStart

/-- Whether a scalar without quotes may start with the given glyphs. -/
def startsPlain (flow : Bool) : List Glyph → Bool
  | [] => false
  | g :: rest =>
    if g.char == '-' then true
    else if g.char == '?' || g.char == ':' then !flow && !endsWord rest
    else g.isSolid && !(",[]\x7b\x7d#&*!|>'\"%@`".toList.contains g.char)

/-- Passes a comment that follows a token on its line. -/
def skipLineComment : Lex Unit := do
  let l ← get
  let blanks := l.rest.takeWhile (·.isBlank)
  let after := l.rest.drop blanks.length
  if blanks.length < commentReach && after.head?.any (·.char == '#') then
    set { l with rest := after.dropWhile (!·.isBreak) }
  demand (if blanks.length < commentReach && after.isEmpty then blanks.length + 1 else 1)

/-- Reads the token that starts here, and the comment behind it. A dash has none: it belongs to what follows. -/
def fetchToken (g : Glyph) (after : List Glyph) : Lex Unit := do
  let flow := (← get).inFlow
  match g.char with
  | '[' => fetchFlowStart .flowSequenceStart
  | '\x7b' => fetchFlowStart .flowMappingStart
  | ']' => fetchFlowEnd .flowSequenceEnd
  | '\x7d' => fetchFlowEnd .flowMappingEnd
  | ',' => fetchFlowEntry
  | '*' => fetchName .alias
  | '&' => fetchName .anchor
  | '!' => fetchTag
  | '\'' => fetchQuoted true
  | '"' => fetchQuoted false
  | c =>
    if c == '-' && endsWord after then return ← fetchBlockEntry
    else if c == '?' && (flow || endsWord after) then fetchKey
    else if c == ':' && (flow || endsWord after) then fetchValue
    else if (c == '|' || c == '>') && !flow then return ← fetchBlockScalar (c == '>')
    else if startsPlain flow (g :: after) then
      if ← fetchPlain then return
    else throw .noToken
  skipLineComment

/-- Reads the next token. At the end of a stream there is always another end. -/
def fetch : Lex Unit := do
  modify fun l => skipToToken l.bound l
  demand 4
  let l ← get
  match l.rest with
  | [] => fetchStreamEnd
  | g :: after =>
    closeBlocks g.column
    if g.column == 0 && g.char == '%' then fetchDirective
    else if atDocumentMark l.rest then fetchDocumentMark (if g.char == '-' then .documentStart else .documentEnd)
    else fetchToken g after

/-- Whether the next token can be handed out: two more are in sight, and it is not held back. -/
def ready : Lex Bool := do
  let l ← get
  if l.queue.size < 3 then return false
  match l.held.lookup l.taken with
  | none => return true
  | some level => return !(← stillPossible level)

/-- Reads tokens until one can be handed out; `fuel` bounds their number. -/
def supply : Nat → Lex Unit
  | 0 => pure ()
  | fuel + 1 => do
    if !(← ready) then
      fetch
      supply fuel

/-- The next token. -/
def peek : Lex Token := do
  supply (← get).bound
  match (← get).queue[0]? with
  | some token => return token
  | none => throw .noContent

/-- Takes the next token. -/
def take : Lex Unit := modify fun l =>
  { l with queue := l.queue.extract 1, taken := l.taken + 1, held := l.held.filter (l.taken < ·.1) }

/-- A lexer at the start of a stream. Each token takes a character but the ends of the stream, of which three are in
sight at most. -/
def ofStream (s : Stream) : Lexer :=
  { rest := s.glyphs, bound := s.glyphs.length + 4, fault := s.fault, margin := s.margin }

end Lexer

end Yaml

end Linkage
