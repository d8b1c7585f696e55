import Linkage.Yaml.Plain
import Linkage.Yaml.Token.Lexer

/-! The nodes of a YAML document: scalars, sequences, mappings and aliases, each with the line on which it starts. -/
namespace Linkage
namespace Yaml

/-- A node. Tags are in their short form, as `!!str`; a node without a tag has the one that its content tells. -/
inductive Node where
  | scalar (line : Nat) (tag value : String)
  | sequence (line : Nat) (tag : String) (items : List Node)
  | mapping (line : Nat) (tag : String) (entries : List (Node × Node))
  /-- Stands for another node. -/
  | alias (line : Nat) (name : String) (target : Node)
  /-- Stands for a collection that it is itself part of; its line and tag are kept, and whether it is a mapping. -/
  | cycle (line : Nat) (name : String) (targetLine : Nat) (targetTag : String) (isMapping : Bool)
deriving Repr, Inhabited

/-- What an anchor stands for. -/
inductive Anchored where
  | node (n : Node)
  /-- A collection whose end has not been met. -/
  | unfinished (line : Nat) (tag : String) (isMapping : Bool)

def standardTagStart : String := "tag:yaml.org,2002:"

/-- The short form of a standard tag; other tags stay as they are. -/
def shortTag (tag : String) : String :=
  if tag.startsWith standardTagStart then "!!" ++ (tag.drop standardTagStart.length).toString else tag

namespace Plain

/-- The tag of what an unquoted scalar stands for. -/
def tag : Plain → String
  | .null => "!!null"
  | .bool _ => "!!bool"
  | .int _ => "!!int"
  | .real _ => "!!float"
  | .timestamp => "!!timestamp"
  | .text => "!!str"

end Plain

/-- The key of an entry whose value is merged into the mapping. -/
def mergeKey : String := "<<"

def mergeTag : String := "!!merge"

namespace Node

/-- What is known while a document is put together. -/
structure Composer where
  lexer : Lexer
  handles : List (String × String)
  /-- The anchors, the last one met first. -/
  anchors : List (String × Anchored) := []

abbrev Compose := StateT Composer (Except Fault)

namespace Compose

/-- Reads tokens. -/
def lex (step : Lex α) : Compose α := fun c => do
  let (a, lexer) ← step c.lexer
  return (a, { c with lexer })

/-- The token that comes next. -/
def peek : Compose Token := lex Lexer.peek

def skip : Compose Unit := lex Lexer.take

/-- Lets an anchor stand for something from now on. -/
def bindAnchor (name : Option String) (meaning : Anchored) : Compose Unit := modify fun c =>
  match name with
  | some name => { c with anchors := (name, meaning) :: c.anchors }
  | none => c

/-- Lets the innermost unfinished collection with an anchor be finished. An anchor of the same name that was met
within it stays the last one. -/
def finishAnchor (name : Option String) (made : Node) : Compose Unit := modify fun c =>
  match name with
  | some name => { c with anchors := finish name c.anchors }
  | none => c
where
  finish (name : String) : List (String × Anchored) → List (String × Anchored)
    | [] => []
    | (other, .unfinished line tag isMapping) :: rest =>
      if other = name then (name, .node made) :: rest
      else (other, .unfinished line tag isMapping) :: finish name rest
    | entry :: rest => entry :: finish name rest

/-- The full tag of a handle and a suffix. -/
def fullTag (handle suffix : String) : Compose String := do
  if handle == "" then return suffix
  match (← get).handles.lookup handle with
  | some start => return start ++ suffix
  | none => throw .undefinedHandle

/-- Reads an anchor and a tag, in either order. -/
def properties : Compose (Option String × Option String) := do
  match (← peek).kind with
  | .anchor name =>
    skip
    match (← peek).kind with
    | .tag handle suffix =>
      skip
      return (some name, some (← fullTag handle suffix))
    | _ => return (some name, none)
  | .tag handle suffix =>
    skip
    match (← peek).kind with
    | .anchor name =>
      skip
      return (some name, some (← fullTag handle suffix))
    | _ => return (none, some (← fullTag handle suffix))
  | _ => return (none, none)

/-- The tag of a node: the given one unless it says nothing. -/
def tagOr (tag : Option String) (content : String) : String :=
  match tag with
  | some tag => if tag == "" || tag == "!" then content else shortTag tag
  | none => content

/-- The tag that the content of a scalar tells. -/
def contentTag (text : String) (quoted : Bool) : String :=
  if quoted then "!!str" else if text == mergeKey then mergeTag else (Plain.resolve text).tag

/-- A scalar that is not there. -/
def absent (line : Nat) : Node := .scalar line (Plain.resolve "").tag ""

def aliased (line : Nat) (name : String) : Compose Node := do
  match (← get).anchors.lookup name with
  | some (.node target) => return .alias line name target
  | some (.unfinished targetLine tag isMapping) => return .cycle line name targetLine tag isMapping
  | none => throw (.unknownAnchor name)

/-- An anchor or a tag may stand alone, for an empty scalar. -/
def missing (anchor tag : Option String) (scalar : String → Bool → Compose Node) : Compose Node :=
  if anchor.isSome || tag.isSome then scalar "" false else throw .noContent

/-- Passes the comma before an item or entry that is not the first. -/
def separator (first : Bool) (closing : TokenKind) (fault : Fault) : Compose Unit := do
  let next ← peek
  if !first && next.kind != closing then
    if next.kind != .flowEntry then throw fault
    skip

mutual

/-- Reads a node. In block context collections may stand in block style, and where `indentless` holds, also items
without indentation. Every call takes a token or ends; `fuel` bounds their number. -/
def node : Nat → Bool → Bool → Compose Node
  | 0, _, _ => throw .noContent
  | fuel + 1, block, indentless => do
    let start ← peek
    if let .alias name := start.kind then
      skip
      return ← aliased start.line name
    let (anchor, tag) ← properties
    let sequenceTag := tagOr tag "!!seq"
    let mappingTag := tagOr tag "!!map"
    let sequence (items : Compose (List Node)) : Compose Node := do
      bindAnchor anchor (.unfinished start.line sequenceTag false)
      let made := Node.sequence start.line sequenceTag (← items)
      finishAnchor anchor made
      return made
    let mapping (entries : Compose (List (Node × Node))) : Compose Node := do
      bindAnchor anchor (.unfinished start.line mappingTag true)
      let made := Node.mapping start.line mappingTag (← entries)
      finishAnchor anchor made
      return made
    let scalar (text : String) (quoted : Bool) : Compose Node := do
      let made := Node.scalar start.line (tagOr tag (contentTag text quoted)) text
      bindAnchor anchor (.node made)
      return made
    match (← peek).kind with
    | .blockEntry => if indentless then sequence (indentlessItems fuel) else missing anchor tag scalar
    | .scalar text quoted =>
      skip
      scalar text quoted
    | .flowSequenceStart =>
      skip
      sequence (flowItems fuel true)
    | .flowMappingStart =>
      skip
      mapping (flowEntries fuel true)
    | .blockSequenceStart =>
      if block then
        skip
        sequence (blockItems fuel)
      else missing anchor tag scalar
    | .blockMappingStart =>
      if block then
        skip
        mapping (blockEntries fuel)
      else missing anchor tag scalar
    | _ => missing anchor tag scalar

/-- Reads a node unless what comes next belongs to the collection around it. In block context a node that is not there
has the line of the mark before it, otherwise that of what comes next. -/
def nodeUnless : Nat → Bool → Bool → Nat → List TokenKind → Compose Node
  | 0, _, _, _, _ => throw .noContent
  | fuel + 1, block, indentless, mark, ends => do
    let next ← peek
    if ends.contains next.kind then return absent (if block then mark else next.line)
    else node fuel block indentless

/-- The items of a block sequence up to its end. -/
def blockItems : Nat → Compose (List Node)
  | 0 => throw .noContent
  | fuel + 1 => do
    let next ← peek
    match next.kind with
    | .blockEntry =>
      skip
      let item ← nodeUnless fuel true false next.line [.blockEntry, .blockEnd]
      return item :: (← blockItems fuel)
    | .blockEnd =>
      skip
      return []
    | _ => throw .expectedEntry

/-- The items of a block sequence at the column of the key before it. -/
def indentlessItems : Nat → Compose (List Node)
  | 0 => throw .noContent
  | fuel + 1 => do
    let next ← peek
    match next.kind with
    | .blockEntry =>
      skip
      let item ← nodeUnless fuel true false next.line [.blockEntry, .key, .value, .blockEnd]
      return item :: (← indentlessItems fuel)
    | _ => return []

/-- The entries of a block mapping up to its end. -/
def blockEntries : Nat → Compose (List (Node × Node))
  | 0 => throw .noContent
  | fuel + 1 => do
    let ends : List TokenKind := [.key, .value, .blockEnd]
    let next ← peek
    match next.kind with
    | .key =>
      skip
      let key ← nodeUnless fuel true true next.line ends
      let value ← valueUnless fuel true ends
      return (key, value) :: (← blockEntries fuel)
    | .blockEnd =>
      skip
      return []
    | _ => throw .expectedKey

/-- The value after a key, if there is one. -/
def valueUnless : Nat → Bool → List TokenKind → Compose Node
  | 0, _, _ => throw .noContent
  | fuel + 1, block, ends => do
    let next ← peek
    if next.kind == .value then
      skip
      nodeUnless fuel block block next.line ends
    else return absent next.line

/-- The items of a flow sequence up to its end. A key among them makes a mapping of one entry. -/
def flowItems : Nat → Bool → Compose (List Node)
  | 0, _ => throw .noContent
  | fuel + 1, first => do
    separator first .flowSequenceEnd .expectedSequenceEnd
    let next ← peek
    match next.kind with
    | .flowSequenceEnd =>
      skip
      return []
    | .key =>
      skip
      let ends : List TokenKind := [.value, .flowEntry, .flowSequenceEnd]
      let inner ← peek
      let key ← nodeUnless fuel false false next.line ends
      if ends.contains inner.kind then skip
      let value ← valueUnless fuel false [.flowEntry, .flowSequenceEnd]
      return .mapping next.line "!!map" [(key, value)] :: (← flowItems fuel false)
    | _ =>
      let item ← node fuel false false
      return item :: (← flowItems fuel false)

/-- The entries of a flow mapping up to its end. -/
def flowEntries : Nat → Bool → Compose (List (Node × Node))
  | 0, _ => throw .noContent
  | fuel + 1, first => do
    separator first .flowMappingEnd .expectedMappingEnd
    let next ← peek
    match next.kind with
    | .flowMappingEnd =>
      skip
      return []
    | .key =>
      skip
      let key ← nodeUnless fuel false false next.line [.value, .flowEntry, .flowMappingEnd]
      let value ← valueUnless fuel false [.flowEntry, .flowMappingEnd]
      return (key, value) :: (← flowEntries fuel false)
    | _ =>
      let key ← node fuel false false
      let value := absent (← peek).line
      return (key, value) :: (← flowEntries fuel false)

end

/-- Reads the directives before a document. -/
def directives : Nat → Bool → List (String × String) → Compose (List (String × String))
  | 0, _, _ => throw .documentStart
  | fuel + 1, versioned, handles => do
    match (← peek).kind with
    | .version major minor =>
      if versioned then throw .duplicateDirective
      if major != 1 || minor != 1 then throw .incompatibleVersion
      skip
      directives fuel true handles
    | .tagDirective handle start =>
      if (handles.lookup handle).isSome then throw .duplicateDirective
      skip
      directives fuel versioned ((handle, start) :: handles)
    | _ => return handles

/-- The handles that every document knows. -/
def standardHandles : List (String × String) := [("!", "!"), ("!!", standardTagStart)]

/-- Reads the first document of a stream, if there is one. -/
def document (fuel : Nat) : Compose (Option Node) := do
  match (← peek).kind with
  | .streamEnd => return none
  | .version _ _ | .tagDirective _ _ | .documentStart =>
    let handles ← directives fuel false []
    modify fun c => { c with handles := handles ++ standardHandles }
    if (← peek).kind != .documentStart then throw .documentStart
    skip
    let next ← peek
    match next.kind with
    | .version _ _ | .tagDirective _ _ | .documentStart | .documentEnd | .streamEnd => return some (absent next.line)
    | _ => return some (← node fuel true false)
  | _ => return some (← node fuel true false)

end Compose

/-- The first document of a stream, if there is one. The token behind it has to be sound, and what comes after that is
looked at only as far as needed to tell it. -/
def parse (data : Bytes) : Except Fault (Option Node) := do
  let stream := Stream.decode data
  let read : Compose (Option Node) := do
    let node ← Compose.document (16 * stream.glyphs.length + 64)
    if node.isSome then
      let _ ← Compose.peek
    return node
  let (node, _) ← read.run { lexer := .ofStream stream, handles := Compose.standardHandles }
  return node

end Node

end Yaml

end Linkage
