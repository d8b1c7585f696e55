import Linkage.Config
import Linkage.Text.Base64
import Linkage.Text.Quoted
import Linkage.Yaml.Node

/-!
Settings written in YAML. What the document does not mention keeps its value. Values of a wrong type are reported
together, in the order of the document; a malformed document is reported alone.
-/
namespace Linkage
namespace Config

open Yaml (Node Plain Fault)

/-- The types that values are read as. -/
inductive Target where
  | int
  | bool
  | string
  | strings
  | config
deriving Repr, DecidableEq

def Target.name : Target → String
  | .int => "int"
  | .bool => "bool"
  | .string => "string"
  | .strings => "[]string"
  | .config => "analyzer.Config"

/-- Something that does not fit the settings. -/
inductive Complaint where
  | mismatch (line : Nat) (tag value : String) (target : Target)
  | duplicateKey (line : Nat) (key : String) (firstLine : Nat)
  | duplicateField (line : Nat) (name : String)
deriving Repr, DecidableEq

/-- The first bytes of a text that is longer than ten bytes. Each byte of a character that is cut is shown as the
replacement character. -/
def abbreviate (value : String) : String :=
  if value.utf8ByteSize ≤ 10 then value
  else go 7 value.toList ++ "..."
where
  go (room : Nat) : List Char → String
    | [] => ""
    | c :: rest =>
      if c.utf8Size ≤ room then String.singleton c ++ go (room - c.utf8Size) rest
      else String.ofList (List.replicate room '\ufffd')

namespace Complaint

/-- The value of a node that does not fit is shown between backquotes, but as it is behind the tag of a collection. -/
def text : Complaint → String
  | .mismatch line tag value target =>
    let shown := if tag == "!!seq" || tag == "!!map" then value else " `" ++ abbreviate value ++ "`"
    "line " ++ toString line ++ ": cannot unmarshal " ++ tag ++ shown ++ " into " ++ target.name
  | .duplicateKey line key firstLine =>
    "line " ++ toString line ++ ": mapping key " ++ Text.quote key ++ " already defined at line " ++ toString firstLine
  | .duplicateField line name =>
    "line " ++ toString line ++ ": field " ++ name ++ " already set in type " ++ Target.config.name

end Complaint

/-- Why settings cannot be read. -/
inductive DecodeError where
  | malformed (fault : Fault)
  | mistyped (complaints : List Complaint)
deriving Repr, DecidableEq

namespace DecodeError

def message : DecodeError → String
  | .malformed fault => "yaml: " ++ fault.text
  | .mistyped complaints => "yaml: unmarshal errors:" ++ String.join (complaints.map fun c => "\n  " ++ c.text)

end DecodeError

/-- The complaints so far, and the work done: all steps, and those done for aliases. -/
structure Tally where
  complaints : List Complaint := []
  steps : Nat := 0
  aliasSteps : Nat := 0
  /-- How many aliases the current node is reached through. -/
  aliasDepth : Nat := 0

namespace Tally

/-- Whether aliases cause too much of the work. Small documents may owe them up to 99 in a hundred steps; from 400000
steps on the share falls evenly, to ten in a hundred at 4000000. -/
def excessive (t : Tally) : Bool :=
  let range := 3600000
  let above := min (t.steps - 400000) range
  100 < t.aliasSteps && 1000 < t.steps && t.steps * (99 * range - 89 * above) < t.aliasSteps * 100 * range

end Tally

/-- Reading collects complaints and ends with a fault. -/
abbrev Decode := StateT Tally (Except Fault)

namespace Decode

def complain (cs : List Complaint) : Decode Unit := modify fun t => { t with complaints := t.complaints ++ cs }

/-- Counts a step. -/
def count : Decode Unit := do
  modify fun t => { t with steps := t.steps + 1, aliasSteps := t.aliasSteps + if t.aliasDepth = 0 then 0 else 1 }
  if (← get).excessive then throw .aliasing

/-- Does something for what an alias stands for. -/
def behindAlias (action : Decode α) : Decode α := do
  modify fun t => { t with aliasDepth := t.aliasDepth + 1 }
  count
  let result ← action
  modify fun t => { t with aliasDepth := t.aliasDepth - 1 }
  return result

/-- Reads a node, or the one that it stands for. -/
def visit (read : Node → Decode α) (n : Node) : Decode α := do
  count
  match n with
  | .alias _ _ target => behindAlias (read target)
  | .cycle _ _ _ _ _ => behindAlias (read n)
  | n => read n

/-- The line of a node, and what tells it from other keys of a mapping. -/
def keyOf : Node → Nat × String × String
  | .scalar line _ value => (line, "scalar", value)
  | .sequence line _ _ => (line, "sequence", "")
  | .mapping line _ _ => (line, "mapping", "")
  | .alias line name _ => (line, "alias", name)
  | .cycle line name _ _ _ => (line, "alias", name)

/-- Every later key that repeats an earlier one. -/
def duplicates : List (Nat × String × String) → List Complaint
  | [] => []
  | (first, key) :: rest =>
    (rest.filterMap fun (line, other) => if other = key then some (.duplicateKey line key.2 first) else none) ++
      duplicates rest

/-- Complains about repeated keys; answers whether there are none. -/
def distinctKeys (entries : List (Node × Node)) : Decode Bool := do
  let found := duplicates (entries.map fun e => keyOf e.1)
  complain found
  return found.isEmpty

/-- What a scalar stands for under its tag, and its text. An integer may be tagged as a real number; other standard
tags have to fit. A scalar with a tag of another kind is a text, which a tag for bytes tells in base 64. -/
def meaning (tag value : String) : Decode (Plain × String) := do
  let plain := Plain.resolve value
  if tag == "!!binary" then
    match Text.decode64? value with
    | some data => return (.text, Text.decodeUtf8 data)
    | none => throw .binary
  if !(["!!bool", "!!int", "!!float", "!!null", "!!timestamp"].contains tag) then return (.text, value)
  if plain.tag == tag then return (plain, value)
  match plain with
  | .int n =>
    if tag == "!!float" && n < 0x8000000000000000 then
      return (.real (.finite (n < 0) ((Decimal.BinaryFormat.double.nearest? ⟨n.natAbs, 0⟩).getD 0)), value)
  | _ => pure ()
  throw (.conversion plain.tag value tag)

/-- Complains that a node does not fit. A mapping with repeated keys is complained about for these. -/
def refuse (n : Node) (wanted : Target) : Decode Unit := do
  match n with
  | .scalar line tag value => complain [.mismatch line tag value wanted]
  | .sequence line tag _ => complain [.mismatch line tag "" wanted]
  | .mapping line tag entries => if ← distinctKeys entries then complain [.mismatch line tag "" wanted]
  | .cycle _ _ line tag _ => complain [.mismatch line tag "" wanted]
  | .alias line _ _ => complain [.mismatch line "" "" wanted]

/-- The integer of 64 bits that a real number is cut to. What lies beyond the range on the negative side, and the
first number beyond it on the positive side, becomes the least integer. -/
def truncate? : Yaml.Real → Option Int
  | .nan => none
  | .infinite negative => if negative then some (-0x8000000000000000) else none
  | .finite negative bits =>
    match Decimal.BinaryFormat.double.decode bits with
    | .finite _ mantissa exponent _ =>
      let size : Int := (mantissa <<< exponent.toNat >>> (-exponent).toNat : Nat)
      let n := if negative then -size else size
      if 0x8000000000000000 < n then none else if n < -0x8000000000000000 ∨ n = 0x8000000000000000 then some (-0x8000000000000000) else some n
    | _ => none

/-- Reads an integer; none leaves the setting as it is. -/
def int : Node → Decode (Option Int) := visit fun n => do
  if let .scalar _ tag value := n then
    match (← meaning tag value).1 with
    | .null => return none
    | .int v => if v < 0x8000000000000000 then return some v
    | .real r => if let some v := truncate? r then return some v
    | _ => pure ()
  refuse n .int
  return none

/-- Reads a truth value; none leaves the setting as it is. Words of an earlier edition of the format count too. -/
def bool : Node → Decode (Option Bool) := visit fun n => do
  if let .scalar _ tag value := n then
    match ← meaning tag value with
    | (.null, _) => return none
    | (.bool b, _) => return some b
    | (.text, text) => if let some b := Plain.formerBool? text then return some b
    | _ => pure ()
  refuse n .bool
  return none

/-- Reads a text: that of any scalar but null. -/
def string : Node → Decode (Option String) := visit fun n => do
  if let .scalar _ tag value := n then
    let (plain, text) ← meaning tag value
    return if plain == .null then none else some text
  refuse n .string
  return none

/-- Reads a list of texts; null is an empty list. -/
def strings : Node → Decode (Option (List String)) := visit fun n => do
  if let .sequence _ _ items := n then return some (← items.filterMapM string)
  if let .scalar _ tag value := n then
    if (← meaning tag value).1 == .null then return some []
  refuse n .strings
  return none

/-- Reads the value of the named setting. -/
def field (name : String) (value : Node) (c : Config) : Decode Config := do
  match name with
  | "concurrency" => return (← int value).elim c fun v => { c with concurrency := v }
  | "includePrefixes" => return (← strings value).elim c fun v => { c with includePrefixes := v }
  | "excludePrefixes" => return (← strings value).elim c fun v => { c with excludePrefixes := v }
  | "skipDirs" => return (← strings value).elim c fun v => { c with skipDirs := v }
  | "depth" => return (← int value).elim c fun v => { c with depth := v }
  | "strict" => return (← bool value).elim c fun v => { c with strict := v }
  | _ => return c

def fieldNames : List String :=
  ["concurrency", "includePrefixes", "excludePrefixes", "skipDirs", "depth", "strict"]

def isMerge : Node → Bool
  | .scalar _ tag value => value == Yaml.mergeKey && tag == Yaml.mergeTag
  | _ => false

/-- Settings, the names of those that are settled and must not be merged in, and the names read so far. -/
structure Progress where
  config : Config
  settled : Option (List String)
  done : List String := []

/-- Reads the entries of a mapping but those that are merged. -/
def fields : List (Node × Node) → Progress → Decode Progress
  | [], p => return p
  | (key, value) :: rest, p => do
    if isMerge key then return ← fields rest p
    match ← string key with
    | none => fields rest p
    | some name =>
      if p.settled.any (·.contains name) then return ← fields rest p
      let p := { p with settled := p.settled.map (name :: ·) }
      if !fieldNames.contains name then return ← fields rest p
      if p.done.contains name then
        complain [.duplicateField (keyOf key).1 name]
        fields rest p
      else
        let config ← field name value p.config
        fields rest { p with config, done := name :: p.done }

/-- The keys of a mapping that are texts. -/
def textKeys (entries : List (Node × Node)) : Decode (List String) :=
  entries.filterMapM fun e => e.1 |> visit fun n => do
    if let .scalar _ tag value := n then
      let (plain, text) ← meaning tag value
      return if plain == .text then some text else none
    return none

/-- The mappings that are merged into one: a mapping, or the mappings of a sequence. -/
def merged (value : Node) : Decode (List Node) := do
  let check (n : Node) : Decode Node := do
    match n with
    | .mapping _ _ _ | .alias _ _ (.mapping _ _ _) => return n
    | .cycle _ name _ _ true => throw (.selfReference name)
    | _ => throw .mergeValue
  match value with
  | .sequence _ _ items => items.mapM check
  | n => return [← check n]

/-- Reads settings, and after them those that are merged in; `fuel` bounds the depth of merging. -/
def settings : Nat → Node → Config → Option (List String) → Decode (Config × Option (List String))
  | 0, _, c, settled => return (c, settled)
  | fuel + 1, n, c, settled => n |> visit fun n => do
    match n with
    | .mapping _ _ entries =>
      if !(← distinctKeys entries) then return (c, settled)
      let p ← fields entries ⟨c, settled, []⟩
      match entries.find? fun e => isMerge e.1 with
      | none => return (p.config, p.settled)
      | some (_, value) =>
        let step (state : Config × Option (List String)) (n : Node) : Decode (Config × Option (List String)) :=
          settings fuel n state.1 state.2
        let known ← p.settled.elim (textKeys entries) pure
        let (config, known) ← (← merged value).foldlM step (p.config, some known)
        return (config, if p.settled.isSome then known else none)
    | .scalar line tag value =>
      if (← meaning tag value).1 != .null then refuse (.scalar line tag value) .config
      return (c, settled)
    | n =>
      refuse n .config
      return (c, settled)

end Decode

/-- Reads settings over the standard ones. There is always at least one worker. -/
def parse (data : Bytes) : Except DecodeError Config :=
  match Node.parse data with
  | .error fault => .error (.malformed fault)
  | .ok none => .ok standard
  | .ok (some n) =>
    match Decode.settings (data.length + 1) n standard none { steps := 1 } with
    | .error fault => .error (.malformed fault)
    | .ok ((c, _), tally) =>
      if tally.complaints.isEmpty then
        .ok { c with concurrency := if c.concurrency ≤ 0 then 1 else c.concurrency }
      else .error (.mistyped tally.complaints)

end Config

end Linkage
