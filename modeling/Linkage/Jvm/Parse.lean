import Linkage.Jvm.ClassFile
import Linkage.Jvm.Resolve

/-!
Reading a class file. An error says where in the file it arose and which of three things is wrong: the magic number,
a structure that ends early, or the constant pool. The short attributes that hold one index are read leniently: an
index whose bytes are missing is 0, which then fails to resolve.
-/
namespace Linkage

/-- A part of a class file. -/
inductive Place where
  | thisClass
  | superClass
  | interface (index : Nat)
  | fieldName (index : Nat)
  | fieldDescriptor (name : String)
  | field (name : String)
  | methodName (index : Nat)
  | methodDescriptor (name : String)
  | method (name descriptor : String)
  | attributeName (index : Nat)
  | attributeBody (name : String)
  | handler (index : Nat)
deriving Repr, DecidableEq

namespace Place

def text : Place → String
  | .thisClass => "this class"
  | .superClass => "super class"
  | .interface index => s!"interface {index}"
  | .fieldName index => s!"field {index} name"
  | .fieldDescriptor name => s!"field {name} descriptor"
  | .field name => s!"field {name}"
  | .methodName index => s!"method {index} name"
  | .methodDescriptor name => s!"method {name} descriptor"
  | .method name descriptor => s!"method {name}{descriptor}"
  | .attributeName index => s!"attribute {index}"
  | .attributeBody name => s!"attribute {name}"
  | .handler index => s!"exception handler {index}"

end Place

/-- Why bytes are not a class file. -/
inductive ParseFault where
  | magic
  | truncated (truncation : Truncation)
  | pool (fault : PoolFault)
deriving Repr, DecidableEq

namespace ParseFault

def message : ParseFault → String
  | .magic => "classfile: invalid magic"
  | .truncated truncation => truncation.message
  | .pool fault => fault.message

end ParseFault

/-- A fault and the places around it, the outermost first. -/
structure ParseError where
  places : List Place
  fault : ParseFault
deriving Repr, DecidableEq

instance : OfTruncation ParseError := ⟨fun truncation => ⟨[], .truncated truncation⟩⟩

namespace ParseError

def message (e : ParseError) : String :=
  String.join (e.places.map fun place => place.text ++ ": ") ++ e.fault.message

def within (place : Place) (e : ParseError) : ParseError := { e with places := place :: e.places }

def ofPool : PoolError → ParseError
  | .truncated truncation => ⟨[], .truncated truncation⟩
  | .invalid fault => ⟨[], .pool fault⟩

end ParseError

/-- Steps of reading a class file. -/
abbrev Parse := Scan ParseError

namespace Parse

open Scan

/-- Names the place of an error. -/
def inside {α : Type} (place : Place) : Parse α → Parse α := mapError (ParseError.within place)

/-- Follows a reference into the pool. -/
def ofPool {α : Type} (result : Except PoolFault α) : Parse α :=
  match result with
  | .ok a => pure a
  | .error fault => throw ⟨[], .pool fault⟩

/-- Runs a reader over the whole of a byte string; what it leaves is ignored. -/
def ofBytes {α : Type} (reader : Parse α) (data : Bytes) : Parse α := fun c =>
  match reader (Cursor.ofBytes data) with
  | .ok (a, _) => .ok (a, c)
  | .error e => .error e

/-- The index that a short attribute holds; 0 where its bytes are missing. -/
def indexIn (data : Bytes) : Nat := (Cursor.ofBytes data).u2.1

/-- Folds a table of attributes. `step` gets the name and the body of each one. -/
def attributes {α : Type} (pool : Pool) (start : α) (step : α → String → Bytes → Parse α) : Parse α := do
  go start 0 (← u2)
where
  go (acc : α) (index : Nat) : Nat → Parse α
    | 0 => return acc
    | count + 1 => do
      let nameIndex ← u2
      let data ← bytes (← u4)
      let name ← inside (.attributeName index) (ofPool (pool.utf8 nameIndex))
      let acc ← inside (.attributeBody name) (step acc name data)
      go acc (index + 1) count

/-- The value of a constant, as it resolves before the bootstrap methods are known. -/
def constantValue (pool : Pool) (index : Nat) : Parse Literal := ofPool (pool.loadable index []).1

def field (pool : Pool) (index : Nat) : Parse Field := do
  let access ← u2
  let nameIndex ← u2
  let descriptorIndex ← u2
  let name ← inside (.fieldName index) (ofPool (pool.utf8 nameIndex))
  let descriptor ← inside (.fieldDescriptor name) (ofPool (pool.utf8 descriptorIndex))
  let start : Field := ⟨access, name, descriptor, "", .null⟩
  inside (.field name) <| attributes pool start fun acc kind data =>
    match kind with
    | "ConstantValue" => return { acc with value := ← constantValue pool (indexIn data) }
    | "Signature" => return { acc with signature := ← ofPool (pool.utf8 (indexIn data)) }
    | _ => return acc

def handler (pool : Pool) (index : Nat) : Parse Handler := do
  let start ← u2
  let stop ← u2
  let target ← u2
  let typeIndex ← u2
  let type ← inside (.handler index) (ofPool (pool.optionalClassName typeIndex))
  return ⟨start, stop, target, type⟩

def lines : Parse (List Line) := do
  times (← u2) fun _ => return ⟨← u2, ← u2⟩

def code (pool : Pool) : Parse Code := do
  let maxStack ← u2
  let maxLocals ← u2
  let body ← bytes (← u4)
  let handlers ← times (← u2) (handler pool)
  let lines ← attributes pool [] fun acc kind data =>
    match kind with
    | "LineNumberTable" => return acc ++ (← ofBytes lines data)
    | _ => return acc
  return ⟨maxStack, maxLocals, body, handlers, lines⟩

/-- The classes of an exception table; an index whose bytes are missing is 0. -/
def exceptions (pool : Pool) (data : Bytes) : Parse (List String) :=
  ofBytes (do go (← u2)) data
where
  go : Nat → Parse (List String)
    | 0 => return []
    | count + 1 => do
      let c ← get
      let (index, c) := c.u2
      set c
      return (← ofPool (pool.className index)) :: (← go count)

def method (pool : Pool) (index : Nat) : Parse Method := do
  let access ← u2
  let nameIndex ← u2
  let descriptorIndex ← u2
  let name ← inside (.methodName index) (ofPool (pool.utf8 nameIndex))
  let descriptor ← inside (.methodDescriptor name) (ofPool (pool.utf8 descriptorIndex))
  let start : Method := ⟨⟨access, name, descriptor, "", []⟩, none⟩
  inside (.method name descriptor) <| attributes pool start fun acc kind data =>
    match kind with
    | "Code" => return { acc with code := some (← ofBytes (code pool) data) }
    | "Exceptions" => do
      let thrown ← exceptions pool data
      return { acc with decl.exceptions := acc.decl.exceptions ++ thrown }
    | "Signature" => do
      let signature ← ofPool (pool.utf8 (indexIn data))
      return { acc with decl.signature := signature }
    | _ => return acc

def bootstraps : Parse (List Bootstrap) := do
  times (← u2) fun _ => do
    let handle ← u2
    let arguments ← times (← u2) fun _ => u2
    return ⟨handle, arguments⟩

/-- The attributes of the class itself. -/
def classAttributes (start : ClassFile) : Parse ClassFile :=
  attributes start.pool start fun acc kind data =>
    match kind with
    | "SourceFile" => return { acc with source := ← ofPool (acc.pool.utf8 (indexIn data)) }
    | "Signature" => do
      let signature ← ofPool (acc.pool.utf8 (indexIn data))
      return { acc with header.signature := signature }
    | "BootstrapMethods" => do
      let more ← ofBytes bootstraps data
      return { acc with pool.bootstraps := acc.pool.bootstraps ++ more }
    | _ => return { acc with attributes := acc.attributes ++ [⟨kind, data⟩] }

def classFile : Parse ClassFile := do
  let magic ← u4
  if magic ≠ 0xCAFEBABE then throw ⟨[], .magic⟩
  let minor ← u2
  let major ← u2
  let pool ← mapError ParseError.ofPool Pool.read
  let access ← u2
  let thisIndex ← u2
  let superIndex ← u2
  let name ← inside .thisClass (ofPool (pool.className thisIndex))
  let superName ← inside .superClass (ofPool (pool.optionalClassName superIndex))
  let interfaces ← times (← u2) fun index => do
    let interfaceIndex ← u2
    inside (.interface index) (ofPool (pool.className interfaceIndex))
  let fields ← times (← u2) (field pool)
  let methods ← times (← u2) (method pool)
  let header : Header := ⟨(65536 * minor + major : Nat), access, name, "", superName, interfaces⟩
  classAttributes ⟨header, "", fields, methods, [], pool⟩

end Parse

namespace ClassFile

/-- The class in `data`; bytes after its end are ignored. -/
def parse (data : Bytes) : Except ParseError ClassFile :=
  (Parse.classFile (Cursor.ofBytes data)).map (·.1)

end ClassFile

end Linkage
