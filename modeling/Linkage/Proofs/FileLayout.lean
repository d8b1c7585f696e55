import Linkage.Jvm.Assembler
import Linkage.Jvm.ClassFile
import Linkage.Proofs.PoolReading
import Linkage.Proofs.Resolution

/-!
The layout of class files. A class is laid out over a pool: its parts name the slots in which their texts, classes and
constants stand, and every part has attributes in any order and number. An attribute that a part interprets may carry
bytes after what is read of it; every other attribute is a name and some bytes. `ClassLayout.encode` gives the bytes,
`ClassLayout.classFile` the class that they declare.
-/
namespace Linkage
namespace Layout

open Assembler (table encodeAttribute)

/-- The parts of a constant fit their widths; its text does in modified UTF-8. -/
def ConstantFits : Constant → Prop
  | .utf8 text => (ModifiedUtf8.encode text).length < 65536
  | c => c.Fits

/-- A value and the slot that holds it. -/
structure Stored (α : Type) where
  slot : Nat
  value : α

namespace Stored

variable {α : Type}

def IsText (pool : Pool) (s : Stored String) : Prop := pool.Holds s.slot (.utf8 s.value)

def IsClass (pool : Pool) (s : Stored String) : Prop :=
  ∃ name, pool.Holds s.slot (.type name) ∧ pool.Holds name (.utf8 s.value)

def IsConstant (pool : Pool) (s : Stored Literal) : Prop := pool.Unfolds s.slot s.value

def encode (s : Stored α) : Bytes := u2Bytes s.slot

/-- Slot 0 stands for a value that is missing. -/
def encodeOptional : Option (Stored α) → Bytes
  | some s => s.encode
  | none => u2Bytes 0

/-- The name of a class that may be missing. -/
def optionalName (s : Option (Stored String)) : String := (s.map value).getD ""

end Stored

/-- What the attributes of one kind of part can hold: under which names, and how it is laid out. -/
class Content (κ : Type) where
  names : List String
  name : κ → String
  encode : κ → Bytes
  Fits : Pool → κ → Prop

/-- An attribute. -/
inductive Entry (κ : Type) where
  /-- One that is interpreted; the trailing bytes are not. -/
  | known (slot : Nat) (content : κ) (trailing : Bytes)
  | other (slot : Nat) (name : String) (body : Bytes)

namespace Entry

variable {κ : Type}

def content? : Entry κ → Option κ
  | .known _ content _ => some content
  | .other .. => none

/-- The attribute as it stands, if it is not interpreted. -/
def unread? : Entry κ → Option Attribute
  | .known .. => none
  | .other _ name body => some ⟨name, body⟩

def isKnown (e : Entry κ) : Bool := e.content?.isSome

def map (f : κ → κ) : Entry κ → Entry κ
  | .known slot content trailing => .known slot (f content) trailing
  | .other slot name body => .other slot name body

def slot : Entry κ → Nat
  | .known slot _ _ | .other slot _ _ => slot

variable [Content κ]

def name : Entry κ → String
  | .known _ content _ => Content.name content
  | .other _ name _ => name

def body : Entry κ → Bytes
  | .known _ content trailing => Content.encode content ++ trailing
  | .other _ _ body => body

def encode (e : Entry κ) : Bytes := encodeAttribute e.slot e.body

/-- What is interpreted fits, and what is not has no name that would be. -/
def ContentFits (pool : Pool) : Entry κ → Prop
  | .known _ content _ => Content.Fits pool content
  | .other _ name _ => name ∉ Content.names κ

structure Fits (pool : Pool) (e : Entry κ) : Prop where
  name : pool.Holds e.slot (.utf8 e.name)
  body : e.body.length < 2 ^ 32
  content : e.ContentFits pool

end Entry

section Attributes

variable {κ α : Type}

def contents (es : List (Entry κ)) : List κ := es.filterMap Entry.content?

/-- The last content of a kind. -/
def lastOf (select : κ → Option α) (es : List (Entry κ)) : Option α := ((contents es).filterMap select).getLast?

/-- The contents of a kind, strung together. -/
def allOf (select : κ → List α) (es : List (Entry κ)) : List α := (contents es).flatMap select

/-- A list that its count in two bytes can announce, with items that fit. -/
def AllFit (fits : α → Prop) (items : List α) : Prop := items.length < 65536 ∧ ∀ item ∈ items, fits item

end Attributes

/-- What an attribute of a field holds. -/
inductive FieldContent where
  | constantValue (value : Stored Literal)
  | signature (text : Stored String)

namespace FieldContent

def value? : FieldContent → Option Literal
  | .constantValue value => some value.value
  | .signature _ => none

def signature? : FieldContent → Option String
  | .constantValue _ => none
  | .signature text => some text.value

instance : Content FieldContent where
  names := ["ConstantValue", "Signature"]
  name
    | .constantValue _ => "ConstantValue"
    | .signature _ => "Signature"
  encode
    | .constantValue value => value.encode
    | .signature text => text.encode
  Fits pool
    | .constantValue value => value.IsConstant pool
    | .signature text => text.IsText pool

end FieldContent

structure FieldLayout where
  access : Nat
  name : Stored String
  descriptor : Stored String
  attributes : List (Entry FieldContent)

namespace FieldLayout

def encode (f : FieldLayout) : Bytes :=
  u2Bytes f.access ++ f.name.encode ++ f.descriptor.encode ++ table f.attributes Entry.encode

structure Fits (pool : Pool) (f : FieldLayout) : Prop where
  access : f.access < 65536
  name : f.name.IsText pool
  descriptor : f.descriptor.IsText pool
  attributes : AllFit (Entry.Fits pool) f.attributes

def field (f : FieldLayout) : Field where
  access := f.access
  name := f.name.value
  descriptor := f.descriptor.value
  signature := (lastOf FieldContent.signature? f.attributes).getD ""
  value := (lastOf FieldContent.value? f.attributes).getD .null

/-- The field without the attributes that are not interpreted. -/
def core (f : FieldLayout) : FieldLayout := { f with attributes := f.attributes.filter Entry.isKnown }

end FieldLayout

/-- What an attribute of a body holds. -/
structure CodeContent where
  lines : List Line

instance : Content CodeContent where
  names := ["LineNumberTable"]
  name _ := "LineNumberTable"
  encode c := table c.lines fun line => u2Bytes line.start ++ u2Bytes line.line
  Fits _ c := AllFit (fun line => line.start < 65536 ∧ line.line < 65536) c.lines

structure HandlerLayout where
  start : Nat
  stop : Nat
  target : Nat
  type : Option (Stored String)

namespace HandlerLayout

def encode (h : HandlerLayout) : Bytes :=
  u2Bytes h.start ++ u2Bytes h.stop ++ u2Bytes h.target ++ Stored.encodeOptional h.type

structure Fits (pool : Pool) (h : HandlerLayout) : Prop where
  start : h.start < 65536
  stop : h.stop < 65536
  target : h.target < 65536
  type : ∀ t ∈ h.type, t.IsClass pool

def handler (h : HandlerLayout) : Handler := ⟨h.start, h.stop, h.target, Stored.optionalName h.type⟩

end HandlerLayout

structure CodeLayout where
  maxStack : Nat
  maxLocals : Nat
  bytes : Bytes
  handlers : List HandlerLayout
  attributes : List (Entry CodeContent)

namespace CodeLayout

def encode (c : CodeLayout) : Bytes :=
  u2Bytes c.maxStack ++ u2Bytes c.maxLocals ++ u4Bytes c.bytes.length ++ c.bytes ++
    table c.handlers HandlerLayout.encode ++ table c.attributes Entry.encode

structure Fits (pool : Pool) (c : CodeLayout) : Prop where
  maxStack : c.maxStack < 65536
  maxLocals : c.maxLocals < 65536
  bytes : c.bytes.length < 2 ^ 32
  handlers : AllFit (HandlerLayout.Fits pool) c.handlers
  attributes : AllFit (Entry.Fits pool) c.attributes

def code (c : CodeLayout) : Code :=
  ⟨c.maxStack, c.maxLocals, c.bytes, c.handlers.map (·.handler), allOf CodeContent.lines c.attributes⟩

/-- The body without the attributes that are not interpreted. -/
def core (c : CodeLayout) : CodeLayout := { c with attributes := c.attributes.filter Entry.isKnown }

end CodeLayout

/-- What an attribute of a method holds. -/
inductive MethodContent where
  | code (code : CodeLayout)
  | exceptions (types : List (Stored String))
  | signature (text : Stored String)

namespace MethodContent

def code? : MethodContent → Option Code
  | .code c => some c.code
  | _ => none

def thrown : MethodContent → List String
  | .exceptions types => types.map (·.value)
  | _ => []

def signature? : MethodContent → Option String
  | .signature text => some text.value
  | _ => none

instance : Content MethodContent where
  names := ["Code", "Exceptions", "Signature"]
  name
    | .code _ => "Code"
    | .exceptions _ => "Exceptions"
    | .signature _ => "Signature"
  encode
    | .code c => c.encode
    | .exceptions types => table types Stored.encode
    | .signature text => text.encode
  Fits pool
    | .code c => c.Fits pool
    | .exceptions types => AllFit (Stored.IsClass pool) types
    | .signature text => text.IsText pool

def core : MethodContent → MethodContent
  | .code c => .code c.core
  | c => c

end MethodContent

structure MethodLayout where
  access : Nat
  name : Stored String
  descriptor : Stored String
  attributes : List (Entry MethodContent)

namespace MethodLayout

def encode (m : MethodLayout) : Bytes :=
  u2Bytes m.access ++ m.name.encode ++ m.descriptor.encode ++ table m.attributes Entry.encode

structure Fits (pool : Pool) (m : MethodLayout) : Prop where
  access : m.access < 65536
  name : m.name.IsText pool
  descriptor : m.descriptor.IsText pool
  attributes : AllFit (Entry.Fits pool) m.attributes

def method (m : MethodLayout) : Method where
  decl :=
    { access := m.access
      name := m.name.value
      descriptor := m.descriptor.value
      signature := (lastOf MethodContent.signature? m.attributes).getD ""
      exceptions := allOf MethodContent.thrown m.attributes }
  code := lastOf MethodContent.code? m.attributes

/-- The method without the attributes that are not interpreted, those of its body included. -/
def core (m : MethodLayout) : MethodLayout :=
  { m with attributes := (m.attributes.filter Entry.isKnown).map (Entry.map MethodContent.core) }

end MethodLayout

/-- What an attribute of a class holds. -/
inductive ClassContent where
  | source (text : Stored String)
  | signature (text : Stored String)
  | bootstraps (entries : List Bootstrap)

namespace ClassContent

def source? : ClassContent → Option String
  | .source text => some text.value
  | _ => none

def signature? : ClassContent → Option String
  | .signature text => some text.value
  | _ => none

def entries : ClassContent → List Bootstrap
  | .bootstraps entries => entries
  | _ => []

instance : Content ClassContent where
  names := ["SourceFile", "Signature", "BootstrapMethods"]
  name
    | .source _ => "SourceFile"
    | .signature _ => "Signature"
    | .bootstraps _ => "BootstrapMethods"
  encode
    | .source text => text.encode
    | .signature text => text.encode
    | .bootstraps entries => table entries fun b => u2Bytes b.handle ++ table b.arguments u2Bytes
  Fits pool
    | .source text => text.IsText pool
    | .signature text => text.IsText pool
    | .bootstraps entries => AllFit (fun b => b.handle < 65536 ∧ AllFit (· < 65536) b.arguments) entries

end ClassContent

structure ClassLayout where
  minor : Nat
  major : Nat
  constants : List Constant
  access : Nat
  thisClass : Stored String
  superClass : Option (Stored String)
  interfaces : List (Stored String)
  fields : List FieldLayout
  methods : List MethodLayout
  attributes : List (Entry ClassContent)

namespace ClassLayout

/-- The pool before the attributes of the class are read. -/
def pool (l : ClassLayout) : Pool := Pool.ofConstants l.constants

/-- The number of slots, slot 0 included. -/
def slotCount (l : ClassLayout) : Nat := (l.constants.flatMap Constant.slots).length + 1

def encode (l : ClassLayout) : Bytes :=
  u4Bytes 0xCAFEBABE ++ u2Bytes l.minor ++ u2Bytes l.major ++
    (u2Bytes l.slotCount ++ l.constants.flatMap (Constant.encode ModifiedUtf8.encode)) ++
    (u2Bytes l.access ++ l.thisClass.encode ++ Stored.encodeOptional l.superClass ++ table l.interfaces Stored.encode ++
      table l.fields FieldLayout.encode ++ table l.methods MethodLayout.encode ++ table l.attributes Entry.encode)

structure Fits (l : ClassLayout) : Prop where
  minor : l.minor < 65536
  major : l.major < 65536
  slotCount : l.slotCount < 65536
  constants : ∀ c ∈ l.constants, ConstantFits c
  access : l.access < 65536
  thisClass : l.thisClass.IsClass l.pool
  superClass : ∀ s ∈ l.superClass, s.IsClass l.pool
  interfaces : AllFit (Stored.IsClass l.pool) l.interfaces
  fields : AllFit (FieldLayout.Fits l.pool) l.fields
  methods : AllFit (MethodLayout.Fits l.pool) l.methods
  attributes : AllFit (Entry.Fits l.pool) l.attributes

def classFile (l : ClassLayout) : ClassFile where
  header :=
    { version := (l.minor <<< 16 ||| l.major : Nat)
      access := l.access
      name := l.thisClass.value
      signature := (lastOf ClassContent.signature? l.attributes).getD ""
      superName := Stored.optionalName l.superClass
      interfaces := l.interfaces.map (·.value) }
  source := (lastOf ClassContent.source? l.attributes).getD ""
  fields := l.fields.map (·.field)
  methods := l.methods.map (·.method)
  attributes := l.attributes.filterMap Entry.unread?
  pool := { l.pool with bootstraps := (allOf ClassContent.entries l.attributes).toArray }

/-- The class without the attributes of its fields, methods and bodies that are not interpreted. -/
def core (l : ClassLayout) : ClassLayout :=
  { l with fields := l.fields.map (·.core), methods := l.methods.map (·.core) }

end ClassLayout

end Layout
end Linkage
