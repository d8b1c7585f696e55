import Linkage.Jvm.Layout
import Linkage.Jvm.Opcode
import Linkage.Member

/-!
Assembling small class files. Constants go into one pool, which only grows; a constant is shared with an earlier one
of the same key, a text made of its kind and its parts. Numbers are cut to the width they are written in, and texts
are written in UTF-8.
-/
namespace Linkage

/-- A method under assembly. -/
structure MethodDraft where
  access : Int
  name : String
  descriptor : String
  code : Bytes := []
  maxStack : Int := 4
  maxLocals : Int := 4
  /-- Start, end, handler and slot of the type of each handler. -/
  handlers : List (Int × Int × Int × Nat) := []
  /-- Offset and line number. -/
  lines : List (Nat × Int) := []
  isAbstract : Bool := false
deriving Repr

structure FieldDraft where
  access : Int
  name : String
  descriptor : String
deriving Repr

/-- A class under assembly. -/
structure Assembler where
  name : String
  superName : String
  access : Int
  interfaces : List String := []
  source : String := ""
  fields : List FieldDraft := []
  methods : Array MethodDraft := #[]
  /-- The slot of the handle of each bootstrap method and those of its arguments. -/
  bootstraps : Array (Int × List Int) := #[]
  /-- The constants with their keys, from slot 1 on. -/
  constants : Array (String × Constant) := #[]
deriving Repr

/-- A step of assembling. -/
abbrev Assemble := StateM Assembler

namespace Assembler

/-- A public class under the root class. -/
def new (name : String) : Assembler := { name, superName := rootClass, access := 0x21 }

/-- The low 16 bits of a number. -/
def slotOf (n : Int) : Nat := (n % 65536).toNat

/-- The slot of the constant with this key, which is added if it is new. -/
def share (key : String) (constant : Constant) : Assemble Nat := do
  let constants := (← get).constants
  match constants.findIdx? (·.1 == key) with
  | some i => return i + 1
  | none =>
    modify fun a => { a with constants := a.constants.push (key, constant) }
    return constants.size + 1

def utf8 (text : String) : Assemble Nat := share ("utf8:" ++ text) (.utf8 text)

def type (name : String) : Assemble Nat := do
  let slot ← utf8 name
  share ("class:" ++ name) (.type slot)

/-- The slot of a class, 0 for the empty name. -/
def optionalType (name : String) : Assemble Nat := if name = "" then pure 0 else type name

def string (text : String) : Assemble Nat := do
  let slot ← utf8 text
  share ("string:" ++ text) (.string slot)

def integer (value : Int) : Assemble Nat :=
  let word := Int32.ofInt value
  share s!"int:{word.toInt}" (.integer word.toUInt32)

def nameAndType (name descriptor : String) : Assemble Nat := do
  let nameSlot ← utf8 name
  let descriptorSlot ← utf8 descriptor
  share ("nat:" ++ name ++ ":" ++ descriptor) (.nameAndType nameSlot descriptorSlot)

def memberRef (kind : MemberKind) (owner name descriptor : String) : Assemble Nat := do
  let ownerSlot ← type owner
  let nameAndTypeSlot ← nameAndType name descriptor
  let constant := Constant.member kind ownerSlot nameAndTypeSlot
  share s!"ref{constant.tag.code}:{owner}.{name}:{descriptor}" constant

/-- A method handle. The kinds up to 4 refer to a field. -/
def methodHandle (kind : Int) (owner name descriptor : String) (isInterface : Bool) : Assemble Nat := do
  let reference ← memberRef
    (if kind ≤ 4 then .field else if isInterface then .interfaceMethod else .method) owner name descriptor
  share s!"handle:{kind}:{reference}" (.methodHandle (kind % 256).toNat reference)

def methodType (descriptor : String) : Assemble Nat := do
  let slot ← utf8 descriptor
  share ("methodType:" ++ descriptor) (.methodType slot)

/-- Adds a bootstrap method; its number is the answer. -/
def bootstrap (handle : Int) (arguments : List Int) : Assemble Nat := do
  let number := (← get).bootstraps.size
  modify fun a => { a with bootstraps := a.bootstraps.push (handle, arguments) }
  return number

def bootstrapArgument (number : Nat) (argument : Int) : Assemble Unit :=
  modify fun a =>
    { a with bootstraps := a.bootstraps.modify number fun (handle, arguments) => (handle, arguments ++ [argument]) }

def dynamic (bootstrap : Int) (name descriptor : String) : Assemble Nat := do
  let slot ← nameAndType name descriptor
  share s!"dynamic:{bootstrap}:{slot}" (.dynamic (slotOf bootstrap) slot)

def invokeDynamicRef (bootstrap : Int) (name descriptor : String) : Assemble Nat := do
  let slot ← nameAndType name descriptor
  share s!"indy:{bootstrap}:{slot}" (.invokeDynamic (slotOf bootstrap) slot)

/-! Declarations. -/

def setSuper (name : String) : Assemble Unit := modify fun a => { a with superName := name }
def setAccess (access : Int) : Assemble Unit := modify fun a => { a with access }
def implement (names : List String) : Assemble Unit := modify fun a => { a with interfaces := a.interfaces ++ names }
def setSource (source : String) : Assemble Unit := modify fun a => { a with source }

def field (access : Int) (name descriptor : String) : Assemble Unit :=
  modify fun a => { a with fields := a.fields ++ [⟨access, name, descriptor⟩] }

/-- Declares a method; its number is the answer. -/
def method (access : Int) (name descriptor : String) : Assemble Nat := do
  let number := (← get).methods.size
  modify fun a => { a with methods := a.methods.push { access, name, descriptor } }
  return number

/-! Method bodies. Methods go by their numbers. -/

def draft (m : Nat) (change : MethodDraft → MethodDraft) : Assemble Unit :=
  modify fun a => { a with methods := a.methods.modify m change }

/-- The offset of the next instruction. -/
def offset (m : Nat) : Assemble Nat := do
  return ((← get).methods[m]?.map fun d => d.code.length).getD 0

def raw (m : Nat) (bytes : Bytes) : Assemble Unit := draft m fun d => { d with code := d.code ++ bytes }

def setAbstract (m : Nat) : Assemble Unit := draft m fun d => { d with isAbstract := true }

def setMaxs (m : Nat) (maxStack maxLocals : Int) : Assemble Unit := draft m fun d => { d with maxStack, maxLocals }

def byteOf (n : Int) : Bytes := Bytes.ofInt 1 n

def insn (m : Nat) (op : Int) : Assemble Unit := raw m (byteOf op)

def varInsn (m : Nat) (op index : Int) : Assemble Unit := raw m (byteOf op ++ byteOf index)

def push (m : Nat) (value : Int) : Assemble Unit := raw m (16 :: byteOf value)

/-- A method call; that of opcode 185 goes through an interface. -/
def invoke (m : Nat) (op : Int) (owner name descriptor : String) : Assemble Unit := do
  if op = 185 then
    let slot ← memberRef .interfaceMethod owner name descriptor
    raw m (byteOf op ++ u2Bytes slot ++ [1, 0])
  else
    let slot ← memberRef .method owner name descriptor
    raw m (byteOf op ++ u2Bytes slot)

def fieldInsn (m : Nat) (op : Int) (owner name descriptor : String) : Assemble Unit := do
  let slot ← memberRef .field owner name descriptor
  raw m (byteOf op ++ u2Bytes slot)

def typeInsn (m : Nat) (op : Int) (name : String) : Assemble Unit := do
  let slot ← type name
  raw m (byteOf op ++ u2Bytes slot)

/-- Loads the constant in a slot. -/
def ldc (m : Nat) (slot : Int) : Assemble Unit := raw m (19 :: Bytes.ofInt 2 slot)

def ldcString (m : Nat) (text : String) : Assemble Unit := do
  ldc m (← string text)

def ldcInt (m : Nat) (value : Int) : Assemble Unit := do
  ldc m (← integer value)

/-- A call site with a bootstrap method of its own. -/
def invokeDynamic (m : Nat) (name descriptor : String) (handle : Int) (arguments : List Int) : Assemble Unit := do
  let number ← bootstrap handle arguments
  let slot ← invokeDynamicRef number name descriptor
  raw m (186 :: u2Bytes slot ++ [0, 0])

/-- A branch to an offset, in two bytes. -/
def jump (m : Nat) (op target : Int) : Assemble Unit := do
  let here ← offset m
  raw m (byteOf op ++ Bytes.ofInt 2 (target - here))

/-- Gives the next instruction a source line. -/
def line (m : Nat) (number : Int) : Assemble Unit := do
  let here ← offset m
  draft m fun d => { d with lines := d.lines ++ [(here, number)] }

/-- Adds a handler; the empty type stands for all exceptions. -/
def handle (m : Nat) (start stop handler : Int) (typeName : String) : Assemble Unit := do
  let slot ← optionalType typeName
  draft m fun d => { d with handlers := d.handlers ++ [(start, stop, handler, slot)] }

/-! The class file. -/

/-- A count in two bytes and the bytes of each item. -/
def table {α : Type} (items : List α) (encode : α → Bytes) : Bytes :=
  u2Bytes items.length ++ items.flatMap encode

/-- An attribute: the slot of its name, the length of its body and the body. -/
def encodeAttribute (slot : Nat) (body : Bytes) : Bytes := u2Bytes slot ++ u4Bytes body.length ++ body

def encodeField (f : FieldDraft) : Assemble Bytes := do
  let nameSlot ← utf8 f.name
  let descriptorSlot ← utf8 f.descriptor
  return Bytes.ofInt 2 f.access ++ u2Bytes nameSlot ++ u2Bytes descriptorSlot ++ u2Bytes 0

def encodeLines (lines : List (Nat × Int)) : Assemble Bytes := do
  if lines.isEmpty then return u2Bytes 0
  let slot ← utf8 "LineNumberTable"
  return u2Bytes 1 ++ encodeAttribute slot
    (table lines fun (start, number) => u2Bytes start ++ Bytes.ofInt 2 number)

def encodeMethod (d : MethodDraft) : Assemble Bytes := do
  let nameSlot ← utf8 d.name
  let descriptorSlot ← utf8 d.descriptor
  let head := Bytes.ofInt 2 d.access ++ u2Bytes nameSlot ++ u2Bytes descriptorSlot
  if d.isAbstract then return head ++ u2Bytes 0
  let lines ← encodeLines d.lines
  let handlers := table d.handlers fun (start, stop, handler, slot) =>
    Bytes.ofInt 2 start ++ Bytes.ofInt 2 stop ++ Bytes.ofInt 2 handler ++ u2Bytes slot
  let body := Bytes.ofInt 2 d.maxStack ++ Bytes.ofInt 2 d.maxLocals ++ u4Bytes d.code.length ++ d.code ++
    handlers ++ lines
  let codeSlot ← utf8 "Code"
  return head ++ u2Bytes 1 ++ encodeAttribute codeSlot body

def encodeSource (source : String) : Assemble (List Bytes) := do
  if source = "" then return []
  let nameSlot ← utf8 "SourceFile"
  let slot ← utf8 source
  return [encodeAttribute nameSlot (u2Bytes slot)]

def encodeBootstraps (bootstraps : List (Int × List Int)) : Assemble (List Bytes) := do
  if bootstraps.isEmpty then return []
  let slot ← utf8 "BootstrapMethods"
  return [encodeAttribute slot
    (table bootstraps fun (handle, arguments) => Bytes.ofInt 2 handle ++ table arguments (Bytes.ofInt 2))]

/-- The part of the class file after the pool. -/
def encodeBody : Assemble Bytes := do
  let a ← get
  let thisSlot ← type a.name
  let superSlot ← optionalType a.superName
  let interfaceSlots ← a.interfaces.mapM type
  let fields ← a.fields.mapM encodeField
  let methods ← a.methods.toList.mapM encodeMethod
  let source ← encodeSource a.source
  let bootstraps ← encodeBootstraps a.bootstraps.toList
  return Bytes.ofInt 2 a.access ++ u2Bytes thisSlot ++ u2Bytes superSlot ++ table interfaceSlots u2Bytes ++
    table fields id ++ table methods id ++ table (source ++ bootstraps) id

/-- The class file of version 52. Its constants stay in the pool. -/
def encode : Assemble Bytes := do
  let body ← encodeBody
  let constants := (← get).constants
  return u4Bytes 0xCAFEBABE ++ u2Bytes 0 ++ u2Bytes 52 ++ u2Bytes (constants.size + 1) ++
    constants.toList.flatMap (fun (_, constant) => constant.encode utf8Bytes) ++ body

end Assembler

end Linkage
