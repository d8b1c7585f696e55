import Linkage.Decimal.Shortest
import Linkage.Jvm.Event

/-!
Events as text, `Kind(argument, argument)`. Dynamic constants have no text, and handles only where they stand as an
argument by themselves; an event that would show one otherwise has none.
-/
namespace Linkage

/-- Numbers of seven digits before the point and more, or with four zeros after it and more, have an exponent. -/
def numberStyle : Decimal.Style := ⟨-4, 6, 2⟩

/-- The text of a floating-point number given by its bits. -/
def floatText (format : Decimal.BinaryFormat) (bits : Nat) : String :=
  match format.decode bits with
  | .nan => "NaN"
  | .infinite negative => if negative then "-Inf" else "+Inf"
  | .finite negative mantissa exponent closeBelow =>
    let magnitude :=
      if mantissa = 0 then "0" else numberStyle.render (Decimal.shortest mantissa exponent closeBelow)
    if negative then "-" ++ magnitude else magnitude

/-- A list in brackets, separated by spaces. -/
def bracketed (items : List String) : String := "[" ++ " ".intercalate items ++ "]"

/-- Fields with their names in braces. -/
def record (fields : List (String × String)) : String :=
  "\x7b" ++ " ".intercalate (fields.map fun (name, value) => name ++ ":" ++ value) ++ "\x7d"

namespace Literal

/-- The text of a value inside another one. -/
def innerText? : Literal → Option String
  | .null => some "<nil>"
  | .int value => some (toString value.toInt)
  | .float bits => some (floatText .single bits.toNat)
  | .long value => some (toString value.toInt)
  | .double bits => some (floatText .double bits.toNat)
  | .string text => some text
  | .type name => some name
  | .methodType descriptor => some descriptor
  | .handle _ => none
  | .dynamic _ _ _ _ => none

end Literal

namespace Handle

def text (h : Handle) : String :=
  record [("Kind", toString h.kind), ("Owner", h.owner), ("Name", h.name), ("Descriptor", h.descriptor),
    ("IsInterface", toString h.isInterface)]

end Handle

namespace Header

def text (h : Header) : String :=
  record [("Version", toString h.version), ("Access", toString h.access), ("Name", h.name),
    ("Signature", h.signature), ("SuperName", h.superName), ("Interfaces", bracketed h.interfaces)]

end Header

namespace Field

def text? (f : Field) : Option String := do
  return record [("Access", toString f.access), ("Name", f.name), ("Descriptor", f.descriptor),
    ("Signature", f.signature), ("Value", ← f.value.innerText?)]

end Field

namespace MethodDecl

def text (m : MethodDecl) : String :=
  record [("Access", toString m.access), ("Name", m.name), ("Descriptor", m.descriptor),
    ("Signature", m.signature), ("Exceptions", bracketed m.exceptions)]

end MethodDecl

namespace Attribute

def text (a : Attribute) : String :=
  "&\x7b" ++ a.name ++ " " ++ bracketed (a.data.map fun b => toString b.toNat) ++ "\x7d"

end Attribute

/-- A missing thing is written so. -/
def optionalText {α : Type} (text : α → String) (value : Option α) : String := (value.map text).getD "<nil>"

namespace CodeEvent

def numbers (ns : List Int) : String := bracketed (ns.map toString)

/-- The texts of the arguments. -/
def arguments? : CodeEvent → Option (List String)
  | .start => some []
  | .insn op => some [toString op]
  | .intInsn op operand => some [toString op, toString operand]
  | .varInsn op index => some [toString op, toString index]
  | .typeInsn op type => some [toString op, type]
  | .fieldInsn op owner name descriptor => some [toString op, owner, name, descriptor]
  | .methodInsn op owner name descriptor isInterface =>
    some [toString op, owner, name, descriptor, toString isInterface]
  | .invokeDynamic name descriptor bootstrap arguments => do
    return [name, descriptor, optionalText Handle.text bootstrap,
      bracketed (← arguments.mapM Literal.innerText?)]
  | .jump op target => some [toString op, toString target]
  | .label offset => some [toString offset]
  | .ldc (.handle handle) => some [handle.text]
  | .ldc value => do return [← value.innerText?]
  | .increment index amount => some [toString index, toString amount]
  | .tableSwitch low high otherwise labels =>
    some [toString low, toString high, toString otherwise, numbers labels]
  | .lookupSwitch otherwise keys labels => some [toString otherwise, numbers keys, numbers labels]
  | .multiArray descriptor dimensions => some [descriptor, toString dimensions]
  | .tryCatch first stop handler type => some [toString first, toString stop, toString handler, type]
  | .lineNumber line offset => some [toString line, toString offset]
  | .maxs stack locals => some [toString stack, toString locals]
  | .finish => some []

end CodeEvent

namespace MemberEvent

def arguments? : MemberEvent → Option (List String)
  | .source name => some [name]
  | .uninterpreted attr => some [attr.text]
  | .field decl => do return [← decl.text?]
  | .finish => some []

end MemberEvent

namespace Event

def arguments? : Event → Option (List String)
  | .declare header => some [optionalText Header.text header]
  | .member event => event.arguments?
  | .method decl => some [decl.text]
  | .code event => event.arguments?

/-- The text of an event, if it has one. -/
def text? (event : Event) : Option String := do
  return event.kind ++ "(" ++ ", ".intercalate (← event.arguments?) ++ ")"

end Event

end Linkage
