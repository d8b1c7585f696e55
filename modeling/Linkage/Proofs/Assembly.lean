import Linkage.Jvm.Event
import Linkage.Proofs.ClassReading
import Linkage.Proofs.Keys
import Linkage.Proofs.Pool

/-!
Assemblies as lists of calls. `Plan` is what the calls so far declare, in terms of their own arguments; the constant
pool plays no part in it. The instructions of a body are planned as what a replay is to tell of them.
-/
namespace Linkage

/-- A request for a constant. -/
inductive Ask where
  | utf8 (text : String)
  | type (name : String)
  | string (text : String)
  | integer (value : Int)
  | nameAndType (name descriptor : String)
  | member (kind : MemberKind) (owner name descriptor : String)
  | handle (kind : Int) (owner name descriptor : String) (isInterface : Bool)
  | methodType (descriptor : String)
  | dynamic (bootstrap : Int) (name descriptor : String)
  | site (bootstrap : Int) (name descriptor : String)
deriving DecidableEq

/-- An instruction to be appended to a body. -/
inductive Insn where
  | plain (op : Int)
  | var (op index : Int)
  | push (value : Int)
  | invoke (op : Int) (owner name descriptor : String)
  | field (op : Int) (owner name descriptor : String)
  | type (op : Int) (name : String)
  | load (slot : Int)
  | loadString (text : String)
  | loadInt (value : Int)
  | dynamic (name descriptor : String) (handle : Int) (arguments : List Int)
  | jump (op target : Int)
deriving DecidableEq

/-- A call of an assembly. Methods and bootstrap methods go by their numbers. -/
inductive Call where
  | setSuper (name : String)
  | setAccess (access : Int)
  | implement (names : List String)
  | setSource (source : String)
  | field (access : Int) (name descriptor : String)
  | method (access : Int) (name descriptor : String)
  | ask (request : Ask)
  | bootstrap (handle : Int) (arguments : List Int)
  | bootstrapArgument (number : Nat) (argument : Int)
  | insn (m : Nat) (i : Insn)
  | line (m : Nat) (number : Int)
  | handler (m : Nat) (start stop target : Int) (type : String)
  | setAbstract (m : Nat)
  | setMaxs (m : Nat) (maxStack maxLocals : Int)
  | encode
deriving DecidableEq

def Ask.run : Ask → Assemble Nat
  | .utf8 text => Assembler.utf8 text
  | .type name => Assembler.type name
  | .string text => Assembler.string text
  | .integer value => Assembler.integer value
  | .nameAndType name descriptor => Assembler.nameAndType name descriptor
  | .member kind owner name descriptor => Assembler.memberRef kind owner name descriptor
  | .handle kind owner name descriptor isInterface => Assembler.methodHandle kind owner name descriptor isInterface
  | .methodType descriptor => Assembler.methodType descriptor
  | .dynamic bootstrap name descriptor => Assembler.dynamic bootstrap name descriptor
  | .site bootstrap name descriptor => Assembler.invokeDynamicRef bootstrap name descriptor

/-- The slot holds what is asked for. -/
def Ask.Answered (pool : Pool) (slot : Nat) : Ask → Prop
  | .utf8 text => pool.utf8 slot = .ok text
  | .type name => pool.className slot = .ok name ∧ (pool.loadable slot []).1 = .ok (.type name)
  | .string text => (pool.loadable slot []).1 = .ok (.string text)
  | .integer value => (pool.loadable slot []).1 = .ok (.int (Int32.ofInt value))
  | .nameAndType name descriptor => pool.nameAndType slot = .ok (name, descriptor)
  | .member kind owner name descriptor =>
    pool.memberRef slot [kind] = .ok ⟨owner, name, descriptor, kind = .interfaceMethod⟩
  | .handle kind owner name descriptor isInterface =>
    pool.handle slot = .ok ⟨kind, owner, name, descriptor, isInterface⟩ ∧
      (pool.loadable slot []).1 = .ok (.handle ⟨kind, owner, name, descriptor, isInterface⟩)
  | .methodType descriptor => (pool.loadable slot []).1 = .ok (.methodType descriptor)
  | .dynamic bootstrap name descriptor =>
    ∃ pair, pool.Holds slot (.dynamic bootstrap.toNat pair) ∧ pool.nameAndType pair = .ok (name, descriptor)
  | .site bootstrap name descriptor =>
    ∃ pair, pool.Holds slot (.invokeDynamic bootstrap.toNat pair) ∧ pool.nameAndType pair = .ok (name, descriptor)

def Insn.run (m : Nat) : Insn → Assemble Unit
  | .plain op => Assembler.insn m op
  | .var op index => Assembler.varInsn m op index
  | .push value => Assembler.push m value
  | .invoke op owner name descriptor => Assembler.invoke m op owner name descriptor
  | .field op owner name descriptor => Assembler.fieldInsn m op owner name descriptor
  | .type op name => Assembler.typeInsn m op name
  | .load slot => Assembler.ldc m slot
  | .loadString text => Assembler.ldcString m text
  | .loadInt value => Assembler.ldcInt m value
  | .dynamic name descriptor handle arguments => Assembler.invokeDynamic m name descriptor handle arguments
  | .jump op target => Assembler.jump m op target

def Call.run : Call → Assemble Unit
  | .setSuper name => Assembler.setSuper name
  | .setAccess access => Assembler.setAccess access
  | .implement names => Assembler.implement names
  | .setSource source => Assembler.setSource source
  | .field access name descriptor => Assembler.field access name descriptor
  | .method access name descriptor => discard (Assembler.method access name descriptor)
  | .ask request => discard request.run
  | .bootstrap handle arguments => discard (Assembler.bootstrap handle arguments)
  | .bootstrapArgument number argument => Assembler.bootstrapArgument number argument
  | .insn m i => i.run m
  | .line m number => Assembler.line m number
  | .handler m start stop target type => Assembler.handle m start stop target type
  | .setAbstract m => Assembler.setAbstract m
  | .setMaxs m maxStack maxLocals => Assembler.setMaxs m maxStack maxLocals
  | .encode => discard Assembler.encode

/-- The state that the calls lead to. -/
def Call.runAll (name : String) (calls : List Call) : Assembler := ((calls.forM Call.run) (Assembler.new name)).2

/-! What the calls declare. -/

/-- What a replay is to tell of an instruction: an event known at once, or one that depends on the constant in a slot
or on a bootstrap method. -/
inductive Told where
  | event (event : CodeEvent)
  | load (slot : Nat)
  | site (name descriptor : String) (bootstrap : Nat)

/-- The event in a class with the given pool. -/
def Told.resolve (pool : Pool) : Told → Except PoolFault CodeEvent
  | .event e => return e
  | .load slot => return .ldc (← (pool.loadable slot []).1)
  | .site name descriptor bootstrap => do
    let method ← pool.bootstrapAt bootstrap
    let handle ← pool.handle method.handle
    let arguments ← method.arguments.mapM fun argument => (pool.loadable argument []).1
    return .invokeDynamic name descriptor (some handle) arguments

namespace Insn

/-- The general form of a load or store that names its variable itself. -/
def shortForm? (op : Int) : Option (Int × Int) :=
  if 26 ≤ op ∧ op ≤ 45 then some (21 + (op - 26) / 4, (op - 26) % 4)
  else if 59 ≤ op ∧ op ≤ 78 then some (54 + (op - 59) / 4, (op - 59) % 4)
  else none

/-- What is to be told of the instruction, where its bootstrap method, if it has one, gets the given number. -/
def told (number : Nat) : Insn → Told
  | .plain op =>
    match shortForm? op with
    | some (general, index) => .event (.varInsn general index)
    | none => .event (.insn op)
  | .var op index => .event (.varInsn op index)
  | .push value => .event (.intInsn 16 value)
  | .invoke op owner name descriptor => .event (.methodInsn op owner name descriptor (op = 185))
  | .field op owner name descriptor => .event (.fieldInsn op owner name descriptor)
  | .type op name => .event (.typeInsn op name)
  | .load slot => .load slot.toNat
  | .loadString text => .event (.ldc (.string text))
  | .loadInt value => .event (.ldc (.int (Int32.ofInt value)))
  | .dynamic name descriptor _ _ => .site name descriptor number
  | .jump op target => .event (.jump op target)

/-- The number of bytes. -/
def size : Insn → Nat
  | .plain _ => 1
  | .var _ _ | .push _ => 2
  | .invoke op _ _ _ => if op = 185 then 5 else 3
  | .dynamic _ _ _ _ => 5
  | _ => 3

/-- The bootstrap methods that the instruction brings along. -/
def bootstraps : Insn → List (Int × List Int)
  | .dynamic _ _ handle arguments => [(handle, arguments)]
  | _ => []

end Insn

structure MethodPlan where
  access : Int
  name : String
  descriptor : String
  maxStack : Int := 4
  maxLocals : Int := 4
  /-- Start, end, handler and type of each handler. -/
  handlers : List (Int × Int × Int × String) := []
  /-- Offset and line number. -/
  lines : List (Nat × Int) := []
  isAbstract : Bool := false
  /-- The size of the code. -/
  size : Nat := 0
  told : List Told := []

structure Plan where
  name : String
  superName : String := "java/lang/Object"
  access : Int := 0x21
  interfaces : List String := []
  source : String := ""
  fields : List FieldDraft := []
  methods : List MethodPlan := []
  bootstraps : List (Int × List Int) := []

namespace Plan

/-- Changes one method. -/
def draft (p : Plan) (m : Nat) (change : MethodPlan → MethodPlan) : Plan :=
  { p with methods := p.methods.modify m change }

/-- The plan after a call. -/
def after (p : Plan) : Call → Plan
  | .setSuper name => { p with superName := name }
  | .setAccess access => { p with access }
  | .implement names => { p with interfaces := p.interfaces ++ names }
  | .setSource source => { p with source }
  | .field access name descriptor => { p with fields := p.fields ++ [⟨access, name, descriptor⟩] }
  | .method access name descriptor => { p with methods := p.methods ++ [{ access, name, descriptor }] }
  | .ask _ | .encode => p
  | .bootstrap handle arguments => { p with bootstraps := p.bootstraps ++ [(handle, arguments)] }
  | .bootstrapArgument number argument =>
    { p with bootstraps := p.bootstraps.modify number fun (handle, arguments) => (handle, arguments ++ [argument]) }
  | .insn m i =>
    { p.draft m fun d => { d with size := d.size + i.size, told := d.told ++ [i.told p.bootstraps.length] } with
      bootstraps := p.bootstraps ++ i.bootstraps }
  | .line m number => p.draft m fun d => { d with lines := d.lines ++ [(d.size, number)] }
  | .handler m start stop target type =>
    p.draft m fun d => { d with handlers := d.handlers ++ [(start, stop, target, type)] }
  | .setAbstract m => p.draft m fun d => { d with isAbstract := true }
  | .setMaxs m maxStack maxLocals => p.draft m fun d => { d with maxStack, maxLocals }

/-- What the calls declare. -/
def of (name : String) (calls : List Call) : Plan := calls.foldl after { name }

/-- The bootstrap methods as they are to be parsed. -/
def linkage (p : Plan) : List Bootstrap :=
  p.bootstraps.map fun (handle, arguments) => ⟨handle.toNat, arguments.map Int.toNat⟩

/-- The declaration of the class, which is one of version 52. -/
def header (p : Plan) : Header := ⟨52, p.access, p.name, "", p.superName, p.interfaces⟩

end Plan

/-- The body as it is to be parsed, with the given code. -/
def MethodPlan.code (d : MethodPlan) (bytes : Bytes) : Code where
  maxStack := d.maxStack.toNat
  maxLocals := d.maxLocals.toNat
  bytes := bytes
  handlers := d.handlers.map fun (start, stop, target, type) => ⟨start.toNat, stop.toNat, target.toNat, type⟩
  lines := d.lines.map fun (start, number) => ⟨start, number.toNat⟩

/-- The method as it is to be parsed, with the given code. -/
def MethodPlan.method (d : MethodPlan) (bytes : Bytes) : Method where
  decl := ⟨d.access, d.name, d.descriptor, "", []⟩
  code := if d.isAbstract then none else some (d.code bytes)

/-! What the calls have to keep to. -/

/-- The texts of a member that an assembly may refer to. -/
structure Nameable (owner name descriptor : String) : Prop where
  owner : Storable owner ∧ '.' ∉ owner.toList
  name : Storable name ∧ ':' ∉ name.toList
  descriptor : Storable descriptor

instance (owner name descriptor : String) : Decidable (Nameable owner name descriptor) :=
  decidable_of_iff ((Storable owner ∧ '.' ∉ owner.toList) ∧ (Storable name ∧ ':' ∉ name.toList) ∧ Storable descriptor)
    ⟨fun h => ⟨h.1, h.2.1, h.2.2⟩, fun h => ⟨h.owner, h.name, h.descriptor⟩⟩

/-- The number is that of a signed integer of the given number of bits. -/
def IsSigned (bits : Nat) (n : Int) : Prop := -2 ^ bits ≤ 2 * n ∧ 2 * n < 2 ^ bits

instance (bits : Nat) (n : Int) : Decidable (IsSigned bits n) := inferInstanceAs (Decidable (_ ∧ _))

def Ask.Fits : Ask → Prop
  | .utf8 text | .type text | .string text | .methodType text => Storable text
  | .integer value => IsSigned 32 value
  | .nameAndType name descriptor => Storable name ∧ Storable descriptor
  | .member _ owner name descriptor => Nameable owner name descriptor
  | .handle kind owner name descriptor isInterface =>
    Nameable owner name descriptor ∧ 1 ≤ kind ∧ kind ≤ 9 ∧ (isInterface = true → 4 < kind)
  | .dynamic bootstrap name descriptor | .site bootstrap name descriptor =>
    IsU2 bootstrap ∧ (Storable name ∧ ':' ∉ name.toList) ∧ Storable descriptor

instance : (q : Ask) → Decidable q.Fits
  | .utf8 text | .type text | .string text | .methodType text => inferInstanceAs (Decidable (Storable text))
  | .integer value => inferInstanceAs (Decidable (IsSigned 32 value))
  | .member _ owner name descriptor => inferInstanceAs (Decidable (Nameable owner name descriptor))
  | .nameAndType _ _ | .handle _ _ _ _ _ | .dynamic _ _ _ | .site _ _ _ => inferInstanceAs (Decidable (_ ∧ _))

/-- The instruction is of its own kind and can be written at the given offset, where its bootstrap method, if it has
one, gets the given number. -/
def Insn.Fits (offset number : Nat) : Insn → Prop
  | .plain op =>
    0 ≤ op ∧ op ≤ 15 ∨ 26 ≤ op ∧ op ≤ 53 ∨ 59 ≤ op ∧ op ≤ 131 ∨ 133 ≤ op ∧ op ≤ 152 ∨ 172 ≤ op ∧ op ≤ 177 ∨
      190 ≤ op ∧ op ≤ 191 ∨ 194 ≤ op ∧ op ≤ 195
  | .var op index => (21 ≤ op ∧ op ≤ 25 ∨ 54 ≤ op ∧ op ≤ 58 ∨ op = 169) ∧ 0 ≤ index ∧ index < 256
  | .push value => IsSigned 8 value
  | .invoke op owner name descriptor => (182 ≤ op ∧ op ≤ 185) ∧ Nameable owner name descriptor
  | .field op owner name descriptor => (178 ≤ op ∧ op ≤ 181) ∧ Nameable owner name descriptor
  | .type op name => (op = 187 ∨ op = 189 ∨ op = 192 ∨ op = 193) ∧ Storable name
  | .load slot => IsU2 slot
  | .loadString text => Storable text
  | .loadInt value => IsSigned 32 value
  | .dynamic name descriptor _ _ => number < 65536 ∧ (Storable name ∧ ':' ∉ name.toList) ∧ Storable descriptor
  | .jump op target => (153 ≤ op ∧ op ≤ 168 ∨ 198 ≤ op ∧ op ≤ 199) ∧ IsSigned 16 (target - offset)

instance (offset number : Nat) : (i : Insn) → Decidable (i.Fits offset number)
  | .plain _ => inferInstanceAs (Decidable (_ ∨ _))
  | .push value => inferInstanceAs (Decidable (IsSigned 8 value))
  | .load slot => inferInstanceAs (Decidable (IsU2 slot))
  | .loadString text => inferInstanceAs (Decidable (Storable text))
  | .loadInt value => inferInstanceAs (Decidable (IsSigned 32 value))
  | .var _ _ | .invoke _ _ _ _ | .field _ _ _ _ | .type _ _ | .dynamic _ _ _ _ | .jump _ _ =>
    inferInstanceAs (Decidable (_ ∧ _))

/-- The call may be made when this is what has been declared. -/
def Call.Fits (p : Plan) : Call → Prop
  | .setSuper text | .setSource text => Storable text
  | .implement names => ∀ name ∈ names, Storable name
  | .field _ name descriptor | .method _ name descriptor => Storable name ∧ Storable descriptor
  | .ask request => request.Fits
  | .bootstrapArgument number _ => number < p.bootstraps.length
  | .insn m i => ∃ d, p.methods[m]? = some d ∧ i.Fits d.size p.bootstraps.length
  | .handler m _ _ _ type => m < p.methods.length ∧ Storable type
  | .line m _ | .setAbstract m | .setMaxs m _ _ => m < p.methods.length
  | .setAccess _ | .bootstrap _ _ | .encode => True

instance (p : Plan) : (call : Call) → Decidable (call.Fits p)
  | .setSuper text | .setSource text => inferInstanceAs (Decidable (Storable text))
  | .implement names => inferInstanceAs (Decidable (∀ name ∈ names, Storable name))
  | .ask request => inferInstanceAs (Decidable request.Fits)
  | .bootstrapArgument number _ => inferInstanceAs (Decidable (number < p.bootstraps.length))
  | .insn m i => inferInstanceAs (Decidable (∃ d, p.methods[m]? = some d ∧ i.Fits d.size p.bootstraps.length))
  | .line m _ | .setAbstract m | .setMaxs m _ _ => inferInstanceAs (Decidable (m < p.methods.length))
  | .field _ _ _ | .method _ _ _ | .handler _ _ _ _ _ => inferInstanceAs (Decidable (_ ∧ _))
  | .setAccess _ | .bootstrap _ _ | .encode => inferInstanceAs (Decidable True)

/-- Each call may be made when its turn comes. -/
def Call.AllFit : Plan → List Call → Prop
  | _, [] => True
  | p, call :: calls => call.Fits p ∧ AllFit (p.after call) calls

instance Call.decidableAllFit : (p : Plan) → (calls : List Call) → Decidable (Call.AllFit p calls)
  | _, [] => inferInstanceAs (Decidable True)
  | p, call :: calls =>
    have := decidableAllFit (p.after call) calls
    inferInstanceAs (Decidable (call.Fits p ∧ AllFit (p.after call) calls))

/-- The numbers and counts of a method fit the widths in which they are written. -/
structure MethodPlan.Fits (d : MethodPlan) : Prop where
  access : IsU2 d.access
  maxs : d.isAbstract = false → IsU2 d.maxStack ∧ IsU2 d.maxLocals
  handlers : d.isAbstract = false → d.handlers.length < 65536 ∧ ∀ h ∈ d.handlers, IsU2 h.1 ∧ IsU2 h.2.1 ∧ IsU2 h.2.2.1
  lines : d.isAbstract = false → d.lines.length < 65536 ∧ ∀ l ∈ d.lines, l.1 < 65536 ∧ IsU2 l.2
  /-- The length of the attribute with the code. -/
  length : d.isAbstract = false →
    12 + d.size + 8 * d.handlers.length + (if d.lines = [] then 0 else 8 + 4 * d.lines.length) < 2 ^ 32

instance (d : MethodPlan) : Decidable d.Fits :=
  decidable_of_iff (IsU2 d.access ∧ (d.isAbstract = false → (IsU2 d.maxStack ∧ IsU2 d.maxLocals) ∧
      (d.handlers.length < 65536 ∧ ∀ h ∈ d.handlers, IsU2 h.1 ∧ IsU2 h.2.1 ∧ IsU2 h.2.2.1) ∧
      (d.lines.length < 65536 ∧ ∀ l ∈ d.lines, l.1 < 65536 ∧ IsU2 l.2) ∧
      12 + d.size + 8 * d.handlers.length + (if d.lines = [] then 0 else 8 + 4 * d.lines.length) < 2 ^ 32))
    ⟨fun h => ⟨h.1, fun hc => (h.2 hc).1, fun hc => (h.2 hc).2.1, fun hc => (h.2 hc).2.2.1, fun hc => (h.2 hc).2.2.2⟩,
      fun h => ⟨h.access, fun hc => ⟨h.maxs hc, h.handlers hc, h.lines hc, h.length hc⟩⟩⟩

/-- The numbers and counts of a class fit the widths in which they are written. -/
structure Plan.Fits (p : Plan) : Prop where
  access : IsU2 p.access
  interfaces : p.interfaces.length < 65536
  fields : p.fields.length < 65536 ∧ ∀ f ∈ p.fields, IsU2 f.access
  methods : p.methods.length < 65536 ∧ ∀ d ∈ p.methods, d.Fits
  bootstraps : p.bootstraps.length < 65536 ∧
    ∀ b ∈ p.bootstraps, IsU2 b.1 ∧ b.2.length < 65536 ∧ ∀ argument ∈ b.2, IsU2 argument
  /-- The length of the attribute with the bootstrap methods. -/
  length : 2 + 4 * p.bootstraps.length + 2 * (p.bootstraps.flatMap (·.2)).length < 2 ^ 32

instance (p : Plan) : Decidable p.Fits :=
  decidable_of_iff (IsU2 p.access ∧ p.interfaces.length < 65536 ∧
      (p.fields.length < 65536 ∧ ∀ f ∈ p.fields, IsU2 f.access) ∧
      (p.methods.length < 65536 ∧ ∀ d ∈ p.methods, d.Fits) ∧
      (p.bootstraps.length < 65536 ∧
        ∀ b ∈ p.bootstraps, IsU2 b.1 ∧ b.2.length < 65536 ∧ ∀ argument ∈ b.2, IsU2 argument) ∧
      2 + 4 * p.bootstraps.length + 2 * (p.bootstraps.flatMap (·.2)).length < 2 ^ 32)
    ⟨fun ⟨access, interfaces, fields, methods, bootstraps, length⟩ =>
      ⟨access, interfaces, fields, methods, bootstraps, length⟩,
      fun h => ⟨h.access, h.interfaces, h.fields, h.methods, h.bootstraps, h.length⟩⟩

/-! Names and descriptors that are asked for. -/

def Ask.pairs : Ask → List (String × String)
  | .nameAndType name descriptor | .member _ _ name descriptor | .handle _ _ name descriptor _
  | .dynamic _ name descriptor | .site _ name descriptor => [(name, descriptor)]
  | _ => []

def Insn.pairs : Insn → List (String × String)
  | .invoke _ _ name descriptor | .field _ _ name descriptor | .dynamic name descriptor _ _ => [(name, descriptor)]
  | _ => []

def Call.pairs : Call → List (String × String)
  | .ask request => request.pairs
  | .insn _ i => i.pairs
  | _ => []

/-- No pair that is asked for by itself is spelled like another one. -/
def Call.Apart (calls : List Call) : Prop :=
  ∀ name descriptor, .ask (.nameAndType name descriptor) ∈ calls → ∀ pair ∈ calls.flatMap Call.pairs,
    spellPair name descriptor = spellPair pair.1 pair.2 → (name, descriptor) = pair

end Linkage
