import Linkage.Jvm.Pool

/-! What a class file declares. -/
namespace Linkage

/-- The declaration of a class. `version` is the minor version times 65536 plus the major one. -/
structure Header where
  version : Int
  access : Int
  name : String
  signature : String
  superName : String
  interfaces : List String
deriving Repr, DecidableEq, Inhabited

/-- The declaration of a field; `value` is its constant value. -/
structure Field where
  access : Int
  name : String
  descriptor : String
  signature : String
  value : Literal
deriving Repr, Inhabited

/-- The declaration of a method. -/
structure MethodDecl where
  access : Int
  name : String
  descriptor : String
  signature : String
  exceptions : List String
deriving Repr, DecidableEq, Inhabited

/-- An attribute that is kept as it stands. -/
structure Attribute where
  name : String
  data : Bytes
deriving Repr, DecidableEq, Inhabited

/-- A range of code and the handler of the exceptions thrown in it; no type means all of them. -/
structure Handler where
  start : Nat
  stop : Nat
  handler : Nat
  type : String
deriving Repr, DecidableEq

/-- The source line of the code from an offset on. -/
structure Line where
  start : Nat
  line : Nat
deriving Repr, DecidableEq

/-- The body of a method. -/
structure Code where
  maxStack : Nat
  maxLocals : Nat
  bytes : Bytes
  handlers : List Handler
  lines : List Line
deriving Repr, DecidableEq

structure Method where
  decl : MethodDecl
  code : Option Code
deriving Repr, DecidableEq

/-- A class: what it declares, and the pool that its code refers to. -/
structure ClassFile where
  header : Header
  source : String
  fields : List Field
  methods : List Method
  attributes : List Attribute
  pool : Pool
deriving Repr

namespace ClassFile

def name (c : ClassFile) : String := c.header.name

end ClassFile

end Linkage
