/-! Values that instructions, field declarations and bootstrap methods carry. -/
namespace Linkage

/-- A reference to a field or method together with the way it is used. -/
structure Handle where
  kind : Int
  owner : String
  name : String
  descriptor : String
  isInterface : Bool
deriving Repr, DecidableEq, Inhabited

/-- A constant value. Floating-point numbers are kept as their bits. -/
inductive Literal where
  /-- No value. -/
  | null
  | int (value : Int32)
  | float (bits : UInt32)
  | long (value : Int64)
  | double (bits : UInt64)
  | string (text : String)
  /-- A class literal. -/
  | type (name : String)
  | methodType (descriptor : String)
  | handle (handle : Handle)
  /-- A constant that a bootstrap method computes from its arguments. -/
  | dynamic (name descriptor : String) (bootstrap : Option Handle) (arguments : List Literal)
deriving Repr, Inhabited

end Linkage
