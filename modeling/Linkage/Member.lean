/-! Members of classes and the references between them. -/
namespace Linkage

/-- A method or field, named by its class and its own name; overloads are one member. -/
structure Member where
  owner : String
  name : String
deriving Repr, DecidableEq, Hashable, Inhabited

namespace Member

def text (m : Member) : String := m.owner ++ "." ++ m.name

end Member

/-- A reference: code of `source` uses `dest`. -/
structure Access where
  source : Member
  dest : Member
deriving Repr, DecidableEq, Hashable, Inhabited

namespace Access

def text (a : Access) : String := a.source.text ++ " -> " ++ a.dest.text

end Access

/-- The root of the class hierarchy, references to whose members are not reported. -/
def rootClass : String := "java/lang/Object"

end Linkage
