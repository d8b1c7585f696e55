import Linkage.Distinct
import Linkage.Model
import Linkage.Yaml.Value

/-!
The graph that is handed to other programs: one node for each text of a member and one link for each reference, with
the number of times that it occurs.
-/
namespace Linkage

/-- Where the class of a member was found, and the hash of its bytes. -/
structure Origin where
  location : String
  fingerprint : UInt64
deriving Repr, DecidableEq

namespace Origin

/-- The hash in hexadecimal digits, without leading zeros. -/
def fingerprintText (o : Origin) : String := String.ofList (Nat.toDigits 16 o.fingerprint.toNat)

end Origin

/-- A member, with the origin of its class if that was analysed. -/
structure ExportNode where
  member : Member
  origin : Option Origin
deriving Repr, DecidableEq

namespace ExportNode

def id (n : ExportNode) : String := n.member.text

/-- What the node is, as other programs read it. -/
def type : String := "member"

/-- The properties by rising name. -/
def properties (n : ExportNode) : List (String × String) :=
  (match n.origin with
    | some o => [("fingerprint", o.fingerprintText), ("location", o.location)]
    | none => []) ++
  [("name", n.member.name), ("owner", n.member.owner)]

end ExportNode

/-- A reference and how often it occurs. -/
structure ExportLink where
  access : Access
  count : Nat
deriving Repr, DecidableEq

namespace ExportLink

def source (l : ExportLink) : String := l.access.source.text

def target (l : ExportLink) : String := l.access.dest.text

/-- What the link is, as other programs read it. -/
def type : String := "DEPENDS_ON"

end ExportLink

structure ExportGraph where
  nodes : List ExportNode
  links : List ExportLink
deriving Repr, DecidableEq

namespace Model

/-- The node of a member. -/
def exportNode (m : Model) (member : Member) : ExportNode :=
  ⟨member, (m.find? member.owner).map fun c => ⟨c.location, c.fingerprint⟩⟩

/-- The nodes by rising text; the links in the order in which their references first occur. -/
def exportGraph (m : Model) : ExportGraph where
  nodes := (sortDistinctBy Member.text (m.edges.flatMap fun a => [a.source, a.dest])).map m.exportNode
  links := m.edges.eraseDups.map fun a => ⟨a, m.edges.count a⟩

end Model

namespace Member

def toYaml (m : Member) : Yaml.Value := .record [("owner", .text m.owner), ("name", .text m.name)]

end Member

namespace Access

def toYaml (a : Access) : Yaml.Value := .record [("source", a.source.toYaml), ("dest", a.dest.toYaml)]

end Access

namespace ExportNode

def toYaml (n : ExportNode) : Yaml.Value :=
  .record [("id", .text n.id), ("type", .text type),
    ("properties", .record (n.properties.map fun (name, value) => (name, .text value)))]

end ExportNode

namespace ExportLink

def toYaml (l : ExportLink) : Yaml.Value :=
  .record [("source", .text l.source), ("target", .text l.target), ("type", .text type),
    ("properties", .record [("count", .number l.count)])]

end ExportLink

namespace ExportGraph

def toYaml (g : ExportGraph) : Yaml.Value :=
  .record [("nodes", .list (g.nodes.map (·.toYaml))), ("edges", .list (g.links.map (·.toYaml)))]

end ExportGraph

end Linkage
