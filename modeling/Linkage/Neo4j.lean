import Linkage.ExportGraph
import Linkage.Run

/-!
Loading an exported graph into a Neo4j database: members and their classes first, then the dependencies, a bounded
number of rows with each statement.
-/
namespace Linkage
namespace Neo4j

/-- One row that a statement is run over. -/
inductive Row where
  | member (node : ExportNode)
  | dependency (link : ExportLink)
deriving Repr, DecidableEq

/-- What is run on the database: a query, and the rows that it goes through if it takes any. -/
structure Statement where
  query : String
  rows : Option (List Row)
deriving Repr, DecidableEq

/-- The parts of an export, each of which runs statements of its own. -/
inductive Phase where
  | clean
  | index
  | members
  | dependencies
deriving Repr, DecidableEq

namespace Phase

/-- What is said of the part when one of its statements fails. -/
def failure : Phase → String
  | .clean => "failed to clean graph"
  | .index => "failed to create index"
  | .members => "failed to load members"
  | .dependencies => "failed to load dependencies"

end Phase

/-- How an export is run. -/
structure Options where
  batchSize : Nat
  clean : Bool
deriving Repr, DecidableEq

namespace Options

/-- The number of rows with one statement where no positive number is asked for. -/
def defaultBatchSize : Nat := 1000

def ofRequest (batch : Int) (clean : Bool) : Options := ⟨if 0 < batch then batch.toNat else defaultBatchSize, clean⟩

end Options

def cleanQuery : String := "MATCH (n) WHERE n:JvmMember OR n:JvmClass DETACH DELETE n"

def indexQueries : List String :=
  ["CREATE INDEX jvm_member_id IF NOT EXISTS FOR (n:JvmMember) ON (n.id)",
    "CREATE INDEX jvm_class_name IF NOT EXISTS FOR (n:JvmClass) ON (n.name)"]

def memberQuery : String :=
  "UNWIND $batch AS row\n" ++
  "\t\t MERGE (c:JvmClass \x7bname: row.owner\x7d)\n" ++
  "\t\t MERGE (n:JvmMember \x7bid: row.id\x7d)\n" ++
  "\t\t SET n.owner = row.owner, n.name = row.name,\n" ++
  "\t\t     n.location = row.location, n.fingerprint = row.fingerprint\n" ++
  "\t\t MERGE (n)-[:DECLARED_IN]->(c)"

def dependencyQuery : String :=
  "UNWIND $batch AS row\n" ++
  "\t\t MATCH (source:JvmMember \x7bid: row.source\x7d), (target:JvmMember \x7bid: row.target\x7d)\n" ++
  "\t\t MERGE (source)-[r:DEPENDS_ON]->(target)\n" ++
  "\t\t SET r.count = row.count"

/-- Cuts a list into pieces of the given size, the last of which may be shorter; size zero counts as one. -/
def batches {α : Type} (size : Nat) : List α → List (List α)
  | [] => []
  | x :: rest => (x :: rest.take (size - 1)) :: batches size (rest.drop (size - 1))
termination_by xs => xs.length
decreasing_by simp only [List.length_drop, List.length_cons]; omega

/-- All statements of an export in the order in which they are run. -/
def statements (options : Options) (g : ExportGraph) : List (Phase × Statement) :=
  let load (phase : Phase) (query : String) (rows : List Row) : List (Phase × Statement) :=
    (batches options.batchSize rows).map fun batch => (phase, ⟨query, some batch⟩)
  (if options.clean then [(.clean, ⟨cleanQuery, none⟩)] else []) ++
    indexQueries.map (fun query => (.index, ⟨query, none⟩)) ++
    load .members memberQuery (g.nodes.map .member) ++
    load .dependencies dependencyQuery (g.links.map .dependency)

/-- Why an export ended early: a statement of a phase failed. -/
structure ExportError (ε : Type) where
  phase : Phase
  cause : ε
deriving Repr, DecidableEq

namespace ExportError

def message {ε : Type} (text : ε → String) (e : ExportError ε) : String := e.phase.failure ++ ": " ++ text e.cause

end ExportError

variable {σ ε : Type}

/-- Runs statements up to the first that fails. -/
def runAll (run : Statement → Run σ ε Unit) : List (Phase × Statement) → Run σ (ExportError ε) Unit
  | [] => pure ()
  | (phase, statement) :: rest => do
    fun s =>
      match run statement s with
      | (.ok (), s) => (.ok (), s)
      | (.error cause, s) => (.error ⟨phase, cause⟩, s)
    runAll run rest

/-- Loads a graph by running its statements. -/
def load (run : Statement → Run σ ε Unit) (options : Options) (g : ExportGraph) : Run σ (ExportError ε) Unit :=
  runAll run (statements options g)

end Neo4j

end Linkage
