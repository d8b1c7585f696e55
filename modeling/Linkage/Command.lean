import Linkage.Analysis
import Linkage.Command.Invocation
import Linkage.Config.Load
import Linkage.Model.Graph
import Linkage.Neo4j.Address
import Linkage.Project

/-! The commands: what they print, which files they write, and how they fail. -/
namespace Linkage
namespace Command

/-- A file that could not be written at the location asked for. -/
structure UploadError where
  location : String
  error : FileTree.WriteError

def UploadError.message (e : UploadError) : String := "failed to upload " ++ e.location ++ ": " ++ e.error.message

/-- Why a command fails. -/
inductive Failure where
  | usage (error : UsageError)
  | config (error : LoadError)
  | detection (error : FileError)
  | connection (error : Neo4j.ConnectError)
  | analysis (error : AnalysisError UploadError)
  | unknownFormat (format : String)
  | unknownClass (name : String)
  | output (error : FileTree.WriteError)

def Failure.message : Failure → String
  | .usage error => error.message
  | .config error => error.message
  | .detection error => error.message
  | .connection error => error.message
  | .analysis error => error.message UploadError.message
  | .unknownFormat format => "unsupported format: " ++ format
  | .unknownClass name => "class not found: " ++ name
  | .output error => error.message

/-- What a command works on: the files, what it has printed, the files that it has written and what its analysis
keeps. -/
structure Desk where
  place : Workplace
  printed : String := ""
  written : List (String × Bytes) := []
  analysis : Analysis := {}

abbrev Act := Run Desk Failure

def ofExcept {ε α : Type} (failure : ε → Failure) (r : Except ε α) : Act α := fun d => (r.mapError failure, d)

def print (s : String) : Act Unit := modify fun d => { d with printed := d.printed ++ s }

def printLines (lines : List String) : Act Unit := print (String.join (lines.map (· ++ "\n")))

/-- Takes over files after a text was written at a location. -/
def keepWritten (location text : String) (place : Workplace) : Act Unit :=
  modify fun d => { d with place, written := d.written ++ [(place.filePath location, Text.encodeUtf8 text)] }

/-- Writes a text to the file at a location. -/
def write (location text : String) : Act Unit := do
  let place ← ofExcept .output ((← get).place.write location (Text.encodeUtf8 text))
  keepWritten location text place

/-- Runs a step of the analysis. -/
def analysing {α : Type} (run : Run Analysis (AnalysisError UploadError) α) : Act α := fun d =>
  let (outcome, analysis) := run d.analysis
  (outcome.mapError .analysis, { d with analysis })

/-- The settings that the options name. -/
def settings (o : Options) : Act Config := do
  if o.config.isEmpty then return Config.standard
  ofExcept .config (Config.load (← get).place o.config)

/-- The locations to analyse: those of the project whose root is given, or else the given location. -/
def locations (location : String) : Act (List String) := do
  if (FileKind.ofName? location).isSome then return [location]
  let place := (← get).place
  let project ← ofExcept .detection (Project.detect place location)
  if project.root ≠ Path.absolute place.working location ∨ (project.classRoots.isEmpty ∧ project.libraries.isEmpty) then
    return [location]
  analysing (Analysis.notify (.detected project.name project.kind.text project.classRoots project.libraries))
  return project.locations

/-- The model of the classes at a location, after the export of its graph, and the settings. -/
def analyse {α : Type} (o : Options) (location : String) (send : Workplace → ExportGraph → Except UploadError α) :
    Act (Model × Config × α) := do
  let config ← settings o
  let found ← locations location
  let place := (← get).place
  let (m, a) ← analysing (Analysis.exported config false place found (send place))
  return (m, config, a)

def modelAt (o : Options) (location : String) : Act (Model × Config) := do
  let (m, config, _) ← analyse o location fun _ _ => .ok ()
  return (m, config)

/-- Prints all references or writes them to a file. The format matters only where they are printed. -/
def edges (o : Options) (location : String) : Act Unit := do
  let (m, _) ← modelAt o location
  let yaml := (Yaml.Value.list (m.edges.map (·.toYaml))).render
  if !o.out.isEmpty then write o.out yaml
  else if o.format = "yaml" then print yaml
  else if o.format = "text" then printLines (m.edges.map (·.text))
  else throw (.unknownFormat o.format)

/-- Prints the classes that a class depends on. A point in the name of the class stands for a slash. -/
def deps (o : Options) (location : String) : Act Unit := do
  let (m, config) ← modelAt o location
  let name := (o.className.getD "").replace "." "/"
  if (m.find? name).isNone then throw (.unknownClass name)
  let depth := if o.depth < 0 then config.depth else o.depth
  printLines (m.dependencies name (Model.depthLimit depth) fun owner =>
    o.prefixes.isEmpty || o.prefixes.any (owner.startsWith ·))

/-- Prints each group of classes that depend on each other on a line. -/
def cycles (o : Options) (location : String) : Act Unit := do
  let (m, _) ← modelAt o location
  printLines (m.cycles.map (String.intercalate " "))

/-- Writes the graph to a file, or else loads it into a database. -/
def exportGraph (o : Options) (location : String) : Act Unit := do
  if o.out.isEmpty then throw (.connection (Neo4j.connectError o.server))
  let (m, _, place) ← analyse o location fun place g =>
    (place.write o.out (Text.encodeUtf8 g.toYaml.render)).mapError (UploadError.mk o.out)
  keepWritten o.out m.exportGraph.toYaml.render place

def usage : String :=
  "Usage:\n  " ++ program ++ " COMMAND LOCATION\n\nCommands: " ++
    String.intercalate ", " (Verb.all.map (·.name)) ++ "\n"

def perform : Invocation → Act Unit
  | .help => print usage
  | .run .edges o location => edges o location
  | .run .deps o location => deps o location
  | .run .cycles o location => cycles o location
  | .run .exportGraph o location => exportGraph o location

/-- What is left when a command has ended. -/
structure Report where
  printed : String
  /-- The lines about the run and its failure. -/
  remarks : String
  files : FileTree
  /-- The files that were written, by their paths. -/
  written : List (String × Bytes)
  failure : Option Failure

/-- The notices that are shown: warnings, or all of them. -/
def shownNotices (verbose : Bool) (notices : List Notice) : String :=
  String.join ((notices.filter fun n => verbose || n.level = .warn).map (·.line))

/-- The lines about a failure. -/
def failureText (f : Failure) : String :=
  let hint := match f with
    | .usage (.unknownCommand ..) => "Run '" ++ program ++ " --help' for usage.\n"
    | _ => ""
  "Error: " ++ f.message ++ "\n" ++ hint

def Invocation.isVerbose : Invocation → Bool
  | .help => false
  | .run _ o _ => o.verbose

/-- Runs a command line. -/
def run (place : Workplace) (words : List String) : Report :=
  match Invocation.parse words with
  | .error error => ⟨"", failureText (.usage error), place.files, [], some (.usage error)⟩
  | .ok invocation =>
    let (outcome, desk) := perform invocation { place }
    let failure := match outcome with
      | .ok () => none
      | .error failure => some failure
    let remarks := shownNotices invocation.isVerbose desk.analysis.notices.reverse ++
      (failure.map failureText).getD ""
    ⟨desk.printed, remarks, desk.place.files, desk.written, failure⟩

end Command

end Linkage
