import Linkage.Config
import Linkage.ExportGraph
import Linkage.Fingerprint
import Linkage.Notice
import Linkage.Source

/-!
Analysis of the classes at given locations. The classes of one file after the other are extracted and put into one
model. What was extracted from some bytes is kept and used again for equal bytes.
-/
namespace Linkage

/-- What was extracted from a class. -/
structure Extracted where
  name : String
  edges : List Access
deriving Repr, DecidableEq

/-- What an analysis keeps: extracted classes by the hash of their bytes, and the notices so far, the latest
first. -/
structure Analysis where
  known : List (UInt64 × Extracted) := []
  notices : List Notice := []
deriving Inhabited

/-- Why a location has no files to analyse. -/
inductive LocateError where
  /-- The path as the location tells it is shown beside the one that was tried. -/
  | missing (location path : String) (error : FileError)
  | unsupported (location : String)

def LocateError.message : LocateError → String
  | .missing location path error =>
    "failed to locate " ++ location ++ ": unable to open " ++ path ++ ": " ++ error.message
  | .unsupported location => "unsupported file type: " ++ location

/-- Why an analysis ended without a model. Failures of the export are of type `ε`. -/
inductive AnalysisError (ε : Type) where
  | locate (error : LocateError)
  | source (error : SourceError)
  | cancelled
  | malformed (name location : String) (error : ExtractError Empty)
  | failedExport (error : ε)

def AnalysisError.message {ε : Type} (text : ε → String) : AnalysisError ε → String
  | .locate error => error.message
  | .source error => error.message
  | .cancelled => "context canceled"
  | .malformed name location error => name ++ " in " ++ location ++ ": " ++ error.message nofun
  | .failedExport error => "failed to export graph: " ++ text error

namespace Analysis

/-- The addresses of the files to analyse at a location: the file itself, or the files in and below a directory.
Between the address of the directory and the name stands the path in between, also where it is empty. -/
def filesAt (config : Config) (place : Workplace) (location : String) : Except LocateError (List String) := do
  let address := Location.address place.working location
  let missing := LocateError.missing location (place.path location)
  match ← (place.files.findFor "open" (place.filePath location)).mapError missing with
  | .file _ => if (FileKind.ofName? location).isSome then return [address] else throw (.unsupported location)
  | .directory cs =>
    let wanted := (FileTree.filesAmong "" cs).filter fun (parent, name) =>
      !config.skips parent && (FileKind.ofName? name).isSome
    return wanted.map fun (parent, name) => address ++ "/" ++ parent ++ "/" ++ name

/-- The addresses of the files to analyse at several locations, in rising order. -/
def filesOf (config : Config) (place : Workplace) (locations : List String) : Except LocateError (List String) := do
  let found ← locations.mapM (filesAt config place)
  return found.flatten.mergeSort fun a b => decide (a ≤ b)

def notify {ε : Type} (n : Notice) : Run Analysis ε Unit := modify fun a => { a with notices := n :: a.notices }

/-- Runs a computation and answers its outcome, be it a failure. -/
def outcomeOf {σ ε ε' α : Type} (run : Run σ ε α) : Run σ ε' (Except ε α) := fun s =>
  let (outcome, s) := run s
  (.ok outcome, s)

/-- Extracts a class from its bytes; nothing if the settings leave it out. -/
def extract (config : Config) (data : Bytes) : Except (ExtractError Empty) (Option Extracted) := do
  let c ← (ClassFile.parse data).mapError .parse
  if !config.accepts c.name then return none
  return some ⟨c.name, ← c.collect⟩

/-- The class of a source; nothing if the settings leave it out. Bytes whose hash is known are not read again. -/
def classOf (config : Config) (source : Source) : Run Analysis (ExtractError Empty) (Option ClassRecord) := do
  let hash := fingerprint source.data
  let record (e : Extracted) : ClassRecord := ⟨e.name, source.location, hash, e.edges⟩
  match (← get).known.lookup hash with
  | some e => return some (record e)
  | none =>
    match ← liftExcept (extract config source.data) with
    | none => return none
    | some e =>
      modify fun a => { a with known := (hash, e) :: a.known }
      notify (.analyzed e.name e.edges.length)
      return some (record e)
where
  liftExcept {α : Type} (r : Except (ExtractError Empty) α) : Run Analysis (ExtractError Empty) α := fun s => (r, s)

variable {ε : Type}

/-- The classes of sources. A malformed class ends the analysis if the settings are strict, and is left out
otherwise. -/
def classesOf (config : Config) (cancelled : Bool) : List Source → Run Analysis (AnalysisError ε) (List ClassRecord)
  | [] => return []
  | source :: rest => do
    if cancelled then throw .cancelled
    match ← outcomeOf (classOf config source) with
    | .ok (some c) => return c :: (← classesOf config cancelled rest)
    | .ok none => classesOf config cancelled rest
    | .error error =>
      if config.strict then throw (.malformed source.name source.location error)
      notify (.skipped source.name source.location error)
      classesOf config cancelled rest

/-- Adds classes to a model; of two classes of one name one has to give way. -/
def addAll (m : Model) : List ClassRecord → Run Analysis ε Model
  | [] => return m
  | c :: rest => do
    let (m, dropped) := m.add c
    match dropped with
    | some d => notify (.duplicate c.name (((m.find? c.name).map (·.location)).getD "") d.location)
    | none => pure ()
    addAll m rest

/-- Adds the classes of files to a model, file by file. -/
def addFiles (config : Config) (cancelled : Bool) (place : Workplace) (m : Model) :
    List String → Run Analysis (AnalysisError ε) Model
  | [] => return m
  | file :: rest => do
    match Source.load place file with
    | .error error => throw (.source error)
    | .ok sources =>
      let m ← addAll m (← classesOf config cancelled sources)
      addFiles config cancelled place m rest

/-- The model of the classes at the locations. -/
def modelOf (config : Config) (cancelled : Bool) (place : Workplace) (locations : List String) :
    Run Analysis (AnalysisError ε) Model := do
  match filesOf config place locations with
  | .error error => throw (.locate error)
  | .ok files =>
    let m ← addFiles config cancelled place Model.empty files
    notify (.completed files.length m.classes.length)
    return m

/-- The model of the classes at the locations, after the export of its graph. -/
def exported {α : Type} (config : Config) (cancelled : Bool) (place : Workplace) (locations : List String)
    (send : ExportGraph → Except ε α) : Run Analysis (AnalysisError ε) (Model × α) := do
  let m ← modelOf config cancelled place locations
  match send m.exportGraph with
  | .ok a => return (m, a)
  | .error error => throw (.failedExport error)

end Analysis

end Linkage
