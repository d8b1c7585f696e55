import Linkage.Neo4j
import Linkage.Text.Integer
import Linkage.Text.Quoted
import Linkage.Text.Separated

/-! The flags of the command line and the options that they set. -/
namespace Linkage
namespace Command

/-- What can be asked for. -/
inductive Verb where
  | edges
  | deps
  | cycles
  | exportGraph
deriving Repr, DecidableEq

namespace Verb

def all : List Verb := [.cycles, .deps, .edges, .exportGraph]

def name : Verb → String
  | .edges => "edges"
  | .deps => "deps"
  | .cycles => "cycles"
  | .exportGraph => "export"

def ofName? (s : String) : Option Verb := all.find? (·.name == s)

end Verb

inductive Flag where
  | config
  | verbose
  | concurrency
  | help
  | format
  | out
  | className
  | depth
  | classPrefix
  | server
  | user
  | password
  | clean
  | batchSize
deriving Repr, DecidableEq

namespace Flag

def name : Flag → String
  | .config => "config"
  | .verbose => "verbose"
  | .concurrency => "concurrency"
  | .help => "help"
  | .format => "format"
  | .out => "out"
  | .className => "class"
  | .depth => "depth"
  | .classPrefix => "prefix"
  | .server => "neo4j-uri"
  | .user => "neo4j-user"
  | .password => "neo4j-password"
  | .clean => "clean"
  | .batchSize => "batch-size"

/-- The letter of a flag, where it has one. It does not depend on the command. -/
def letter? : Flag → Option Char
  | .verbose => some 'v'
  | .help => some 'h'
  | .format => some 'f'
  | .out => some 'o'
  | .className => some 'c'
  | .depth => some 'd'
  | .classPrefix => some 'p'
  | _ => none

/-- Whether a flag stands for a value of its own where none is given. -/
def isSwitch : Flag → Bool
  | .verbose | .help | .clean => true
  | _ => false

/-- How a flag is named in messages. -/
def title (f : Flag) : String :=
  match f.letter? with
  | some c => "-" ++ c.toString ++ ", --" ++ f.name
  | none => "--" ++ f.name

/-- The flags of all commands, without the one that asks for help. -/
def shared : List Flag := [.config, .verbose, .concurrency]

/-- The flags of a command; those of no command where none is given. -/
def flagsOf : Option Verb → List Flag
  | none => .help :: shared
  | some .edges => [.format, .out] ++ .help :: shared
  | some .deps => [.className, .depth, .classPrefix] ++ .help :: shared
  | some .cycles => .help :: shared
  | some .exportGraph => [.out, .server, .user, .password, .clean, .batchSize] ++ .help :: shared

end Flag

/-- What the flags ask for. -/
structure Options where
  config : String := ""
  verbose : Bool := false
  concurrency : Int := 0
  help : Bool := false
  format : String := "text"
  out : String := ""
  className : Option String := none
  depth : Int := -1
  prefixes : List String := []
  server : String := "bolt://localhost:7687"
  user : String := "neo4j"
  password : String := ""
  clean : Bool := false
  batchSize : Int := Neo4j.Options.defaultBatchSize
deriving Repr, DecidableEq

/-- Why a text is no value of a flag. -/
inductive ValueFault where
  | notInteger (text : String) (fault : Text.IntegerFault)
  | notBoolean (text : String)
  | notList (fault : Separated.Fault)
deriving Repr, DecidableEq

def ValueFault.message : ValueFault → String
  | .notInteger text fault => "strconv.ParseInt: parsing " ++ Text.quote text ++ ": " ++ fault.message
  | .notBoolean text => "strconv.ParseBool: parsing " ++ Text.quote text ++ ": invalid syntax"
  | .notList fault => fault.message

namespace Flag

def integerOf (s : String) : Except ValueFault Int := (Text.integer s).mapError (.notInteger s)

def booleanOf (s : String) : Except ValueFault Bool :=
  if ["1", "t", "T", "TRUE", "true", "True"].contains s then .ok true
  else if ["0", "f", "F", "FALSE", "false", "False"].contains s then .ok false
  else .error (.notBoolean s)

/-- Values separated by commas; the empty text has none. -/
def listOf (s : String) : Except ValueFault (List String) :=
  if s.isEmpty then .ok [] else (Separated.record s).mapError .notList

/-- Sets an option to the value in a text. A list grows with every flag that adds to it. -/
def set (f : Flag) (s : String) (o : Options) : Except ValueFault Options := do
  match f with
  | .config => return { o with config := s }
  | .verbose => return { o with verbose := ← booleanOf s }
  | .concurrency => return { o with concurrency := ← integerOf s }
  | .help => return { o with help := ← booleanOf s }
  | .format => return { o with format := s }
  | .out => return { o with out := s }
  | .className => return { o with className := some s }
  | .depth => return { o with depth := ← integerOf s }
  | .classPrefix => return { o with prefixes := o.prefixes ++ (← listOf s) }
  | .server => return { o with server := s }
  | .user => return { o with user := s }
  | .password => return { o with password := s }
  | .clean => return { o with clean := ← booleanOf s }
  | .batchSize => return { o with batchSize := ← integerOf s }

end Flag

end Command

end Linkage
