import Linkage.Location
import Linkage.Text.Utf8

/-! The kinds of projects, and how their build files give a project its name. -/
namespace Linkage

/-- The tool that builds a project, as far as its files tell it. -/
inductive ProjectKind where
  | maven
  | gradle
  | sbt
  | git
  | unknown
deriving Repr, DecidableEq

namespace ProjectKind

def text : ProjectKind → String
  | .maven => "maven"
  | .gradle => "gradle"
  | .sbt => "sbt"
  | .git => "git"
  | .unknown => "unknown"

/-- The build files that may hold the name, the first found first. -/
def nameFiles : ProjectKind → List String
  | .maven => ["pom.xml"]
  | .gradle => ["settings.gradle", "settings.gradle.kts", "build.gradle", "build.gradle.kts"]
  | .sbt => ["build.sbt"]
  | _ => []

/-- The rest of a text behind a given start. -/
def after? : List Char → List Char → Option (List Char)
  | [], cs => some cs
  | _ :: _, [] => none
  | x :: xs, c :: cs => if x = c then after? xs cs else none

def afterText? (start : String) (cs : List Char) : Option (List Char) := after? start.toList cs

/-- Characters that build files may set between words. -/
def isBlank (c : Char) : Bool := c == ' ' || c == '\t' || c == '\n' || c == '\x0c' || c == '\r'

/-- The first place of a text, from its start on, where a reader finds something. -/
def firstFound {α : Type} (reader : List Char → Option α) : List Char → Option α
  | [] => reader []
  | c :: cs => reader (c :: cs) <|> firstFound reader cs

/-- The characters up to one that ends the name, and what follows from there; a name has at least one character. -/
def upTo? (ends : Char → Bool) (cs : List Char) : Option (String × List Char) :=
  let name := cs.takeWhile (!ends ·)
  if name.isEmpty then none else some (String.ofList name, cs.dropWhile (!ends ·))

/-- What follows the next occurrence of a text. -/
def afterNext? (mark : String) : List Char → Option (List Char) := firstFound (afterText? mark)

/-- The text without its parts from one mark up to the next other mark; `fuel` bounds its length. -/
def cutBetween (opening closing : String) : Nat → List Char → List Char
  | 0, cs => cs
  | _ + 1, [] => []
  | fuel + 1, c :: cs =>
    match (afterText? opening (c :: cs)).bind (afterNext? closing) with
    | some rest => cutBetween opening closing fuel rest
    | none => c :: cutBetween opening closing fuel cs

/-- The name in an element for the artifact at the start of a text. -/
def artifact? (cs : List Char) : Option String := do
  let (name, rest) ← upTo? (· == '<') (← afterText? "<artifactId>" cs)
  let _ ← afterText? "</artifactId>" rest
  return name

/-- The name that a setting at the start of a text gives to the project. -/
def projectSetting? (cs : List Char) : Option String := do
  let isQuote (c : Char) : Bool := c == '\'' || c == '"'
  let rest ← afterText? "rootProject" cs <|> afterText? "project" cs
  let rest ← afterText? "=" ((← afterText? ".name" rest).dropWhile isBlank)
  match rest.dropWhile isBlank with
  | quote :: rest =>
    if isQuote quote then
      let (name, rest) ← upTo? isQuote rest
      if rest.isEmpty then none else some name
    else none
  | [] => none

/-- The name that a definition at the start of a text gives to the project. -/
def nameDefinition? (cs : List Char) : Option String := do
  let rest ← afterText? ":=" ((← afterText? "name" cs).dropWhile isBlank)
  let (name, rest) ← upTo? (· == '"') (← afterText? "\"" (rest.dropWhile isBlank))
  if rest.isEmpty then none else some name

/-- The name of the project in the text of a build file. What a build file says of the parent project does not
count. -/
def nameIn (kind : ProjectKind) (content : String) : Option String :=
  let cs := content.toList
  match kind with
  | .maven => firstFound artifact? (cutBetween "<parent>" "</parent>" cs.length cs)
  | .gradle => firstFound projectSetting? cs
  | .sbt => firstFound nameDefinition? cs
  | _ => none

end ProjectKind

end Linkage
