import Linkage.Command.Distance
import Linkage.Command.Flag
import Linkage.Text.LowerCase

/-!
What the words of a command line ask for. Flags may stand before and behind the command and its argument; two hyphens
end the flags.
-/
namespace Linkage
namespace Command

def program : String := "classdep"

/-- Why a command line cannot be understood. -/
inductive UsageError where
  | unknownCommand (name : String) (close : List String)
  | malformedFlag (word : String)
  | unknownFlag (name : String)
  /-- The first of the letters is no flag. -/
  | unknownLetter (letters : String)
  | missingValue (name : String)
  /-- The first of the letters is a flag that needs a value. -/
  | missingLetterValue (letters : String)
  | invalidValue (flag : Flag) (value : String) (fault : ValueFault)
  | argumentCount (received : Nat)
  | required (flag : Flag)
deriving Repr, DecidableEq

namespace UsageError

/-- The character whose number is the first byte of a text. -/
def firstByte (s : String) : Char := Char.ofNat ((Text.encodeUtf8 s).headD 0).toNat

/-- How the first of some letters is shown: only letters of one byte stand for themselves. -/
def shownLetter (letters : String) : Char := firstByte (firstByte letters).toString

def message : UsageError → String
  | .unknownCommand name close =>
    "unknown command " ++ Text.quote name ++ " for " ++ Text.quote program ++
      (if close.isEmpty then ""
        else "\n\nDid you mean this?\n" ++ String.join (close.map fun c => "\t" ++ c ++ "\n"))
  | .malformedFlag word => "bad flag syntax: " ++ word
  | .unknownFlag name => "unknown flag: --" ++ name
  | .unknownLetter letters => "unknown shorthand flag: " ++ Text.quoteChar (shownLetter letters) ++ " in -" ++ letters
  | .missingValue name => "flag needs an argument: --" ++ name
  | .missingLetterValue letters =>
    "flag needs an argument: " ++ Text.quoteChar (shownLetter letters) ++ " in -" ++ letters
  | .invalidValue flag value fault =>
    "invalid argument " ++ Text.quote value ++ " for " ++ Text.quote flag.title ++ " flag: " ++ fault.message
  | .argumentCount received => "accepts 1 arg(s), received " ++ toString received
  | .required flag => "required flag(s) \"" ++ flag.name ++ "\" not set"

end UsageError

/-! The command among the words. -/

/-- Whether the word after a word is taken for the value of a flag before the command is known: every flag but a known
switch takes one. -/
def takesNext (word : String) : Bool :=
  let switches := Flag.shared.filter (·.isSwitch)
  let cs := word.toList
  !cs.contains '=' &&
    match cs with
    | '-' :: '-' :: name => !switches.any fun f => f.name == String.ofList name
    | ['-', c] => c.toNat < 0x80 && !switches.any fun f => f.letter? == some c
    | _ => false

/-- The words that are neither flags nor their values. -/
def plainWords : List String → List String
  | [] => []
  | word :: rest =>
    if word = "--" then []
    else if takesNext word then
      match rest with
      | _ :: next :: rest => plainWords (next :: rest)
      | _ => []
    else if word.isEmpty || word.startsWith "-" then plainWords rest
    else word :: plainWords rest

/-- The words without the first that is the name of the command. -/
def withoutName (name : String) : List String → List String
  | [] => []
  | word :: rest =>
    if word = "--" then word :: rest
    else if takesNext word then
      match rest with
      | value :: rest => word :: value :: withoutName name rest
      | [] => [word]
    else if word = name then rest
    else word :: withoutName name rest

/-- Words that ask for texts about the program itself. -/
def helpWords : List String := ["help", "completion", "__complete", "__completeNoDesc"]

/-- The names of commands that a word may have been meant for: those it starts, and those that two changes lead to.
Capitals do not matter. -/
def closeNames (word : String) : List String :=
  let typed := Text.toLowerCase word
  (Verb.all.map (·.name) ++ ["completion"]).filter fun name =>
    Distance.between (Text.encodeUtf8 typed) (Text.encodeUtf8 name) ≤ 2 || name.startsWith typed

/-! Flags and arguments. -/

/-- Sets a flag. -/
def setFlag (f : Flag) (value : String) (o : Options) : Except UsageError Options :=
  (f.set value o).mapError (.invalidValue f value)

/-- Reads a flag by its name, which follows two hyphens. Also answers whether the next word is its value. -/
def longFlag (flags : List Flag) (text : String) (next : Option String) (o : Options) :
    Except UsageError (Options × Bool) := do
  let cs := text.toList
  if cs.head? = some '-' ∨ cs.head? = some '=' then throw (.malformedFlag ("--" ++ text))
  let name := String.ofList (cs.takeWhile (· != '='))
  let given := cs.dropWhile (· != '=')
  match flags.find? (·.name == name) with
  | none => throw (.unknownFlag name)
  | some f =>
    if !given.isEmpty then return (← setFlag f (String.ofList given.tail) o, false)
    else if f.isSwitch then return (← setFlag f "true" o, false)
    else
      match next with
      | some value => return (← setFlag f value o, true)
      | none => throw (.missingValue name)

/-- Reads flags by their letters. A letter that needs a value takes the letters behind it or else the next word. Also
answers whether the next word was taken. -/
def letterFlags (flags : List Flag) (next : Option String) : List Char → Options → Except UsageError (Options × Bool)
  | [], o => .ok (o, false)
  | c :: rest, o => do
    let letters := String.ofList (c :: rest)
    if letters.startsWith "test." then return (o, false)
    match flags.find? (·.letter? == some c) with
    | none => throw (.unknownLetter letters)
    | some f =>
      match rest with
      | '=' :: d :: value => return (← setFlag f (String.ofList (d :: value)) o, false)
      | _ =>
        if f.isSwitch then letterFlags flags next rest (← setFlag f "true" o)
        else if !rest.isEmpty then return (← setFlag f (String.ofList rest) o, false)
        else
          match next with
          | some value => return (← setFlag f value o, true)
          | none => throw (.missingLetterValue letters)

/-- Reads flags and arguments from the words that follow the command. -/
def readWords (flags : List Flag) : List String → Options → Except UsageError (Options × List String)
  | [], o => .ok (o, [])
  | word :: rest, o => do
    match word.toList with
    | '-' :: '-' :: [] => return (o, rest)
    | '-' :: c :: cs =>
      let (o, taken) ←
        if c = '-' then longFlag flags (String.ofList cs) rest.head? o else letterFlags flags rest.head? (c :: cs) o
      match taken, rest with
      | true, _ :: rest => readWords flags rest o
      | _, rest => readWords flags rest o
    | _ =>
      let (o, arguments) ← readWords flags rest o
      return (o, word :: arguments)

/-- What is to be done. -/
inductive Invocation where
  | help
  | run (verb : Verb) (options : Options) (location : String)
deriving Repr, DecidableEq

/-- Reads the words for a command: first the flags, then the number of arguments, then the flags that have to be
there. -/
def Invocation.ofWords (verb : Option Verb) (words : List String) : Except UsageError Invocation := do
  let (options, arguments) ← readWords (Flag.flagsOf verb) words {}
  match verb, options.help with
  | none, _ => return .help
  | some _, true => return .help
  | some verb, false =>
    match arguments with
    | [location] =>
      if verb = .deps ∧ options.className.isNone then throw (.required .className)
      return .run verb options location
    | _ => throw (.argumentCount arguments.length)

/-- Reads a whole command line. -/
def Invocation.parse (words : List String) : Except UsageError Invocation :=
  match plainWords words with
  | [] => Invocation.ofWords none words
  | name :: _ =>
    match Verb.ofName? name with
    | some verb => Invocation.ofWords (some verb) (withoutName name words)
    | none => if helpWords.contains name then .ok .help else .error (.unknownCommand name (closeNames name))

end Command

end Linkage
