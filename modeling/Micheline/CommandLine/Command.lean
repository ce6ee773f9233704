/-
Micheline/CommandLine/Command.lean

The commands and what they take.  Inputs are named by paths; a single dash is standard
input.
-/
import Micheline.CommandLine.Options
import Micheline.Value.Project

namespace Micheline.CommandLine

inductive Command where
  /-- Writes expressions in binary form. -/
  | encode (input : String)
  /-- Reads expressions in binary form. -/
  | decode (input : String)
  /-- Writes packed data. -/
  | pack (input : String)
  /-- Reads packed data. -/
  | unpack (input : String)
  /-- Writes expressions in source notation. -/
  | format (input : String)
  /-- Writes the schema of a type. -/
  | schema (type : String)
  /-- Writes the documentation of a type or of its entrypoints. -/
  | docs (type : String) (byEntrypoint : Bool)
  /-- Writes the presentation of a value. -/
  | present (type value : String)
  /-- Writes the presentation of a value beside an earlier one. -/
  | diff (type value : String) (previous : Option String)
  /-- Writes a value in a form. -/
  | normalize (type value : String) (form : ValueForm)
  /-- Writes which interfaces a script or a parameter type has. -/
  | interfaces (script type : Option String)
  deriving DecidableEq, Repr

/-- A command and how its output is written. -/
structure Invocation where
  pretty : Bool
  command : Command
  deriving DecidableEq, Repr

namespace Command

/-! ### Options -/

def typeOpt : Opt := { long := "type", short := some 't' }

def valueOpt : Opt := { long := "value", short := some 'v' }

def previousOpt : Opt := { long := "previous" }

def formOpt : Opt :=
  { long := "form", short := some 'f', choices := ValueForm.all.map ValueForm.name }

def scriptOpt : Opt := { long := "script", short := some 's' }

/-- Whether each entrypoint is documented by itself. -/
def entrypointsOpt : Opt := { long := "entrypoints", takesValue := false }

/-- The form that is asked for; the readable one if none is. -/
def form (g : Given) : Except Stop ValueForm :=
  match g.value? formOpt with
  | none => .ok .readable
  | some name =>
    match ValueForm.ofName? name with
    | some form => .ok form
    | none => .error .misused

/-- The one operand, or else standard input. -/
def input (g : Given) : String :=
  g.operands.headD "-"

/-! ### Commands by name -/

/-- A command's options, how many operands it takes, and the command that they make. -/
structure Rule where
  opts : List Opt
  room : Nat
  make : Given → Except Stop Command

/-- The rule of a command that takes one input as its operand. -/
def inputRule (make : String → Command) : Rule :=
  { opts := [], room := 1, make := fun g => .ok (make (input g)) }

/-- The rule of a command name. -/
def rule? : String → Option Rule
  | "forge" => some (inputRule .encode)
  | "unforge" => some (inputRule .decode)
  | "pack" => some (inputRule .pack)
  | "unpack" => some (inputRule .unpack)
  | "format" => some (inputRule .format)
  | "schema" => some {
      opts := [typeOpt], room := 0
      make := fun g => do return .schema (← g.value typeOpt) }
  | "docs" => some {
      opts := [typeOpt, entrypointsOpt], room := 0
      make := fun g => do return .docs (← g.value typeOpt) (g.has entrypointsOpt) }
  | "miguel" => some {
      opts := [typeOpt, valueOpt], room := 0
      make := fun g => do return .present (← g.value typeOpt) (← g.value valueOpt) }
  | "diff" => some {
      opts := [typeOpt, valueOpt, previousOpt], room := 0
      make := fun g => do
        return .diff (← g.value typeOpt) (← g.value valueOpt) (g.value? previousOpt) }
  | "normalize" => some {
      opts := [typeOpt, valueOpt, formOpt], room := 0
      make := fun g => do
        return .normalize (← g.value typeOpt) (← g.value valueOpt) (← form g) }
  | "interfaces" => some {
      opts := [scriptOpt, typeOpt], room := 0
      make := fun g => .ok (.interfaces (g.value? scriptOpt) (g.value? typeOpt)) }
  | _ => none

/-- Whether words name something that has a help text: the program by no word, a command or
the help itself by one. -/
def isHelpTopic : List String → Bool
  | [] => true
  | [name] => name = "help" || (rule? name).isSome
  | _ => false

/-- The invocation that arguments write.  Options for all commands may also stand before the
command. -/
def parse (args : List String) : Except Stop Invocation := do
  let before ← readArgs [.pretty, .help, .version] 0 (args.takeWhile isOption) {}
  if "--" ∈ args.takeWhile isOption then throw .misused
  match args.dropWhile isOption with
  | [] => throw .misused
  | name :: rest =>
    if name = "help" then throw (if isHelpTopic rest then .help else .misused)
    match rule? name with
    | none => throw .misused
    | some rule =>
      let given ← readArgs ([.pretty, .help] ++ rule.opts) rule.room rest {}
      return { pretty := before.has .pretty || given.has .pretty, command := ← rule.make given }

def inputs : Command → List String
  | .encode input | .decode input | .pack input | .unpack input | .format input => [input]
  | .schema type | .docs type _ => [type]
  | .present type value => [type, value]
  | .diff type value previous => [type, value] ++ previous.toList
  | .normalize type value _ => [type, value]
  | .interfaces script type => script.toList ++ type.toList

end Command

end Micheline.CommandLine
