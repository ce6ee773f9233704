/-
Micheline/CommandLine/Run.lean

Carrying out commands.  What a command can read is given beforehand; standard input can be
read once, after that it is empty.
-/
import Micheline.CommandLine.Command
import Micheline.Contract.Registry
import Micheline.Contract.Script
import Micheline.Form.Schema
import Micheline.Text.Blank
import Micheline.Tree.Change
import Micheline.Tree.Project
import Micheline.Tree.Settle

namespace Micheline.CommandLine

/-! ### Failures -/

/-- Why a command fails: what it was about to do, and what went wrong in that if there is
more to say. -/
structure Failure where
  message : String
  cause : Option String := none
  /-- Whether what went wrong is that a text is no document. -/
  isMalformed : Bool := false
  deriving DecidableEq, Repr

namespace Failure

/-- An error as a failure by itself. -/
def ofError (e : Error) : Failure :=
  { message := e.message, isMalformed := e.isMalformed }

/-- An error as the cause of a failure. -/
def causedBy (message : String) (e : Error) : Failure :=
  { message, cause := some e.message, isMalformed := e.isMalformed }

/-- A failure in lines: the message, and the cause indented by four blanks. -/
def text (f : Failure) : String :=
  "Error: " ++ f.message ++ match f.cause with
    | none => ""
    | some cause => "\n\nCaused by:\n" ++
      "\n".intercalate ((cause.splitOn "\n").map ("    " ++ ·))

end Failure

/-! ### Inputs -/

/-- A text that can be read, or why it cannot be. -/
abbrev Source := Except String String

/-- What a command can read: standard input and the file of each path. -/
structure Inputs where
  stdin : Source
  file : String → Source

/-- A step of a command.  The state is what is left of standard input. -/
abbrev Action (α : Type) := StateT Source (Except Failure) α

/-- The text of a source that is called `name`. -/
def textOf (name : String) : Source → Action String
  | .ok text => pure text
  | .error fault => throw { message := "reading " ++ name, cause := some fault }

def readInput (inputs : Inputs) (path : String) : Action String := do
  if path = "-" then
    let left ← modifyGet fun left => (left, .ok "")
    textOf "stdin" left
  else textOf path (inputs.file path)

/-- A step that fails with an error of its own. -/
def attempt {α : Type} : Except Error α → Action α
  | .ok a => pure a
  | .error e => throw (.ofError e)

/-- A step whose error is the cause of a failure. -/
def during {α : Type} (message : String) : Except Error α → Action α
  | .ok a => pure a
  | .error e => throw (.causedBy message e)

/-! ### Parts of commands -/

def readNodes (inputs : Inputs) (path : String) : Action (List Node) := do
  let text ← readInput inputs path
  attempt (lift .node (Node.parse text))

def readType (inputs : Inputs) (path : String) : Action Tree := do
  let text ← readInput inputs path
  during ("typing " ++ path) (Tree.parse text)

/-- The types in an input with the values in another one. -/
def readValue (inputs : Inputs) (type value : String) : Action Tree := do
  let tree ← readType inputs type
  let text ← readInput inputs value
  during ("settling " ++ value) (tree.settleText text)

def readScript (inputs : Inputs) (path : String) : Action Tree := do
  let text ← readInput inputs path
  match Json.parse? text with
  | none => throw (.causedBy ("parsing " ++ path) (.node .malformed))
  | some json => return (← attempt (Script.ofJson json)).parameter

/-- The expressions whose bytes a text writes in hexadecimal. -/
def decodeText (text : String) : Action (List Node) :=
  match Binary.decodeHex text with
  | .ok ns => pure ns
  | .error (.invalidHex cause) =>
    throw { message := (Binary.Error.invalidHex cause).message, cause := some cause.message }
  | .error e => throw { message := e.message }

/-- The bytes of packed data that a text writes in hexadecimal. -/
def packedBytes (text : String) : Action Bytes :=
  match Hex.decode (Hex.dropMarkers text) with
  | .ok data => pure data
  | .error cause => throw { message := "packed data is not hex", cause := some cause.message }

/-- The only one of the expressions that packed data is made of. -/
def onlyNode : List Node → Action Node
  | [n] => pure n
  | ns => throw { message := "pack expects a single Micheline expression, got " ++ ns.length.repr }

/-- The parameter type whose interfaces are asked for. -/
def readParameter (inputs : Inputs) : (script type : Option String) → Action Tree
  | some path, none => readScript inputs path
  | none, some path => readType inputs path
  | _, _ => throw { message := "pass exactly one of --script or --type" }

def line (text : String) : String :=
  text ++ "\n"

def document (pretty : Bool) (json : Json) : String :=
  line (if pretty then json.pretty else json.compact)

def presentations (ps : List Presentation) : Json :=
  .arr (ps.map Presentation.toJson)

/-! ### Commands -/

/-- What a command writes; `now` is the default of points in time. -/
def perform (now : Int) (inputs : Inputs) (i : Invocation) : Action String :=
  match i.command with
  | .encode input => do
    let ns ← readNodes inputs input
    return line (Hex.encode (← attempt (lift .binary (Binary.encodeDocument ns))))
  | .decode input => do
    let text ← readInput inputs input
    return document i.pretty (Node.document (← decodeText (trimBlank text)))
  | .pack input => do
    let n ← onlyNode (← readNodes inputs input)
    return line (Hex.encode (← attempt (lift .binary (Binary.pack n))))
  | .unpack input => do
    let data ← packedBytes (trimBlank (← readInput inputs input))
    return document i.pretty (← attempt (lift .binary (Binary.unpack data))).toJson
  | .format input => do
    let ns ← readNodes inputs input
    return String.join (ns.map fun n => line n.michelson)
  | .schema type => do
    let tree ← readType inputs type
    return document i.pretty (← attempt (tree.schema now)).toJson
  | .docs type byEntrypoint => do
    let tree ← readType inputs type
    return document i.pretty
      (if byEntrypoint then .arr (tree.entrypointDocs.map EntrypointDoc.toJson)
      else .arr (tree.docs.map Typedef.toJson))
  | .present type value => do
    let tree ← readValue inputs type value
    return document i.pretty (presentations (← attempt tree.present))
  | .diff type value previous => do
    let tree ← readValue inputs type value
    -- Without an earlier value everything is new.
    match previous with
    | none => return document i.pretty (presentations (← attempt tree.created))
    | some path =>
      let earlier ← readValue inputs type path
      return document i.pretty (presentations (← attempt (tree.diff earlier)))
  | .normalize type value form => do
    let tree ← readValue inputs type value
    return document i.pretty (← attempt (tree.toJson form))
  | .interfaces script type => do
    let tree ← readParameter inputs script type
    let tags ← attempt (Registry.standard.find tree)
    return document i.pretty (.arr (tags.map .str))

/-- How an invocation ends: with output or with a failure. -/
def run (now : Int) (inputs : Inputs) (i : Invocation) : Except Failure String := do
  return (← (perform now inputs i).run inputs.stdin).1

/-! ### Exits -/

/-- How the program ends: its exit code and what it wrote. -/
structure Exit where
  code : Nat
  stdout : String := ""
  stderr : Option Failure := none
  deriving DecidableEq, Repr

/-- The name and the version of the program. -/
def versionText : String := "micheline 0.1.0"

/-- How the program ends for arguments. -/
def exit (now : Int) (inputs : Inputs) (args : List String) : Exit :=
  match Command.parse args with
  | .error .misused => { code := 2 }
  | .error .help => { code := 0 }
  | .error .version => { code := 0, stdout := line versionText }
  | .ok i =>
    match run now inputs i with
    | .ok stdout => { code := 0, stdout }
    | .error failure => { code := 1, stderr := some failure }

end Micheline.CommandLine
