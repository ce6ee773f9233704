/-
Micheline/CommandLine/Options.lean

Options and operands on a command line.  An option has a long name behind two dashes and
may have a letter behind one; letters may be joined.  The value of an option follows it,
behind an equals sign or as the next argument, or directly behind its letter.  A value is
not empty and does not begin with a dash, a single dash apart; an option may limit its
values to a few.  No option is given twice.  Two dashes alone end the options.  Arguments
are judged from left to right: the first one that breaks a rule, or asks for something else
than a command, decides.
-/

namespace Micheline.CommandLine

/-- Why a command line is not carried out. -/
inductive Stop where
  /-- It does not follow the rules. -/
  | misused
  /-- It asks for help. -/
  | help
  /-- It asks for the version. -/
  | version
  deriving DecidableEq, Repr

structure Opt where
  long : String
  short : Option Char := none
  takesValue : Bool := true
  /-- The values that it is limited to; any text will do if there are none. -/
  choices : List String := []
  deriving DecidableEq, Repr

/-- Whether a text may be the value of an option. -/
def Opt.admits (o : Opt) (value : String) : Bool :=
  value != "" && (o.choices.isEmpty || o.choices.contains value)

def Opt.pretty : Opt := { long := "pretty", short := some 'p', takesValue := false }

def Opt.help : Opt := { long := "help", short := some 'h', takesValue := false }

def Opt.version : Opt := { long := "version", short := some 'V', takesValue := false }

/-- What is given on a command line; an option without a value has an empty one. -/
structure Given where
  options : List (String × String) := []
  operands : List String := []
  deriving DecidableEq, Repr

namespace Given

def value? (g : Given) (o : Opt) : Option String :=
  g.options.lookup o.long

def has (g : Given) (o : Opt) : Bool :=
  (g.value? o).isSome

def value (g : Given) (o : Opt) : Except Stop String :=
  match g.value? o with
  | some value => .ok value
  | none => .error .misused

/-- Notes an option with its value. -/
def set (g : Given) (o : Opt) (value : String) : Except Stop Given :=
  if o = .help then .error .help
  else if o = .version then .error .version
  else if g.has o ∨ (o.takesValue ∧ ¬ o.admits value) then .error .misused
  else .ok { g with options := g.options ++ [(o.long, value)] }

/-- Notes an operand, if there is room for one more. -/
def addOperand (g : Given) (room : Nat) (operand : String) : Except Stop Given :=
  if operand = "" ∨ room ≤ g.operands.length then .error .misused
  else .ok { g with operands := g.operands ++ [operand] }

end Given

/-- Whether an argument is one or more options. -/
def isOption (arg : String) : Bool :=
  match arg.toList with
  | '-' :: _ :: _ => true
  | _ => false

/-- A name and the value behind the first equals sign, if there is one. -/
def splitValue : List Char → List Char × Option (List Char)
  | [] => ([], none)
  | c :: rest =>
    if c = '=' then ([], some rest)
    else
      let (name, value) := splitValue rest
      (c :: name, value)

/-- Reads joined letters.  The last one may be an option whose value is still to come. -/
def letters (opts : List Opt) : List Char → Given → Except Stop (Given × Option Opt)
  | [], g => .ok (g, none)
  | c :: rest, g =>
    match opts.find? fun o => o.short == some c with
    | none => .error .misused
    | some o =>
      if o.takesValue then
        match rest with
        | [] => .ok (g, some o)
        -- What follows the letter is its value, with or without an equals sign.
        | '=' :: value => do return (← g.set o (String.ofList value), none)
        | value => do return (← g.set o (String.ofList value), none)
      else do letters opts rest (← g.set o "")

/-- Reads an option behind two dashes.  Its value may be still to come. -/
def longOption (opts : List Opt) (text : List Char) (g : Given) :
    Except Stop (Given × Option Opt) :=
  let (name, value) := splitValue text
  match opts.find? fun o => o.long == String.ofList name with
  | none => .error .misused
  | some o =>
    if o.takesValue then
      match value with
      | some value => do return (← g.set o (String.ofList value), none)
      | none => .ok (g, some o)
    else if value.isSome then .error .misused
    else do return (← g.set o "", none)

/-- Reads arguments, of which `room` may be operands. -/
def readArgs (opts : List Opt) (room : Nat) : List String → Given → Except Stop Given
  | [], g => .ok g
  | arg :: rest, g =>
    match arg.toList with
    -- what follows are operands, whatever they look like
    | ['-', '-'] => rest.foldlM (fun g operand => g.addOperand room operand) g
    | '-' :: c :: more => do
      let (g, pending) ← if c = '-' then longOption opts more g else letters opts (c :: more) g
      match pending, rest with
      | none, rest => readArgs opts room rest g
      | some _, [] => throw .misused
      | some o, value :: rest =>
        if isOption value then throw .misused
        else readArgs opts room rest (← g.set o value)
    | _ => do readArgs opts room rest (← g.addOperand room arg)

end Micheline.CommandLine
