/-
Micheline/Error.lean

What can go wrong when expressions are read as types and as values of types, and when
values are compared, projected and submitted.
-/
import Micheline.Binary.Error
import Micheline.Calendar.Timestamp
import Micheline.Node.Json
import Micheline.Ty.Prim

namespace Micheline

/-- What a type may have no meaning for. -/
inductive Use where
  | settling
  | projection
  | presentation
  | schema
  | submission
  deriving DecidableEq, Repr

def Use.name : Use → String
  | .settling => "settle"
  | .projection => "to_untyped"
  | .presentation => "to_miguel"
  | .schema => "to_json_schema"
  | .submission => "from_json_schema"

/-- How two trees fail to line up. -/
inductive Disagreement where
  /-- A constructor of values has another number of arguments. -/
  | arguments (constructor : String) (expected got : Nat)
  /-- A pair is written with fewer than two members. -/
  | fewMembers (got : Nat)
  /-- A pair is written with more members than it holds. -/
  | manyMembers (got : Nat)
  /-- Values do not go round the roots. -/
  | rootsAndValues (types values : Nat)
  /-- Two trees have different numbers of roots. -/
  | roots (left right : Nat)
  /-- Two pairs have different numbers of members. -/
  | members (left right : Nat)
  /-- Call parameters are made from one root. -/
  | parameterRoots (got : Nat)
  /-- The value is one of another entrypoint. -/
  | entrypoint (settled wanted : String)
  /-- The type of an interface has one root. -/
  | interfaceRoots (got : Nat)
  deriving DecidableEq, Repr

def Disagreement.text : Disagreement → String
  | .arguments constructor expected got =>
    constructor ++ " expects " ++ expected.repr ++ " argument(s), got " ++ got.repr
  | .fewMembers got => "pair needs at least 2 members, got " ++ got.repr
  | .manyMembers got => "pair holds 2 members, got " ++ got.repr
  | .rootsAndValues types values => types.repr ++ " type root(s), " ++ values.repr ++ " value(s)"
  | .roots left right => left.repr ++ " root(s) vs " ++ right.repr ++ " root(s)"
  | .members left right => "pair of " ++ left.repr ++ " vs " ++ right.repr ++ " members"
  | .parameterRoots got => "parameters need one root, got " ++ got.repr
  | .entrypoint settled wanted =>
    "value settles entrypoint " ++ settled ++ ", not " ++ wanted
  | .interfaceRoots got => "interface type needs one root, got " ++ got.repr

/-- The member that tells the branches of a choice apart in a submission. -/
def branchKey : String := "schemaKey"

/-- How a submission fails to fit a type. -/
inductive Misfit where
  /-- The data of a type has another form. -/
  | form (name expected : String) (got : Json)
  /-- The data as a whole is no object. -/
  | noObject (got : Json)
  /-- A member is missing. -/
  | missing (name : String)
  /-- A choice does not say which branch it takes. -/
  | noBranch (name : String)
  /-- An option takes a branch that it does not have. -/
  | optionBranch (name key : String)
  /-- A choice takes a branch that it does not have. -/
  | orBranch (name key : String)
  /-- A text holds no expressions. -/
  | source (name : String) (cause : Node.Error)

def Misfit.text : Misfit → String
  | .form name expected got => name ++ ": expected " ++ expected ++ ", got " ++ got.compact
  | .noObject got => "expected object, got " ++ got.compact
  | .missing name => "missing field " ++ Quoted.string name
  | .noBranch name => name ++ ": missing " ++ branchKey
  | .optionBranch name key => name ++ ": unknown option branch " ++ Quoted.string key
  | .orBranch name key => name ++ ": unknown branch " ++ Quoted.string key
  | .source name cause => name ++ ": " ++ cause.message

/-- The formats that a text may be required to have. -/
inductive Format where
  | identifier (role : Identifier.Role)
  | bytes
  | timestamp
  deriving DecidableEq, Repr

def Format.name : Format → String
  | .identifier role => role.name
  | .bytes => "bytes"
  | .timestamp => "timestamp"

/-- Why a text does not have a format. -/
inductive FormatFault where
  | identifier (cause : Identifier.Error)
  | hex (cause : Hex.Error)
  | timestamp (cause : Calendar.Timestamp.Error)
  deriving DecidableEq, Repr

def FormatFault.message : FormatFault → String
  | .identifier cause | .hex cause | .timestamp cause => cause.message

/-- A text that does not have a format. -/
structure Rejection where
  format : Format
  text : String
  cause : FormatFault
  deriving DecidableEq, Repr

def Rejection.message (r : Rejection) : String :=
  "invalid " ++ r.format.name ++ ": " ++ Quoted.string r.text ++ ": " ++ r.cause.message

/-- An error of types, values and submissions. -/
inductive Error where
  /-- An expression has another form than the type asks for; `got` describes it. -/
  | mismatch (expected got : String)
  /-- A primitive has the wrong number of arguments. -/
  | arity (owner : String) (expected : Arity) (got : Nat)
  /-- No type has this primitive. -/
  | unknownPrim (name : String)
  /-- Two trees do not line up. -/
  | different (how : Disagreement)
  /-- There is no value yet. -/
  | notSettled
  /-- Values of these types have no order. -/
  | notComparable (left right : Prim)
  /-- The type has no meaning in this use. -/
  | unsupported (prim : Prim) (use : Use)
  /-- A submission does not fit the type. -/
  | misfit (how : Misfit)
  /-- The type holds no negative numbers. -/
  | negative (prim : Prim) (value : Int)
  /-- The text of a timestamp is no point in time. -/
  | timestamp (text : String) (cause : Calendar.Timestamp.Error)
  /-- A script has no section of this name. -/
  | missingSection (name : String)
  /-- A document holds no expressions. -/
  | node (cause : Node.Error)
  /-- Bytes hold no expressions, or expressions have no bytes. -/
  | binary (cause : Binary.Error)
  /-- A literal is no identifier. -/
  | identifier (cause : Identifier.Error)
  /-- A submitted text does not have its format. -/
  | rejected (rejection : Rejection)

namespace Error

def message : Error → String
  | .mismatch expected got => "invalid primitive: expected " ++ expected ++ ", got " ++ got
  | .arity owner expected got =>
    owner ++ " expects " ++ expected.text ++ " argument(s), got " ++ got.repr
  | .unknownPrim name => "unknown primitive '" ++ name ++ "'"
  | .different how => "type and value trees are different: " ++ how.text
  | .notSettled => "tree is not settled"
  | .notComparable left right =>
    "type '" ++ left.name ++ "' is not comparable with '" ++ right.name ++ "'"
  | .unsupported prim use => use.name ++ " is not supported for '" ++ prim.name ++ "'"
  | .misfit how => "invalid schema data: " ++ how.text
  | .negative prim value =>
    "invalid " ++ prim.name ++ ": negative value " ++ Decimal.ofInt value
  | .timestamp text cause => "invalid timestamp: " ++ Quoted.string text ++ ": " ++ cause.message
  | .missingSection name => "script section '" ++ name ++ "' is missing"
  | .node cause | .binary cause | .identifier cause => cause.message
  | .rejected rejection => rejection.message

/-- Whether the error is that a text which should be a document is none. -/
def isMalformed : Error → Bool
  | .node .malformed | .misfit (.source _ .malformed) => true
  | _ => false

end Error

/-- The outcome of a step that may fail for reasons of another kind. -/
def lift {ε α : Type} (wrap : ε → Error) : Except ε α → Except Error α
  | .ok a => .ok a
  | .error e => .error (wrap e)

end Micheline
