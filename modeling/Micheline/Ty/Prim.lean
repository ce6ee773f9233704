/-
Micheline/Ty/Prim.lean

The primitives that types are built from, how many arguments each takes, and which of them
have ordered values.
-/
import Micheline.Identifier.Error

namespace Micheline

/-! ### Arities -/

/-- How many arguments something takes. -/
inductive Arity where
  | exactly (n : Nat)
  | atLeast (n : Nat)
  deriving DecidableEq, Repr

/-- Whether a number of arguments is allowed. -/
def Arity.accepts : Arity → Nat → Bool
  | .exactly n, count => count == n
  | .atLeast n, count => n ≤ count

def Arity.text : Arity → String
  | .exactly n => n.repr
  | .atLeast n => "at least " ++ n.repr

/-! ### Scalars -/

/-- The types whose values are literals. -/
inductive Scalar where
  | string
  | int
  | nat
  | mutez
  | timestamp
  | bytes
  | address
  | key
  | keyHash
  | signature
  | chainId
  | rollupAddress
  | blsField
  | blsG1
  | blsG2
  | chest
  | chestKey
  deriving DecidableEq, Repr

def Scalar.name : Scalar → String
  | .string => "string"
  | .int => "int"
  | .nat => "nat"
  | .mutez => "mutez"
  | .timestamp => "timestamp"
  | .bytes => "bytes"
  | .address => "address"
  | .key => "key"
  | .keyHash => "key_hash"
  | .signature => "signature"
  | .chainId => "chain_id"
  | .rollupAddress => "tx_rollup_l2_address"
  | .blsField => "bls12_381_fr"
  | .blsG1 => "bls12_381_g1"
  | .blsG2 => "bls12_381_g2"
  | .chest => "chest"
  | .chestKey => "chest_key"

/-- What the literals of a type hold. -/
inductive Content where
  /-- Any integer. -/
  | integer
  /-- An integer that is not negative. -/
  | natural
  /-- A text. -/
  | text
  /-- Bytes that are ordered. -/
  | bytes
  /-- Bytes without an order. -/
  | blob
  /-- An element of a field: an integer or bytes, without an order. -/
  | field
  /-- A point in time: seconds or a text. -/
  | time
  /-- An identifier: its text or its bytes. -/
  | identifier (role : Identifier.Role)
  deriving DecidableEq, Repr

/-- What the literals of a scalar type hold. -/
def Scalar.content : Scalar → Content
  | .string => .text
  | .int => .integer
  | .nat | .mutez => .natural
  | .timestamp => .time
  | .bytes => .bytes
  | .address => .identifier .address
  | .key => .identifier .key
  | .keyHash => .identifier .keyHash
  | .signature => .identifier .signature
  | .chainId => .identifier .chainId
  | .rollupAddress => .identifier .rollupAddress
  | .blsField => .field
  | .blsG1 | .blsG2 | .chest | .chestKey => .blob

/-- Whether the literals of a content are ordered. -/
def Content.isOrdered : Content → Bool
  | .blob | .field => false
  | _ => true

/-! ### Primitives -/

inductive Prim where
  | unit
  | never
  | operation
  | bool
  | scalar (kind : Scalar)
  | contract
  | pair
  | or
  | option
  | list
  | set
  | map
  | bigMap
  | lambda
  | ticket
  | saplingState
  | saplingTransaction
  | saplingTransactionDeprecated
  | constant
  deriving DecidableEq, Repr

namespace Prim

def all : List Prim := [
  .unit, .never, .operation, .scalar .string, .scalar .int, .scalar .nat, .scalar .mutez, .bool,
  .scalar .timestamp, .scalar .bytes, .scalar .address, .scalar .key, .scalar .keyHash,
  .scalar .signature, .scalar .chainId, .scalar .rollupAddress, .scalar .blsField, .scalar .blsG1,
  .scalar .blsG2, .scalar .chest, .scalar .chestKey, .contract, .pair, .or, .option, .list, .set,
  .map, .bigMap, .lambda, .ticket, .saplingState, .saplingTransaction,
  .saplingTransactionDeprecated, .constant]

def name : Prim → String
  | .unit => "unit"
  | .never => "never"
  | .operation => "operation"
  | .bool => "bool"
  | .scalar kind => kind.name
  | .contract => "contract"
  | .pair => "pair"
  | .or => "or"
  | .option => "option"
  | .list => "list"
  | .set => "set"
  | .map => "map"
  | .bigMap => "big_map"
  | .lambda => "lambda"
  | .ticket => "ticket"
  | .saplingState => "sapling_state"
  | .saplingTransaction => "sapling_transaction"
  | .saplingTransactionDeprecated => "sapling_transaction_deprecated"
  | .constant => "constant"

def ofName? (name : String) : Option Prim :=
  all.find? fun prim => prim.name == name

/-- A character in lower case, as far as that is an ASCII letter: besides the capital
letters there is one such character, the sign of the kelvin. -/
def lowerChar (c : Char) : Char :=
  if c.toNat = 0x212a then 'k' else c.toLower

/-- The primitive that a name stands for in either case. -/
def ofAnyCase? (name : String) : Option Prim :=
  ofName? (String.ofList (name.toList.map lowerChar))

def arity : Prim → Arity
  | .pair => .atLeast 2
  | .or | .map | .bigMap | .lambda => .exactly 2
  | .contract | .option | .list | .set | .ticket | .saplingState | .saplingTransaction
    | .saplingTransactionDeprecated | .constant => .exactly 1
  | _ => .exactly 0

/-- Whether values of the primitive are ordered, provided that those of its arguments are. -/
def isComparable : Prim → Bool
  | .unit | .never | .bool => true
  | .scalar kind => kind.content.isOrdered
  | .pair | .or | .option => true
  | _ => false

theorem mem_all (p : Prim) : p ∈ all := by
  rcases p with _ | _ | _ | _ | kind <;> first | decide | (cases kind <;> decide)

theorem ofName?_name (p : Prim) : ofName? p.name = some p := by
  rcases p with _ | _ | _ | _ | kind <;> first | decide +kernel | (cases kind <;> decide +kernel)

end Prim

end Micheline
