/-
Micheline/Contract/Standard.lean

The interfaces of token standards, and of entrypoints that hand a result on to a contract.
-/
import Micheline.Contract.Interface
import Micheline.Json.Writer

namespace Micheline.Standard

/-! ### Types -/

def leaf (name : String) (annots : List String) : Node :=
  .prim name [] annots

def pairOf (left right : Node) : Node :=
  .app "pair" [left, right]

def contractOf (param : Node) : Node :=
  .app "contract" [param]

def listOf (elem : Node) : Node :=
  .app "list" [elem]

/-- An expression with other annotations. -/
def annotated (annots : List String) : Node → Node
  | .prim name args _ => .prim name args annots
  | n => n

/-- A transfer of one token. -/
def transfer : Node :=
  pairOf (leaf "address" [":from"]) (pairOf (leaf "address" [":to"]) (leaf "nat" [":value"]))

/-- An allowance for a spender. -/
def approve : Node :=
  pairOf (leaf "address" [":spender"]) (leaf "nat" [":value"])

/-- A question for an allowance. -/
def getAllowance : Node :=
  pairOf (pairOf (leaf "address" [":owner"]) (leaf "address" [":spender"]))
    (contractOf (leaf "nat" []))

/-- A question for a balance. -/
def getBalance : Node :=
  pairOf (leaf "address" [":owner"]) (contractOf (leaf "nat" []))

/-- A question for the total supply. -/
def getTotalSupply : Node :=
  pairOf (leaf "unit" []) (contractOf (leaf "nat" []))

/-- Transfers of several tokens from several owners. -/
def transfers : Node :=
  listOf (pairOf (leaf "address" ["%from_"])
    (annotated ["%txs"] (listOf (pairOf (leaf "address" ["%to_"])
      (pairOf (leaf "nat" ["%token_id"]) (leaf "nat" ["%amount"]))))))

/-- An owner and a token. -/
def holding : Node :=
  pairOf (leaf "address" ["%owner"]) (leaf "nat" ["%token_id"])

/-- A question for several balances. -/
def balanceOf : Node :=
  pairOf (annotated ["%requests"] (listOf holding))
    (annotated ["%callback"] (contractOf (listOf
      (pairOf (annotated ["%request"] holding) (leaf "nat" ["%balance"])))))

/-- An operator for a token of an owner. -/
def operator : Node :=
  pairOf (leaf "address" ["%owner"])
    (pairOf (leaf "address" ["%operator"]) (leaf "nat" ["%token_id"]))

/-- Operators to add and to remove. -/
def updateOperators : Node :=
  listOf (.app "or" [annotated ["%add_operator"] operator, annotated ["%remove_operator"] operator])

/-- A question for an address. -/
def viewAddress : Node :=
  pairOf (leaf "unit" []) (contractOf (leaf "address" []))

/-- A question for the balance of an address. -/
def viewBalanceOf : Node :=
  pairOf (leaf "address" []) (contractOf (leaf "nat" []))

/-! ### Interfaces -/

/-- The types that each interface asks for. -/
def types : List (String × List (String × Node)) := [
  ("fa1", [("transfer", transfer), ("getBalance", getBalance),
    ("getTotalSupply", getTotalSupply)]),
  ("fa1-2", [("transfer", transfer), ("approve", approve), ("getAllowance", getAllowance),
    ("getBalance", getBalance), ("getTotalSupply", getTotalSupply)]),
  ("fa2", [("transfer", transfers), ("balance_of", balanceOf),
    ("update_operators", updateOperators)]),
  ("view_address", [("", viewAddress)]),
  ("view_balance_of", [("", viewBalanceOf)]),
  ("view_nat", [("", getTotalSupply)])]

/-- An interface whose types are in documents, each on one line. -/
def interface (tag : String) (entrypoints : List (String × Node)) : Interface :=
  { tag, entrypoints := entrypoints.map fun (name, n) => (name, (Node.document [n]).compact) }

def all : List Interface :=
  types.map fun (tag, entrypoints) => interface tag entrypoints

end Micheline.Standard
