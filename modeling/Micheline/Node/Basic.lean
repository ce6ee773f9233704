/-
Micheline/Node/Basic.lean

Expressions: literals, sequences, and applications of a primitive to arguments with
annotations.  Code, types and values all have this one form.
-/
import Micheline.Text.Decimal
import Micheline.Text.Hex

namespace Micheline

/-- An integer, a text or a byte string. -/
inductive Literal where
  | int (value : Int)
  | string (text : String)
  | bytes (data : Bytes)
  deriving DecidableEq, Repr

/-- An expression. -/
inductive Node where
  | int (value : Int)
  | string (text : String)
  | bytes (data : Bytes)
  | seq (items : List Node)
  | prim (name : String) (args : List Node) (annots : List String)
  deriving Repr, Inhabited

/-- A literal in plain characters, bytes in hexadecimal. -/
def Literal.text : Literal → String
  | .int value => Decimal.ofInt value
  | .string text => text
  | .bytes data => Hex.encode data

def Literal.node : Literal → Node
  | .int value => .int value
  | .string text => .string text
  | .bytes data => .bytes data

namespace Node

/-! ### Parts -/

def app (name : String) (args : List Node) : Node :=
  .prim name args []

def literal? : Node → Option Literal
  | .int value => some (.int value)
  | .string text => some (.string text)
  | .bytes data => some (.bytes data)
  | _ => none

/-- The primitive's name, if the expression is an application. -/
def name? : Node → Option String
  | .prim name _ _ => some name
  | _ => none

/-- The arguments of an application; none of any other expression. -/
def args : Node → List Node
  | .prim _ args _ => args
  | _ => []

/-- The annotations of an application; none of any other expression. -/
def annots : Node → List String
  | .prim _ _ annots => annots
  | _ => []

def seq? : Node → Option (List Node)
  | .seq items => some items
  | _ => none

/-- What an expression is, in a few words. -/
def describe : Node → String
  | .int value => "int " ++ Decimal.ofInt value
  | .string text => "string " ++ Quoted.string text
  | .bytes data => "bytes 0x" ++ Hex.encode data
  | .seq items => "sequence of " ++ Decimal.ofNat items.length ++ " item(s)"
  | .prim name args _ => name ++ " with " ++ Decimal.ofNat args.length ++ " arg(s)"

@[simp] theorem literal?_node (l : Literal) : l.node.literal? = some l := by
  cases l <;> rfl

theorem literal?_eq_some_iff {n : Node} {l : Literal} : n.literal? = some l ↔ n = l.node := by
  constructor
  · cases n <;> simp only [literal?, Option.some.injEq, reduceCtorEq, false_imp_iff]
    all_goals rintro rfl; rfl
  · rintro rfl
    exact literal?_node l

/-! ### Size -/

mutual

/-- How deep an expression nests; a leaf nests one level. -/
def depth : Node → Nat
  | .seq items => 1 + depthAll items
  | .prim _ args _ => 1 + depthAll args
  | _ => 1

def depthAll : List Node → Nat
  | [] => 0
  | n :: ns => max (depth n) (depthAll ns)

end

mutual

/-- The number of expressions in an expression, itself included. -/
def count : Node → Nat
  | .seq items => 1 + countAll items
  | .prim _ args _ => 1 + countAll args
  | _ => 1

def countAll : List Node → Nat
  | [] => 0
  | n :: ns => count n + countAll ns

end

/-! ### Equality -/

mutual

def beq : Node → Node → Bool
  | .int a, .int b | .string a, .string b | .bytes a, .bytes b => a == b
  | .seq a, .seq b => beqAll a b
  | .prim a xs s, .prim b ys t => a == b && beqAll xs ys && s == t
  | _, _ => false

def beqAll : List Node → List Node → Bool
  | [], [] => true
  | a :: as, b :: bs => beq a b && beqAll as bs
  | _, _ => false

end

mutual

theorem beq_iff : ∀ a b : Node, beq a b = true ↔ a = b
  | .int a, b => by cases b <;> simp [beq]
  | .string a, b => by cases b <;> simp [beq]
  | .bytes a, b => by cases b <;> simp [beq]
  | .seq a, b => by cases b <;> simp [beq, beqAll_iff a]
  | .prim a xs s, b => by cases b <;> simp [beq, beqAll_iff xs, and_assoc]

theorem beqAll_iff : ∀ as bs : List Node, beqAll as bs = true ↔ as = bs
  | [], bs => by cases bs <;> simp [beqAll]
  | a :: as, bs => by cases bs <;> simp [beqAll, beq_iff a, beqAll_iff as]

end

instance : DecidableEq Node := fun a b =>
  decidable_of_iff (beq a b = true) (beq_iff a b)

end Node

/-- A literal is told by the expression that writes it. -/
theorem Literal.node_injective {l m : Literal} (h : l.node = m.node) : l = m := by
  have hl : m.node.literal? = some l := by rw [← h, Node.literal?_node]
  rw [Node.literal?_node] at hl
  exact (Option.some.inj hl).symm

end Micheline
