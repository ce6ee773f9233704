/-
Micheline/Proofs/Ty/Written.lean

How types are written, in one equation for all of them: as the name of a primitive with the
literals of the type and the types it is written with (`Ty.node_eq`).  The primitive tells what
form the type has (`Ty.exists_of_prim`), and its name tells the primitive (`Prim.name_inj`).
-/
import Micheline.Proofs.Node.Rearranged
import Micheline.Ty.Layout

namespace Micheline

theorem Prim.name_inj {p q : Prim} : p.name = q.name ↔ p = q := by
  refine ⟨fun h => ?_, congrArg Prim.name⟩
  have hp := Prim.ofName?_name p
  rw [h, Prim.ofName?_name] at hp
  exact (Option.some.inj hp).symm

namespace Ty

/-- The literals that a type is written with. -/
def operands : Ty → List Literal
  | .saplingState _ memo => [.int memo]
  | .saplingTransaction _ _ memo => [.int memo]
  | .constant _ hash => [.string hash]
  | _ => []

/-- **A type is written with its literals and its children.** -/
theorem node_eq (ty : Ty) :
    ty.node = .prim ty.prim.name (ty.operands.map Literal.node ++ ty.children.map node)
      ty.info.annots := by
  cases ty <;> simp [node, operands, children, info, Literal.node]

/-- The primitive of a type tells its form. -/
theorem exists_of_prim {ty : Ty} {p : Prim} (h : ty.prim = p) :
    match p with
    | .unit => ∃ i, ty = .unit i
    | .never => ∃ i, ty = .never i
    | .operation => ∃ i, ty = .operation i
    | .bool => ∃ i, ty = .bool i
    | .scalar kind => ∃ i, ty = .scalar i kind
    | .contract => ∃ i param, ty = .contract i param
    | .pair => ∃ i left right, ty = .pair i left right
    | .or => ∃ i left right, ty = .or i left right
    | .option => ∃ i inner, ty = .option i inner
    | .list => ∃ i elem, ty = .list i elem
    | .set => ∃ i elem, ty = .set i elem
    | .map => ∃ i key value, ty = .map i key value
    | .bigMap => ∃ i key value, ty = .bigMap i key value
    | .lambda => ∃ i param result, ty = .lambda i param result
    | .ticket => ∃ i content paired, ty = .ticket i content paired
    | .saplingState => ∃ i memo, ty = .saplingState i memo
    | .saplingTransaction => ∃ i memo, ty = .saplingTransaction i false memo
    | .saplingTransactionDeprecated => ∃ i memo, ty = .saplingTransaction i true memo
    | .constant => ∃ i hash, ty = .constant i hash := by
  subst h
  cases ty
  case saplingTransaction i deprecated memo => cases deprecated <;> exact ⟨i, memo, rfl⟩
  all_goals simp [prim]

/-- A ticket is written with one type. -/
theorem prim_ne_ticket {ty : Ty} (h : ty.children.length ≠ 1) : ty.prim ≠ .ticket := by
  intro hticket
  obtain ⟨i, content, paired, rfl⟩ := exists_of_prim hticket
  exact h rfl

/-- How many literals a type is written with depends on the primitive. -/
theorem length_operands_congr {a b : Ty} (h : a.prim = b.prim) :
    a.operands.length = b.operands.length := by
  have hlength (ty : Ty) : ty.operands.length
      = if ty.prim ∈ [.saplingState, .saplingTransaction, .saplingTransactionDeprecated, .constant]
        then 1 else 0 := by
    cases ty
    case saplingTransaction i deprecated memo => cases deprecated <;> rfl
    all_goals simp [operands, prim]
  rw [hlength, hlength, h]

/-- Children are smaller than their type. -/
theorem size_lt_of_mem_children {ty t : Ty} (h : t ∈ ty.children) : t.size < ty.size := by
  cases ty <;> simp only [children, List.mem_cons, List.not_mem_nil, or_false] at h
  case contract | option | list | set | ticket =>
    subst h
    simp only [size]
    omega
  case pair | or | map | bigMap | lambda =>
    simp only [size]
    rcases h with rfl | rfl <;> omega

/-! ### Without annotations -/

/-- The expression of a type without annotations is that of its primitive, its literals and its
children. -/
theorem bare_node (ty : Ty) : ty.node.bare = .app ty.prim.name
    (ty.operands.map Literal.node ++ ty.children.map fun t => t.node.bare) := by
  have hliteral (l : Literal) : l.node.bare = l.node := by
    cases l <;> rfl
  rw [node_eq, Node.bare_prim]
  simp [Function.comp_def, hliteral]

theorem bare_node_or {i : Info} {left right : Ty} :
    (or i left right).node.bare = .choice left.node.bare right.node.bare := by
  rw [bare_node]
  rfl

/-- Only choices are written as choices. -/
theorem bare_node_ne_choice {ty : Ty} (h : ty.prim ≠ .or) (left right : Node) :
    ty.node.bare ≠ .choice left right := by
  rw [bare_node]
  intro heq
  exact h (Prim.name_inj.1 (Node.prim.inj heq).1)

/-- The ends of a choice are written as the ends of what writes it. -/
theorem ends_bare_node (ty : Ty) :
    ty.node.bare.ends = ty.branches.map fun t => t.node.bare := by
  fun_induction branches ty with
  | case1 i left right ihleft ihright =>
    rw [bare_node_or, Node.ends_choice, ihleft, ihright, List.map_append]
  | case2 ty hor =>
    have hne : ty.prim ≠ .or := by
      intro h
      obtain ⟨i, left, right, rfl⟩ := exists_of_prim h
      exact hor i left right rfl
    exact Node.ends_of_ne_choice (bare_node_ne_choice hne)

end Ty

end Micheline
