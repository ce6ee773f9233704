/-
Micheline/Proofs/Ty/Normal.lean

The normal form of an expression that writes a type (`Node.normal`): names in lower case, well
formed annotations only, pairs of two only.

The normal form of an expression is the expression that the type is written back as
(`Ty.WritesType.node_eq`), and it writes the same type with the same numbers
(`Ty.WritesType.normal`).  The expressions that the reader makes up have the normal form that
belongs to them, so they need no care.
-/
import Micheline.Proofs.Ty.Reading

namespace Micheline

namespace Node

/-- Arguments of a pair as two: all but the first are a pair of their own. -/
def nested : List Node → List Node
  | n :: m :: k :: rest => [n, .app "pair" (nested (m :: k :: rest))]
  | ns => ns

mutual

/-- The normal form of an expression that writes a type. -/
def normal : Node → Node
  | .prim name args annots =>
    .prim (Prim.lower name)
      (if Prim.lower name = "pair" then nested (normalAll args) else normalAll args)
      (Annot.valid annots)
  | n => n

/-- The normal forms of the expressions in a list. -/
def normalAll : List Node → List Node
  | [] => []
  | n :: ns => normal n :: normalAll ns

end

theorem normalAll_eq_map (ns : List Node) : normalAll ns = ns.map normal := by
  induction ns with
  | nil => rfl
  | cons n ns ih => rw [normalAll, ih, List.map_cons]

/-- Up to two arguments stay as many. -/
theorem normal_prim {name : String} {args : List Node} {annots : List String}
    (h : args.length ≤ 2) : (Node.prim name args annots).normal
      = .prim (Prim.lower name) (args.map normal) (Annot.valid annots) := by
  have hnested : nested (args.map normal) = args.map normal := by
    match args, h with
    | [], _ | [_], _ | [_, _], _ => rfl
  rw [normal, normalAll_eq_map, hnested, ite_self]

/-- More members of a pair are a pair with the first one. -/
theorem normal_comb {name : String} {n : Node} {rest : List Node} {annots : List String}
    (hname : Prim.lower name = "pair") (hrest : 2 ≤ rest.length) :
    (Node.prim name (n :: rest) annots).normal
      = .prim "pair" [n.normal, (Node.app "pair" rest).normal] (Annot.valid annots) := by
  have hpair : Prim.lower "pair" = "pair" := by decide +kernel
  match rest, hrest with
  | m :: k :: rest, _ =>
    simp only [normal, app, hname, hpair, if_true, normalAll, nested]
    rfl

end Node

namespace Ty

variable {d s s' : Nat} {name : String} {args : List Node} {annots : List String} {n : Node}
  {ty : Ty}

theorem valid_valid (annots : List String) :
    Annot.valid (Annot.valid annots) = Annot.valid annots := by
  simp [Annot.valid]

theorem normal_literal (l : Literal) : l.node.normal = l.node := by
  cases l <;> rfl

theorem length_operands_le (ty : Ty) : ty.operands.length ≤ 1 := by
  cases ty <;> simp [operands]

theorem operands_eq_nil {ty : Ty} (h : ty.children ≠ []) : ty.operands = [] := by
  cases ty
  case saplingState | saplingTransaction | constant => exact absurd rfl h
  all_goals rfl

/-- The pair of a ticket is normalised in its content only. -/
theorem normal_ticketPair (n : Node) : (ticketPair n).normal = ticketPair n.normal := by
  have hticketer : (Node.prim "address" [] ["%ticketer"]).normal
      = .prim "address" [] ["%ticketer"] := by decide +kernel
  have hamount : (Node.prim "nat" [] ["%amount"]).normal = .prim "nat" [] ["%amount"] := by
    decide +kernel
  have hpair (a b : Node) : (Node.app "pair" [a, b]).normal = .app "pair" [a.normal, b.normal] := by
    rw [Node.app, Node.normal_prim (by simp)]
    exact congrArg (Node.prim · _ _) (Prim.lower_name .pair)
  rw [ticketPair, hpair, hpair, hticketer, hamount, ticketPair]

/-- What a type with up to two arguments is written as, in normal form. -/
theorem normal_of_info (hname : Prim.ofAnyCase? name = some ty.prim)
    (hinfo : ty.info = ⟨s, d, Annot.valid annots⟩) (hargs : args.length ≤ 2) :
    (Node.prim name args annots).normal
      = .prim ty.prim.name (args.map Node.normal) ty.info.annots := by
  rw [Node.normal_prim hargs, Prim.lower_eq_of_ofAnyCase? hname, hinfo]

/-- What a type that has no parts is written as, in normal form. -/
theorem normal_leaf (hname : Prim.ofAnyCase? name = some ty.prim)
    (hinfo : ty.info = ⟨s, d, Annot.valid annots⟩) :
    (Node.prim name (ty.operands.map Literal.node) annots).normal
      = .prim ty.prim.name (ty.operands.map Literal.node) ty.info.annots := by
  have hlength : (ty.operands.map Literal.node).length ≤ 2 := by
    have := length_operands_le ty
    rw [List.length_map]
    omega
  rw [normal_of_info hname hinfo hlength]
  simp [Function.comp_def, normal_literal]

/-- **A type is written back in normal form.** -/
theorem WritesType.node_eq (h : WritesType d n s ty s') : ty.node = n.normal := by
  induction h with
  | leaf hname hinfo hchildren hargs =>
    rw [hargs, normal_leaf hname hinfo, Ty.node_eq, hchildren, List.map_nil, List.append_nil]
  | one hname hinfo hchildren _ _ ih =>
    rw [normal_of_info hname hinfo (by simp), Ty.node_eq, operands_eq_nil (by simp [hchildren]),
      hchildren, List.map_singleton, List.map_singleton, ih]
    rfl
  | two hname hinfo hchildren _ _ iha ihb =>
    rw [normal_of_info hname hinfo (by simp), Ty.node_eq, operands_eq_nil (by simp [hchildren]),
      hchildren]
    simp [iha, ihb]
  | comb hname hrest _ _ iha ihb =>
    rw [Node.normal_comb (Prim.lower_eq_of_ofAnyCase? hname) hrest, ← iha, ← ihb]
    rfl
  | ticket hname _ _ ihcontent _ =>
    rw [Node.normal_prim (by simp), Prim.lower_eq_of_ofAnyCase? hname, List.map_singleton,
      ← ihcontent]
    rfl

/-- **The normal form writes the same type**, with the same numbers. -/
theorem WritesType.normal (h : WritesType d n s ty s') : WritesType d n.normal s ty s' := by
  have hvalid {d s : Nat} {annots : List String} {ty : Ty}
      (hinfo : ty.info = ⟨s, d, Annot.valid annots⟩) :
      ty.info = ⟨s, d, Annot.valid ty.info.annots⟩ := by
    simp [hinfo, valid_valid]
  induction h with
  | leaf hname hinfo hchildren hargs =>
    rw [hargs, normal_leaf hname hinfo]
    exact .leaf (Prim.ofAnyCase?_name _) (hvalid hinfo) hchildren rfl
  | one hname hinfo hchildren hticket _ ih =>
    rw [normal_of_info hname hinfo (by simp)]
    exact .one (Prim.ofAnyCase?_name _) (hvalid hinfo) hchildren hticket ih
  | two hname hinfo hchildren _ _ iha ihb =>
    rw [normal_of_info hname hinfo (by simp)]
    exact .two (Prim.ofAnyCase?_name _) (hvalid hinfo) hchildren iha ihb
  | comb hname hrest _ _ iha ihb =>
    rw [Node.normal_comb (Prim.lower_eq_of_ofAnyCase? hname) hrest]
    exact .two (Prim.ofAnyCase?_name .pair) (by rw [valid_valid]; rfl) rfl iha ihb
  | @ticket d s s₁ s' name annots n content paired hname _ _ ihcontent ihpaired =>
    -- The pair of a ticket is made of its content, so its normal form is that of the content's.
    rw [normal_ticketPair] at ihpaired
    have hagain : WritesType d (.prim Prim.ticket.name [n.normal] (Annot.valid annots)) s
        (.ticket ⟨s, d, Annot.valid (Annot.valid annots)⟩ content paired) s' :=
      .ticket (Prim.ofAnyCase?_name .ticket) ihcontent ihpaired
    rw [Node.normal_prim (by simp), Prim.lower_eq_of_ofAnyCase? hname]
    rwa [valid_valid] at hagain

end Ty

end Micheline
