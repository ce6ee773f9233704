/-
Micheline/Proofs/Node/Rearranged.lean

Rearranging the choices in an expression that writes a type.  A step (`Node.Rearranges`)
exchanges the sides of a choice, or groups the sides of a choice inside a choice in the other
way, anywhere in the expression.

What a run of steps can make of a choice is told by its ends: these pair up
(`rearranged_iff_ends`), each with one that a run can make of it.  So any order and any grouping
of the ends can be reached, and nothing else.  Of any other application a run keeps the name and
the place of each argument (`rearranged_prim_iff`).
-/
import Mathlib.Logic.Relation
import Micheline.Node.Basic
import Micheline.Proofs.Pairing

namespace Micheline.Node

/-! ### Annotations -/

mutual

/-- An expression without its annotations. -/
def bare : Node → Node
  | .seq items => .seq (bareAll items)
  | .prim name args _ => .prim name (bareAll args) []
  | n => n

/-- A list of expressions without their annotations. -/
def bareAll : List Node → List Node
  | [] => []
  | n :: ns => bare n :: bareAll ns

end

theorem bareAll_eq_map (ns : List Node) : bareAll ns = ns.map bare := by
  induction ns with
  | nil => rfl
  | cons n ns ih => rw [bareAll, ih, List.map_cons]

/-- Without annotations an application keeps its name and arguments. -/
theorem bare_prim (name : String) (args : List Node) (annots : List String) :
    (Node.prim name args annots).bare = .app name (args.map bare) := by
  rw [bare, bareAll_eq_map]
  rfl

/-! ### Steps and runs -/

/-- The expression that writes a choice without annotations. -/
def choice (left right : Node) : Node :=
  .app "or" [left, right]

/-- One rearrangement, somewhere in an expression. -/
inductive Rearranges : Node → Node → Prop
  /-- The sides of a choice are exchanged. -/
  | swap {left right : Node} : Rearranges (choice left right) (choice right left)
  /-- A choice on the left is grouped to the right. -/
  | regroup {a b c : Node} : Rearranges (choice (choice a b) c) (choice a (choice b c))
  /-- A choice on the right is grouped to the left. -/
  | ungroup {a b c : Node} : Rearranges (choice a (choice b c)) (choice (choice a b) c)
  /-- An argument is rearranged. -/
  | arg {name : String} {before after : List Node} {annots : List String} {n m : Node}
    (h : Rearranges n m) :
    Rearranges (.prim name (before ++ n :: after) annots) (.prim name (before ++ m :: after) annots)

/-- Any number of rearrangements. -/
abbrev Rearranged : Node → Node → Prop :=
  Relation.ReflTransGen Rearranges

theorem Rearranges.symm {n m : Node} (h : Rearranges n m) : Rearranges m n := by
  induction h with
  | swap => exact .swap
  | regroup => exact .ungroup
  | ungroup => exact .regroup
  | arg _ ih => exact .arg ih

/-- The left side of a choice is rearranged. -/
theorem Rearranges.left {a a' b : Node} (h : Rearranges a a') :
    Rearranges (choice a b) (choice a' b) :=
  @Rearranges.arg "or" [] [b] [] a a' h

theorem Rearranged.symm {n m : Node} (h : Rearranged n m) : Rearranged m n := by
  induction h with
  | refl => exact .refl
  | tail _ hstep ih => exact .head hstep.symm ih

theorem forall₂_rearranged_self (ns : List Node) : List.Forall₂ Rearranged ns ns :=
  List.forall₂_same.2 fun _ _ => .refl

theorem forall₂_rearranged_trans {ns ms ks : List Node} (h : List.Forall₂ Rearranged ns ms)
    (h' : List.Forall₂ Rearranged ms ks) : List.Forall₂ Rearranged ns ks := by
  induction h generalizing ks with
  | nil => exact h'
  | cons hn _ ih =>
    obtain ⟨k, ks, hm, hms, rfl⟩ := List.forall₂_cons_left_iff.1 h'
    exact .cons (hn.trans hm) (ih hms)

/-- The arguments of an application are rearranged, one after another. -/
theorem rearranged_args {name : String} {annots : List String} {args args' : List Node}
    (h : List.Forall₂ Rearranged args args') :
    Rearranged (.prim name args annots) (.prim name args' annots) := by
  suffices hall : ∀ before : List Node,
      Rearranged (.prim name (before ++ args) annots) (.prim name (before ++ args') annots) from
    hall []
  induction h with
  | nil => exact fun _ => .refl
  | @cons n m ns ms hn _ ih =>
    intro before
    have hfirst : Rearranged (.prim name (before ++ n :: ns) annots)
        (.prim name (before ++ m :: ns) annots) :=
      hn.lift (fun x => Node.prim name (before ++ x :: ns) annots) fun _ _ => .arg
    have hrest := ih (before ++ [m])
    simp only [List.append_assoc, List.singleton_append] at hrest
    exact hfirst.trans hrest

/-- Both sides of a choice may be rearranged. -/
theorem rearranged_choice {left right left' right' : Node} (hleft : Rearranged left left')
    (hright : Rearranged right right') : Rearranged (choice left right) (choice left' right') :=
  rearranged_args (.cons hleft (.cons hright .nil))

/-- A literal is not rearranged. -/
theorem eq_of_rearranged_node {l : Literal} {m : Node} (h : Rearranged l.node m) : m = l.node := by
  induction h with
  | refl => rfl
  | tail _ hstep ih =>
    subst ih
    cases l <;> cases hstep

/-! ### Ends -/

/-- The ends of nested choices, from left to right. -/
def ends : Node → List Node
  | .prim name [left, right] annots =>
    if name = "or" ∧ annots = [] then left.ends ++ right.ends
    else [.prim name [left, right] annots]
  | n => [n]

/-- The ends of a choice are those of its sides. -/
theorem ends_choice (left right : Node) : (choice left right).ends = left.ends ++ right.ends := by
  rw [choice, app, ends, if_pos ⟨rfl, rfl⟩]

/-- Whatever is no choice is its only end. -/
theorem ends_of_ne_choice {n : Node} (h : ∀ left right, n ≠ choice left right) : n.ends = [n] := by
  fun_cases ends n with
  | case1 name left right annots hor =>
    obtain ⟨rfl, rfl⟩ := hor
    exact absurd rfl (h left right)
  | case2 | case3 => rfl

theorem ends_ne_nil (n : Node) : n.ends ≠ [] := by
  fun_induction ends n with
  | case1 name left right annots hor ihleft _ => exact List.append_ne_nil_of_left_ne_nil ihleft _
  | case2 | case3 => exact List.cons_ne_nil _ _

/-- An application that is no choice stays none when an argument is rearranged. -/
theorem ne_choice_of_args {name : String} {args args' : List Node} {annots : List String}
    (hlength : args.length = args'.length)
    (h : ∀ left right, Node.prim name args annots ≠ choice left right) :
    ∀ left right, Node.prim name args' annots ≠ choice left right := by
  rintro left right heq
  obtain ⟨rfl, rfl, rfl⟩ := Node.prim.inj heq
  obtain ⟨a, b, rfl⟩ := List.length_eq_two.1 hlength
  exact h a b rfl

/-- **What a step keeps**: the ends pair up. -/
theorem Rearranges.pairsUp_ends {n m : Node} (h : Rearranges n m) :
    PairsUp Rearranged n.ends m.ends := by
  have hrefl : ∀ n : Node, Rearranged n n := fun _ => .refl
  induction h with
  | swap =>
    rw [ends_choice, ends_choice]
    exact .of_perm hrefl List.perm_append_comm
  | regroup | ungroup =>
    simp only [ends_choice, List.append_assoc]
    exact .of_perm hrefl (.refl _)
  | @arg name before after annots n m hstep ih =>
    by_cases hchoice : ∃ left right,
        Node.prim name (before ++ n :: after) annots = choice left right
    · obtain ⟨left, right, heq⟩ := hchoice
      obtain ⟨rfl, hargs, rfl⟩ := Node.prim.inj heq
      -- the argument is the left or the right side
      rcases before with - | ⟨a, before⟩
      · obtain ⟨rfl, rfl⟩ := List.cons.inj hargs
        show PairsUp Rearranged (choice n right).ends (choice m right).ends
        rw [ends_choice, ends_choice]
        exact ih.append (.of_perm hrefl (.refl _))
      · obtain ⟨rfl, hargs⟩ := List.cons.inj hargs
        obtain ⟨rfl, rfl, rfl⟩ : before = [] ∧ n = right ∧ after = [] := by
          cases before <;> simp_all
        show PairsUp Rearranged (choice a n).ends (choice a m).ends
        rw [ends_choice, ends_choice]
        exact (PairsUp.of_perm hrefl (.refl _)).append ih
    · have hne : ∀ left right, Node.prim name (before ++ n :: after) annots ≠ choice left right :=
        fun left right heq => hchoice ⟨left, right, heq⟩
      rw [ends_of_ne_choice hne, ends_of_ne_choice (ne_choice_of_args (by simp) hne)]
      exact PairsUp.singleton_iff.2 (.single (.arg hstep))

/-- **What a run keeps**: the ends pair up. -/
theorem Rearranged.pairsUp_ends {n m : Node} (h : Rearranged n m) :
    PairsUp Rearranged n.ends m.ends := by
  induction h with
  | refl => exact .of_perm (fun _ => .refl) (.refl _)
  | tail _ hstep ih =>
    have htrans (a b c : Node) (hab : Rearranged a b) (hbc : Rearranged b c) : Rearranged a c :=
      hab.trans hbc
    exact ih.comp htrans hstep.pairsUp_ends

/-! ### Grouping to the right -/

/-- Expressions as the ends of choices that are grouped to the right. -/
def chain : List Node → Node
  | [] => .app "or" []
  | [n] => n
  | n :: ns => choice n (chain ns)

theorem chain_cons (n : Node) {ns : List Node} (h : ns ≠ []) :
    chain (n :: ns) = choice n (chain ns) := by
  rw [chain]
  exact h

/-- The chain of two lists is the choice between their chains, regrouped. -/
theorem rearranged_chain_append {ns ms : List Node} (hns : ns ≠ []) (hms : ms ≠ []) :
    Rearranged (choice (chain ns) (chain ms)) (chain (ns ++ ms)) := by
  induction ns with
  | nil => exact absurd rfl hns
  | cons n ns ih =>
    rcases eq_or_ne ns [] with rfl | hne
    · rw [List.singleton_append, chain_cons n hms]
      exact .refl
    · have happend : ns ++ ms ≠ [] := List.append_ne_nil_of_left_ne_nil hne ms
      rw [List.cons_append, chain_cons n hne, chain_cons n happend]
      exact .head .regroup (rearranged_choice .refl (ih hne))

/-- Every choice can be grouped to the right. -/
theorem rearranged_chain_ends (n : Node) : Rearranged n (chain n.ends) := by
  fun_induction ends n with
  | case1 name left right annots hor ihleft ihright =>
    obtain ⟨rfl, rfl⟩ := hor
    exact (rearranged_choice ihleft ihright).trans
      (rearranged_chain_append (ends_ne_nil left) (ends_ne_nil right))
  | case2 | case3 => exact .refl

/-- Chains are rearranged end by end. -/
theorem rearranged_chain_of_forall₂ {ns ms : List Node} (h : List.Forall₂ Rearranged ns ms) :
    Rearranged (chain ns) (chain ms) := by
  induction h with
  | nil => exact .refl
  | @cons n m ns ms hn hns ih =>
    rcases eq_or_ne ns [] with rfl | hne
    · cases hns
      exact hn
    · have hms : ms ≠ [] := fun h => hne (List.forall₂_nil_right_iff.1 (h ▸ hns))
      rw [chain_cons n hne, chain_cons m hms]
      exact rearranged_choice hn ih

/-- The ends can be brought into any order. -/
theorem rearranged_chain_of_perm {ns ms : List Node} (h : ns.Perm ms) :
    Rearranged (chain ns) (chain ms) := by
  induction h with
  | nil => exact .refl
  | @cons n ns ms hperm ih =>
    rcases eq_or_ne ns [] with rfl | hne
    · obtain rfl := List.nil_perm.1 hperm
      exact .refl
    · have hms : ms ≠ [] := fun h => hne (List.perm_nil.1 (h ▸ hperm))
      rw [chain_cons n hne, chain_cons n hms]
      exact rearranged_choice .refl ih
  | swap n m ns =>
    rcases eq_or_ne ns [] with rfl | hne
    · exact .single .swap
    · have hne' (n : Node) : n :: ns ≠ [] := List.cons_ne_nil n ns
      rw [chain_cons m (hne' n), chain_cons n (hne' m), chain_cons n hne, chain_cons m hne]
      -- The first two are grouped, exchanged in their group, and ungrouped again.
      exact .head .ungroup (.head (.left .swap) (.single .regroup))
  | trans _ _ ih ih' => exact ih.trans ih'

/-! ### What runs reach -/

/-- **A run makes of a choice whatever has ends that pair up with its own**, each with one that
a run makes of it. -/
theorem rearranged_iff_ends {n m : Node} : Rearranged n m ↔ PairsUp Rearranged n.ends m.ends := by
  constructor
  · exact Rearranged.pairsUp_ends
  · rintro ⟨ms, hperm, hms⟩
    have hchain : Rearranged (chain n.ends) (chain m.ends) :=
      (rearranged_chain_of_forall₂ hms).trans (rearranged_chain_of_perm hperm)
    exact ((rearranged_chain_ends n).trans hchain).trans (rearranged_chain_ends m).symm

/-- **Of an application that is no choice a run keeps the name and the places of the
arguments.** -/
theorem rearranged_prim_iff {name : String} {args : List Node} {annots : List String} {m : Node}
    (h : ∀ left right, Node.prim name args annots ≠ choice left right) :
    Rearranged (.prim name args annots) m
      ↔ ∃ args', m = .prim name args' annots ∧ List.Forall₂ Rearranged args args' := by
  constructor
  · intro hrun
    -- Along the run, the node stays no choice, so every step is one in an argument.
    induction hrun with
    | refl => exact ⟨args, rfl, forall₂_rearranged_self args⟩
    | tail _ hstep ih =>
      obtain ⟨args', rfl, hargs⟩ := ih
      have hne := ne_choice_of_args hargs.length_eq h
      generalize hn : Node.prim name args' annots = n at hstep hne
      cases hstep with
      | swap => exact absurd rfl (hne _ _)
      | regroup => exact absurd rfl (hne _ _)
      | ungroup => exact absurd rfl (hne _ _)
      | @arg _ before after _ n m hstep =>
        obtain ⟨rfl, rfl, rfl⟩ := Node.prim.inj hn
        refine ⟨before ++ m :: after, rfl, ?_⟩
        have hone : List.Forall₂ Rearranged (before ++ n :: after) (before ++ m :: after) :=
          List.rel_append (forall₂_rearranged_self before)
            (.cons (.single hstep) (forall₂_rearranged_self after))
        exact forall₂_rearranged_trans hargs hone
  · rintro ⟨args', rfl, hargs⟩
    exact rearranged_args hargs

end Micheline.Node
