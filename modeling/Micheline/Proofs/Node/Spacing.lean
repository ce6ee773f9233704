/-
Micheline/Proofs/Node/Spacing.lean

Expressions whose annotations are single words.  The binary form keeps the words of the
annotations of an application and forgets how they were grouped: `respaced` is what is left
of an expression then.  It is the same expression where every annotation was a word
(`respaced_eq_self`), and it nests as deep (`depth_respaced`).
-/
import Micheline.Proofs.Text.Words

namespace Micheline.Node

mutual

/-- The expression with the words of its annotations for annotations. -/
def respaced : Node → Node
  | .seq items => .seq (respacedAll items)
  | .prim name args annots => .prim name (respacedAll args) (annots.flatMap Annot.split)
  | n => n

/-- The expressions with the words of their annotations for annotations. -/
def respacedAll : List Node → List Node
  | [] => []
  | n :: ns => respaced n :: respacedAll ns

end

mutual

/-- The annotations anywhere in an expression. -/
def allAnnots : Node → List String
  | .seq items => allAnnotsOf items
  | .prim _ args annots => annots ++ allAnnotsOf args
  | _ => []

/-- The annotations anywhere in a list of expressions. -/
def allAnnotsOf : List Node → List String
  | [] => []
  | n :: ns => allAnnots n ++ allAnnotsOf ns

end

/-- Every annotation in the expression is a word. -/
def IsSpaced (n : Node) : Prop :=
  ∀ a ∈ n.allAnnots, Annot.IsWord a

/-- The annotations of nodes are those of each. -/
theorem mem_allAnnotsOf {a : String} {ns : List Node} :
    a ∈ allAnnotsOf ns ↔ ∃ n ∈ ns, a ∈ n.allAnnots := by
  induction ns with
  | nil => simp [allAnnotsOf]
  | cons n ns ih => simp [allAnnotsOf, ih]

theorem isSpaced_seq_iff {items : List Node} :
    (seq items).IsSpaced ↔ ∀ n ∈ items, n.IsSpaced := by
  constructor
  · intro h n hn a ha
    exact h a (mem_allAnnotsOf.2 ⟨n, hn, ha⟩)
  · intro h a ha
    obtain ⟨n, hn, ha⟩ := mem_allAnnotsOf.1 ha
    exact h n hn a ha

theorem isSpaced_prim_iff {name : String} {args : List Node} {annots : List String} :
    (prim name args annots).IsSpaced
      ↔ (∀ a ∈ annots, Annot.IsWord a) ∧ ∀ n ∈ args, n.IsSpaced := by
  rw [← isSpaced_seq_iff]
  constructor
  · intro h
    exact ⟨fun a ha => h a (List.mem_append_left _ ha),
      fun a ha => h a (List.mem_append_right _ ha)⟩
  · rintro ⟨hannots, hargs⟩ a ha
    exact (List.mem_append.1 ha).elim (hannots a) (hargs a)

theorem isSpaced_app_iff {name : String} {args : List Node} :
    (app name args).IsSpaced ↔ ∀ n ∈ args, n.IsSpaced := by
  rw [app, isSpaced_prim_iff]
  simp

theorem isSpaced_literal (l : Literal) : l.node.IsSpaced := by
  cases l <;> exact nofun

theorem length_respacedAll (ns : List Node) : (respacedAll ns).length = ns.length := by
  induction ns with
  | nil => rfl
  | cons n ns ih => simp [respacedAll, ih]

mutual

/-- Where every annotation is one word nothing is set apart. -/
theorem respaced_eq_self : ∀ {n : Node}, n.IsSpaced → n.respaced = n
  | .int _, _ | .string _, _ | .bytes _, _ => rfl
  | .seq items, h => by rw [respaced, respacedAll_eq_self (isSpaced_seq_iff.1 h)]
  | .prim name args annots, h => by
    obtain ⟨hannots, hargs⟩ := isSpaced_prim_iff.1 h
    rw [respaced, respacedAll_eq_self hargs, Annot.flatMap_split_of_isWord hannots]

theorem respacedAll_eq_self :
    ∀ {ns : List Node}, (∀ n ∈ ns, n.IsSpaced) → respacedAll ns = ns
  | [], _ => rfl
  | n :: ns, h => by
    obtain ⟨hn, hns⟩ := List.forall_mem_cons.1 h
    rw [respacedAll, respaced_eq_self hn, respacedAll_eq_self hns]

end

mutual

/-- Setting annotations apart leaves the depth as it is. -/
theorem depth_respaced : ∀ n : Node, n.respaced.depth = n.depth
  | .int _ | .string _ | .bytes _ => rfl
  | .seq items => by rw [respaced, depth, depth, depthAll_respacedAll items]
  | .prim _ args _ => by rw [respaced, depth, depth, depthAll_respacedAll args]

theorem depthAll_respacedAll : ∀ ns : List Node, depthAll (respacedAll ns) = depthAll ns
  | [] => rfl
  | n :: ns => by
    rw [respacedAll, depthAll, depthAll, depth_respaced n, depthAll_respacedAll ns]

end

theorem depth_pos (n : Node) : 0 < n.depth := by
  cases n <;> simp only [depth] <;> omega

theorem count_pos (n : Node) : 0 < n.count := by
  cases n <;> simp only [count] <;> omega

end Micheline.Node
