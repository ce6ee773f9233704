/-
Micheline/Proofs/Tree/Typing.lean

Trees as they are typed.  The types of a tree are numbered through, they are written in the
normal form of what they were read from, and from that the tree is read again, as it is: through
the expressions, through their document, and each type through its bytes (`Tree.types_of_ofNodes`).
-/
import Micheline.Proofs.Node.Json
import Micheline.Proofs.Ty.Binary
import Micheline.Proofs.Ty.Normal
import Micheline.Tree.Basic

namespace Micheline

namespace Ty

variable {ns : List Node} {s s' : Nat} {tys : List Ty}

theorem WritesTypes.map_node (h : WritesTypes ns s tys s') : tys.map node = ns.map Node.normal := by
  induction h with
  | nil => rfl
  | cons h _ ih => rw [List.map_cons, List.map_cons, h.node_eq, ih]

theorem WritesTypes.normal (h : WritesTypes ns s tys s') :
    WritesTypes (ns.map Node.normal) s tys s' := by
  induction h with
  | nil => exact .nil
  | cons h _ ih => exact .cons h.normal ih

end Ty

namespace Tree

variable {ns : List Node} {t : Tree}

theorem ofNodes_eq_ok_iff :
    ofNodes ns = .ok t ↔ ∃ tys, Ty.ofNodes ns = .ok tys ∧ t = ⟨tys, none⟩ := by
  rw [ofNodes, bind_eq_ok_iff]
  exact exists_congr fun tys => and_congr_right fun _ => pure_eq_ok_iff.trans eq_comm

/-- The document of types is read as their expressions, since none of these is a sequence. -/
theorem opened_typeNodes (t : Tree) : Node.opened t.typeNodes = t.typeNodes := by
  refine Node.opened.eq_2 _ fun items hitems => ?_
  have hmem : Node.seq items ∈ t.typeNodes := hitems ▸ List.mem_singleton_self _
  obtain ⟨root, -, hroot⟩ := List.mem_map.1 hmem
  rw [Ty.node_eq] at hroot
  cases hroot

/-- The document of types is read as the types' expressions are. -/
theorem ofJson_typeJson (t : Tree) : ofJson t.typeJson = ofNodes t.typeNodes := by
  rw [ofJson, typeJson, Node.ofDocument_document, opened_typeNodes]
  rfl

/-- **The types of a tree.**  They have the numbers from zero on, in the order in which they are
written, the content of a ticket before the pair that its values are written as, and each
stands as deep as its depth says.  They are written in the normal form of what they were read
from, and read again from the expressions and from the document, the tree is the same.  A type
that nests at most a thousand levels has bytes, of which it alone is read back, unless one of
its texts is too long. -/
theorem types_of_ofNodes (h : ofNodes ns = .ok t) :
    (t.roots.flatMap (Ty.preorder 0)).map (fun x => x.2.info.id)
        = List.range (t.roots.flatMap (Ty.preorder 0)).length
      ∧ (∀ x ∈ t.roots.flatMap (Ty.preorder 0), x.2.info.depth = x.1)
      ∧ t.typeNodes = ns.map Node.normal
      ∧ ofNodes t.typeNodes = .ok t
      ∧ ofJson t.typeJson = .ok t
      ∧ ∀ x ∈ t.roots.flatMap (Ty.preorder 0), x.2.node.depth ≤ 1000 →
        (x.2.node.TextsFit → ∃ b, Binary.encode x.2.node = .ok b
          ∧ Binary.decode b = .ok [x.2.node] ∧ Binary.decodeOne b = .ok x.2.node)
        ∧ (¬ x.2.node.TextsFit → Binary.encode x.2.node = .error .lengthOverflow) := by
  obtain ⟨tys, htys, rfl⟩ := ofNodes_eq_ok_iff.1 h
  obtain ⟨count, hwrites⟩ := Ty.ofNodes_eq_ok_iff.1 htys
  obtain ⟨hids, hdepths⟩ := Ty.isNumbered_of_ofNodes htys
  have hnodes : typeNodes ⟨tys, none⟩ = ns.map Node.normal := hwrites.map_node
  have hagain : ofNodes (typeNodes ⟨tys, none⟩) = .ok ⟨tys, none⟩ := by
    rw [hnodes]
    exact ofNodes_eq_ok_iff.2 ⟨tys, Ty.ofNodes_eq_ok_iff.2 ⟨count, hwrites.normal⟩, rfl⟩
  refine ⟨hids, hdepths, hnodes, hagain, (ofJson_typeJson _).trans hagain, fun x hx hdepth => ?_⟩
  obtain ⟨m, k, k', hread⟩ := hwrites.of_mem_preorder x hx
  exact hread.decode_encode_node hdepth

/-- A pair of three with a ticket, in capitals and with an annotation that is dropped. -/
theorem types_of_triple :
    let ns : List Node := [.app "PAIR" [.prim "nat" [] ["%a", "b"],
      .app "ticket" [.app "unit" []], .app "string" []]]
    ∃ t, ofNodes ns = .ok t
      ∧ t.typeNodes = [.app "pair" [.prim "nat" [] ["%a"],
        .app "pair" [.app "ticket" [.app "unit" []], .app "string" []]]]
      ∧ ofNodes t.typeNodes = .ok t := by
  intro ns
  have hread : (ofNodes ns).isOk = true := by decide +kernel
  cases h : ofNodes ns with
  | error e =>
    rw [h] at hread
    cases hread
  | ok t =>
    obtain ⟨-, -, hnodes, hagain, -⟩ := types_of_ofNodes h
    exact ⟨t, rfl, hnodes.trans (by decide +kernel), hagain⟩

end Tree

end Micheline
