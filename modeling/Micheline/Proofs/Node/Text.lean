/-
Micheline/Proofs/Node/Text.lean

Expressions are read back from the text of their documents (`Node.parse_text`), as far as they
are from the documents: a single sequence is read as its items.  A text may nest less deeply
than a document.
-/
import Micheline.Proofs.Json.Text
import Micheline.Proofs.Node.Json

namespace Micheline.Node

open Json

/-- An object with one text. -/
theorem isPlain_text (name value : String) : IsPlain (.obj [(name, .str value)]) :=
  .obj (List.nodup_singleton _) (List.forall_mem_singleton.2 (.str value))

/-- The object of an application. -/
theorem isPlain_application (name : String) {args annots : List Json}
    (hargs : ∀ arg ∈ args, IsPlain arg) (hannots : ∀ annot ∈ annots, IsPlain annot) :
    IsPlain (.obj (("prim", .str name)
      :: (listMember "args" args ++ listMember "annots" annots))) := by
  have hmember {other : String} {items : List Json} (h : ∀ item ∈ items, IsPlain item) :
      ∀ m ∈ listMember other items, IsPlain m.2 := by
    cases items with
    | nil => exact nofun
    | cons item items => exact List.forall_mem_singleton.2 (.arr h)
  refine .obj ?_ (List.forall_mem_cons.2 ⟨.str name, List.forall_mem_append.2
    ⟨hmember hargs, hmember hannots⟩⟩)
  cases args <;> cases annots <;> simp [listMember]

mutual

/-- The document of an expression has no numbers. -/
theorem isPlain_toJson : ∀ n : Node, n.toJson.IsPlain
  | .int _ | .string _ | .bytes _ => isPlain_text _ _
  | .seq items => .arr (isPlain_toJsonAll items)
  | .prim name args annots => by
    refine isPlain_application name (isPlain_toJsonAll args) fun annot h => ?_
    obtain ⟨text, -, rfl⟩ := List.mem_map.1 h
    exact .str text

theorem isPlain_toJsonAll : ∀ ns : List Node, ∀ json ∈ toJsonAll ns, json.IsPlain
  | [] => nofun
  | n :: ns => List.forall_mem_cons.2 ⟨isPlain_toJson n, isPlain_toJsonAll ns⟩

end

theorem isPlain_document (ns : List Node) : (document ns).IsPlain := by
  rw [document.eq_def]
  split
  · exact isPlain_toJson _
  · exact .arr (isPlain_toJsonAll ns)

/-- **Expressions are read back from the text of their document**, a single sequence as its
items, if the document does not nest too deeply. -/
theorem parse_text (ns : List Node) {text tail : String}
    (htext : text = (document ns).compact ∨ text = (document ns).pretty)
    (htail : IsPassed tail.toList) :
    parse (text ++ tail)
      = if (document ns).nesting ≤ maxNesting then .ok (opened ns) else .error .malformed := by
  rw [parse, parse?_text (isPlain_document ns) htext htail]
  by_cases hle : (document ns).nesting ≤ maxNesting
  · rw [if_pos hle, if_pos hle]
    exact ofDocument_document ns
  · rw [if_neg hle, if_neg hle]

end Micheline.Node
