/-
Micheline/Proofs/Ty/Binary.lean

Types in their binary form.  What writes a type has at most two arguments, so its arguments have
no length in front of them, and only a text can be too long (`Ty.exists_encode_node_iff`).  Its
annotations are words, if an expression writes it, and so the type is what the bytes are read as
(`Ty.WritesType.decode_encode_node`).
-/
import Micheline.Proofs.Binary.Overflow
import Micheline.Proofs.Binary.RoundTrip
import Micheline.Proofs.Ty.Numbering

namespace Micheline

/-- Every text in an expression, the annotations of an application for one, is shorter than
`2 ^ 32` bytes, and so are all bytes. -/
inductive Node.TextsFit : Node → Prop
  | int {value : Int} : TextsFit (.int value)
  | string {text : String} (h : (Utf8.encode text).length < Binary.lengthBound) :
    TextsFit (.string text)
  | bytes {data : Bytes} (h : data.length < Binary.lengthBound) : TextsFit (.bytes data)
  | seq {items : List Node} (h : ∀ n ∈ items, TextsFit n) : TextsFit (.seq items)
  | prim {name : String} {args : List Node} {annots : List String}
    (hannots : (Binary.annotText annots).length < Binary.lengthBound)
    (hargs : ∀ n ∈ args, TextsFit n) : TextsFit (.prim name args annots)

namespace Node

theorem textsFit_prim_iff {name : String} {args : List Node} {annots : List String} :
    (Node.prim name args annots).TextsFit
      ↔ (Binary.annotText annots).length < Binary.lengthBound ∧ ∀ n ∈ args, n.TextsFit := by
  constructor
  · rintro ⟨⟩
    exact ⟨‹_›, ‹_›⟩
  · exact fun h => .prim h.1 h.2

end Node

namespace Binary

theorem exists_withLength_iff {body : Bytes} :
    (∃ b, withLength body = .ok b) ↔ body.length < lengthBound := by
  simp [withLength_eq_ok_iff]

theorem exists_annotsIfAny_iff {annots : List String} :
    (∃ b, annotsIfAny annots = .ok b) ↔ (annotText annots).length < lengthBound := by
  rcases annots with - | ⟨a, as⟩
  · simp [annotsIfAny, annotText, Utf8.encode, lengthBound]
  · exact exists_withLength_iff

/-- Nodes have bytes exactly if each has. -/
theorem exists_encodeAll_iff {ns : List Node} :
    (∃ b, encodeAll ns = .ok b) ↔ ∀ n ∈ ns, ∃ b, encode n = .ok b := by
  induction ns with
  | nil => simp [encodeAll]
  | cons n ns ih =>
    rw [List.forall_mem_cons, ← ih, encodeAll]
    simp only [bind_eq_ok_iff, pure_eq_ok_iff]
    constructor
    · rintro ⟨_, first, hfirst, rest, hrest, -⟩
      exact ⟨⟨first, hfirst⟩, rest, hrest⟩
    · rintro ⟨⟨first, hfirst⟩, rest, hrest⟩
      exact ⟨_, first, hfirst, rest, hrest, rfl⟩

/-- An application to at most two arguments has bytes if its annotations fit and its arguments
have bytes. -/
theorem exists_encode_prim_iff {name : String} {code : Nat} {args : List Node}
    {annots : List String} (hcode : Keyword.code? name = some code) (hargs : args.length ≤ 2) :
    (∃ b, encode (.prim name args annots) = .ok b)
      ↔ (annotText annots).length < lengthBound ∧ ∀ n ∈ args, ∃ b, encode n = .ok b := by
  rw [← exists_annotsIfAny_iff, ← exists_encodeAll_iff, encode, hcode]
  simp only [bind_eq_ok_iff, pure_eq_ok_iff, if_pos hargs]
  constructor
  · rintro ⟨_, body, hbody, after, hafter, -⟩
    exact ⟨⟨after, hafter⟩, body, hbody⟩
  · rintro ⟨⟨after, hafter⟩, body, hbody⟩
    exact ⟨_, body, hbody, after, hafter, rfl⟩

/-- A literal has bytes exactly if its text is not too long. -/
theorem exists_encode_literal_iff (l : Literal) :
    (∃ b, encode l.node = .ok b) ↔ l.node.TextsFit := by
  cases l with
  | int value => exact iff_of_true ⟨_, rfl⟩ .int
  | string text =>
    simp only [Literal.node, encode, exists_return_iff, exists_withLength_iff]
    exact ⟨.string, fun h => by cases h; assumption⟩
  | bytes data =>
    simp only [Literal.node, encode, exists_return_iff, exists_withLength_iff]
    exact ⟨.bytes, fun h => by cases h; assumption⟩

end Binary

namespace Ty

open Binary

theorem exists_code (p : Prim) : ∃ code, Keyword.code? p.name = some code := by
  have hall : ∀ p ∈ Prim.all, (Keyword.code? p.name).isSome = true := by decide +kernel
  exact Option.isSome_iff_exists.1 (hall p (Prim.mem_all p))

/-- No type has more than two arguments, so types are written with a short tag. -/
theorem length_args_le (ty : Ty) :
    (ty.operands.map Literal.node ++ ty.children.map node).length ≤ 2 := by
  cases ty <;> simp [operands, children]

/-- What writes a type is a literal or a part. -/
theorem mem_args {ty : Ty} {n : Node}
    (h : n ∈ ty.operands.map Literal.node ++ ty.children.map node) :
    (∃ l : Literal, n = l.node) ∨ ∃ t ∈ ty.children, n = t.node := by
  rcases List.mem_append.1 h with h | h
  · obtain ⟨l, -, rfl⟩ := List.mem_map.1 h
    exact .inl ⟨l, rfl⟩
  · obtain ⟨t, ht, rfl⟩ := List.mem_map.1 h
    exact .inr ⟨t, ht, rfl⟩

/-- All names in the expression of a type have codes. -/
theorem hasCodes_node (ty : Ty) : ty.node.HasCodes := by
  obtain ⟨code, hcode⟩ := exists_code ty.prim
  rw [node_eq]
  refine .prim hcode fun n hn => ?_
  rcases mem_args hn with ⟨l, rfl⟩ | ⟨t, ht, rfl⟩
  · cases l <;> constructor
  · have := size_lt_of_mem_children ht
    exact hasCodes_node t
termination_by ty.size

/-- **A type has bytes if its texts fit.** -/
theorem exists_encode_node_iff (ty : Ty) :
    (∃ b, encode ty.node = .ok b) ↔ ty.node.TextsFit := by
  obtain ⟨code, hcode⟩ := exists_code ty.prim
  rw [node_eq, exists_encode_prim_iff hcode (length_args_le ty), Node.textsFit_prim_iff]
  refine and_congr_right fun _ => forall₂_congr fun n hn => ?_
  rcases mem_args hn with ⟨l, rfl⟩ | ⟨t, ht, rfl⟩
  · exact exists_encode_literal_iff l
  · have := size_lt_of_mem_children ht
    exact exists_encode_node_iff t
termination_by ty.size

/-! ### Annotations -/

/-- Well-formed annotations are words. -/
theorem isSpaced_node_of_children {d s : Nat} {annots : List String} {ty : Ty}
    (hinfo : ty.info = ⟨s, d, Annot.valid annots⟩) (h : ∀ t ∈ ty.children, t.node.IsSpaced) :
    ty.node.IsSpaced := by
  rw [node_eq, Node.isSpaced_prim_iff, hinfo]
  refine ⟨fun a ha => Annot.isWord_of_isValid (List.mem_filter.1 ha).2, fun n hn => ?_⟩
  rcases mem_args hn with ⟨l, rfl⟩ | ⟨t, ht, rfl⟩
  · exact Node.isSpaced_literal l
  · exact h t ht

theorem WritesType.isSpaced_node {d s s' : Nat} {n : Node} {ty : Ty} (h : WritesType d n s ty s') :
    ty.node.IsSpaced := by
  induction h with
  | leaf hname hinfo hchildren _ =>
    exact isSpaced_node_of_children hinfo (by simp [hchildren])
  | one hname hinfo hchildren _ _ ih =>
    exact isSpaced_node_of_children hinfo (by simpa [hchildren] using ih)
  | two hname hinfo hchildren _ _ iha ihb =>
    exact isSpaced_node_of_children hinfo (by simpa [hchildren] using ⟨iha, ihb⟩)
  | comb hname hrest _ _ iha ihb =>
    exact isSpaced_node_of_children rfl (by simpa [children] using ⟨iha, ihb⟩)
  | ticket hname _ _ ihcontent _ =>
    exact isSpaced_node_of_children rfl (by simpa [children] using ihcontent)

/-- **A type is what its bytes are read as**, if an expression writes it that does not nest too
deeply. -/
theorem WritesType.decode_encode_node {d s s' : Nat} {n : Node} {ty : Ty}
    (h : WritesType d n s ty s') (hdepth : ty.node.depth ≤ 1000) :
    (ty.node.TextsFit → ∃ b, encode ty.node = .ok b ∧ decode b = .ok [ty.node]
        ∧ decodeOne b = .ok ty.node)
      ∧ (¬ ty.node.TextsFit → encode ty.node = .error .lengthOverflow) := by
  constructor
  · intro hfit
    obtain ⟨b, hb⟩ := (exists_encode_node_iff ty).2 hfit
    obtain ⟨hdecode, hunpack⟩ := decode_of_encode hb hdepth h.isSpaced_node
    exact ⟨b, hb, hdecode, (unpack_packMark b).symm.trans hunpack⟩
  · intro hfit
    cases henc : encode ty.node with
    | ok b => exact absurd ((exists_encode_node_iff ty).1 ⟨b, henc⟩) hfit
    | error e => rw [onlyOverflows_encode (hasCodes_node ty) e henc]

end Ty

end Micheline
