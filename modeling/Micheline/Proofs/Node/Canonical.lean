/-
Micheline/Proofs/Node/Canonical.lean

Canonical documents: those that expressions are written as.  Many documents hold the same
expression, since a number may have a plus or zeros in front and underscores inside, bytes may
have capitals, and members may be left out, be null, be repeated or stand in another order.
Exactly one of them is canonical (`Node.ofJson_written`): the one that the expression read is
written as, so that reading and writing once more changes nothing.

Whether a document is canonical is told by its characters and members alone
(`Node.IsCanonical`), without reading it.
-/
import Micheline.Proofs.Node.Json

namespace Micheline.Node

/-- A canonical document. -/
inductive IsCanonical : Json → Prop
  | int {text : String} (h : Decimal.isCanonical text = true) :
    IsCanonical (.obj [("int", .str text)])
  | string (text : String) : IsCanonical (.obj [("string", .str text)])
  | bytes {text : String} (h : Hex.isCanonical text = true) :
    IsCanonical (.obj [("bytes", .str text)])
  | seq {items : List Json} (h : ∀ item ∈ items, IsCanonical item) : IsCanonical (.arr items)
  | prim (name : String) {args : List Json} (annots : List String)
    (h : ∀ arg ∈ args, IsCanonical arg) :
    IsCanonical (.obj (("prim", .str name)
      :: (listMember "args" args ++ listMember "annots" (annots.map .str))))

/-! ### What is written is canonical -/

mutual

/-- The documents of nodes are in normal form. -/
theorem isCanonical_toJson : ∀ n : Node, IsCanonical n.toJson
  | .int value => .int (Decimal.isCanonical_iff.2 ⟨value, rfl⟩)
  | .string text => .string text
  | .bytes data => .bytes (Hex.isCanonical_iff.2 ⟨data, rfl⟩)
  | .seq items => .seq (isCanonical_toJsonAll items)
  | .prim name args annots => .prim name annots (isCanonical_toJsonAll args)

theorem isCanonical_toJsonAll : ∀ ns : List Node, ∀ json ∈ toJsonAll ns, IsCanonical json
  | [] => nofun
  | n :: ns => List.forall_mem_cons.2 ⟨isCanonical_toJson n, isCanonical_toJsonAll ns⟩

end

/-! ### What is canonical is written -/

theorem exists_toJsonAll {items : List Json} (h : ∀ item ∈ items, ∃ n : Node, n.toJson = item) :
    ∃ ns, toJsonAll ns = items := by
  induction items with
  | nil => exact ⟨[], rfl⟩
  | cons item items ih =>
    obtain ⟨⟨n, rfl⟩, hitems⟩ := List.forall_mem_cons.1 h
    obtain ⟨ns, rfl⟩ := ih hitems
    exact ⟨n :: ns, rfl⟩

/-- A document in normal form is that of a node. -/
theorem IsCanonical.exists_toJson {json : Json} (h : IsCanonical json) :
    ∃ n : Node, n.toJson = json := by
  induction h with
  | int htext =>
    obtain ⟨value, rfl⟩ := Decimal.isCanonical_iff.1 htext
    exact ⟨.int value, rfl⟩
  | string text => exact ⟨.string text, rfl⟩
  | bytes htext =>
    obtain ⟨data, rfl⟩ := Hex.isCanonical_iff.1 htext
    exact ⟨.bytes data, rfl⟩
  | seq _ ih =>
    obtain ⟨ns, rfl⟩ := exists_toJsonAll ih
    exact ⟨.seq ns, rfl⟩
  | prim name annots _ ih =>
    obtain ⟨ns, rfl⟩ := exists_toJsonAll ih
    exact ⟨.prim name ns annots, rfl⟩

/-- The canonical documents are those that expressions are written as. -/
theorem isCanonical_iff {json : Json} : IsCanonical json ↔ ∃ n : Node, n.toJson = json :=
  ⟨IsCanonical.exists_toJson, by rintro ⟨n, rfl⟩; exact isCanonical_toJson n⟩

/-- An expression has one canonical document. -/
theorem isCanonical_and_ofJson_iff {json : Json} {n : Node} :
    IsCanonical json ∧ ofJson json = .ok n ↔ json = n.toJson := by
  constructor
  · rintro ⟨hcanonical, hread⟩
    obtain ⟨m, rfl⟩ := isCanonical_iff.1 hcanonical
    rw [ofJson_toJson] at hread
    rw [Except.ok.inj hread]
  · rintro rfl
    exact ⟨isCanonical_toJson n, ofJson_toJson n⟩

/-- **Reading undoes writing, and reading and writing is a normal form.**  Every expression is
read back from the document it is written as.  A document that holds an expression need not be
that document; but what is written after reading it holds the same expression and is written as
itself, and it is the only canonical document that does. -/
theorem ofJson_written :
    (∀ n : Node, ofJson n.toJson = .ok n)
    ∧ ∀ (json : Json) (n : Node), ofJson json = .ok n →
      ofJson n.toJson = .ok n ∧ (ofJson n.toJson).map toJson = .ok n.toJson
      ∧ ∀ other : Json, IsCanonical other ∧ ofJson other = .ok n ↔ other = n.toJson := by
  refine ⟨ofJson_toJson, fun json n _ => ⟨ofJson_toJson n, ?_, fun _ => isCanonical_and_ofJson_iff⟩⟩
  rw [ofJson_toJson]
  rfl

/-- A pair that is read from a document none of whose members is canonical. -/
theorem ofJson_written_pair :
    ∃ (json : Json) (n : Node),
      json = .obj [("args", .arr [.obj [("int", .str "+0_07")], .obj [("bytes", .str "0A")]]),
        ("annots", .null), ("prim", .str "Pair")]
      ∧ n = .app "Pair" [.int 7, .bytes [10]] ∧ ofJson json = .ok n ∧ json ≠ n.toJson
      ∧ ofJson n.toJson = .ok n ∧ (ofJson n.toJson).map toJson = .ok n.toJson
      ∧ ∀ other : Json, IsCanonical other ∧ ofJson other = .ok n ↔ other = n.toJson := by
  have hread : ofJson (.obj [("args", .arr [.obj [("int", .str "+0_07")],
      .obj [("bytes", .str "0A")]]), ("annots", .null), ("prim", .str "Pair")])
      = .ok (.app "Pair" [.int 7, .bytes [10]]) := by
    rfl
  refine ⟨_, _, rfl, rfl, hread, ?_, ofJson_written.2 _ _ hread⟩
  intro hsame
  rw [app, toJson, Json.obj.injEq] at hsame
  exact absurd (congrArg Prod.fst (List.cons.inj hsame).1) (by decide)

end Micheline.Node
