/-
Micheline/Proofs/Node/Json.lean

Expressions are read back from their documents (`Node.ofJson_toJson`).  A whole document is
read back too, but for one thing: a single sequence and the list of its items have the same
document, and it is the items that are read (`Node.ofDocument_document`).
-/
import Micheline.Node.Json
import Micheline.Proofs.Except
import Micheline.Proofs.Text.Decimal
import Micheline.Proofs.Text.Hex

namespace Micheline.Node

/-! ### Members of an application -/

/-- The document of an application: the members that are left out are empty. -/
theorem find?_listMember {name other : String} (hne : name ≠ other) (items rest : List Json) :
    Members.find? name (listMember other items ++ listMember name rest)
      = if rest = [] then none else some (.arr rest) := by
  have hother : Members.find? name (listMember name rest)
      = if rest = [] then none else some (.arr rest) := by
    cases rest <;> simp [listMember, Members.find?]
  cases items with
  | nil => exact hother
  | cons item items =>
    rw [← hother]
    simp [listMember, Members.find?, hne.symm]

/-- There are no other members. -/
theorem find?_members_eq_none {name owner : String} (args annots : List Json)
    (h : name ∉ ["prim", "args", "annots"]) :
    Members.find? name
      (("prim", .str owner) :: (listMember "args" args ++ listMember "annots" annots)) = none := by
  simp only [List.mem_cons, List.not_mem_nil, or_false, not_or] at h
  obtain ⟨hprim, hargs, hannots⟩ := h
  cases args <;> cases annots <;>
    simp [listMember, Members.find?, Ne.symm hprim, Ne.symm hargs, Ne.symm hannots]

/-- Annotations are found behind the name and the arguments, or left out if there are none. -/
theorem annotsOfJson_listMember (name : String) (args : List Json) (annots : List String) :
    annotsOfJson name (Members.find? "annots"
      (("prim", .str name) :: (listMember "args" args ++ listMember "annots" (annots.map .str))))
      = .ok annots := by
  have hfind : Members.find? "annots"
      (("prim", .str name) :: (listMember "args" args ++ listMember "annots" (annots.map .str)))
      = if annots.map Json.str = [] then none else some (.arr (annots.map .str)) :=
    find?_listMember (by decide) args _
  have htexts : (annots.map Json.str).mapM (textMember "annots") = .ok annots :=
    mapM_eq_ok_iff.2 (List.forall₂_map_left_iff.2 (List.forall₂_same.2 fun _ _ => rfl))
  rw [hfind]
  rcases annots with - | ⟨a, as⟩
  · rfl
  · exact htexts

/-- Arguments are found behind the name, or left out if there are none. -/
theorem argsOfMembers_listMember (name : String) (args : List Json) (annots : List String) :
    argsOfMembers name
      (("prim", .str name) :: (listMember "args" args ++ listMember "annots" (annots.map .str)))
      = ofJsonAll args := by
  rw [argsOfMembers, if_neg (by decide)]
  cases args with
  | cons arg args =>
    show argsOfMembers name (("args", .arr (arg :: args)) :: _) = _
    rw [argsOfMembers, if_pos rfl, argsOfJson]
  | nil =>
    -- without arguments there are annotations at most
    rw [ofJsonAll]
    cases annots with
    | nil => rfl
    | cons a as =>
      show argsOfMembers name [("annots", .arr ((a :: as).map .str))] = _
      rw [argsOfMembers, if_neg (by decide), argsOfMembers]

/-! ### Reading what was written -/

mutual

/-- **An expression is read back from its document.** -/
theorem ofJson_toJson : ∀ n : Node, ofJson n.toJson = .ok n
  | .int value => by
    show (match Decimal.toInt? (Decimal.ofInt value) with
      | some value => pure (Node.int value)
      | none => throw _) = Except.ok (Node.int value)
    rw [Decimal.toInt?_ofInt]
    rfl
  | .string text => rfl
  | .bytes data => by
    show (match Hex.decode (Hex.encode data) with
      | .ok data => pure (Node.bytes data)
      | .error cause => throw (Error.invalidBytes cause)) = Except.ok (Node.bytes data)
    rw [Hex.decode_encode]
    rfl
  | .seq items => by
    rw [toJson, ofJson, ofJsonAll_toJsonAll items]
    rfl
  | .prim name args annots => by
    rw [toJson, ofJson, find?_members_eq_none _ _ (by decide),
      find?_members_eq_none _ _ (by decide), find?_members_eq_none _ _ (by decide)]
    show (argsOfMembers name _ >>= fun args => annotsOfJson name _ >>= fun annots =>
      pure (Node.prim name args annots)) = _
    rw [argsOfMembers_listMember, annotsOfJson_listMember, ofJsonAll_toJsonAll args]
    rfl

theorem ofJsonAll_toJsonAll : ∀ ns : List Node, ofJsonAll (toJsonAll ns) = .ok ns
  | [] => rfl
  | n :: ns => by
    rw [toJsonAll, ofJsonAll, ofJson_toJson n, ofJsonAll_toJsonAll ns]
    rfl

end

/-- The expressions that are read from the document of some. -/
def opened : List Node → List Node
  | [.seq items] => items
  | ns => ns

/-- **Expressions are read back from their document**, a single sequence as its items. -/
theorem ofDocument_document (ns : List Node) : ofDocument (document ns) = .ok (opened ns) := by
  -- A sequence is an array as a list of nodes is: alone, it is taken for the list.
  have hobj (n : Node) (hn : ∀ items, n ≠ .seq items) : ofDocument n.toJson = .ok [n] := by
    have hread := ofJson_toJson n
    cases n with
    | seq items => exact absurd rfl (hn items)
    | _ =>
      rw [toJson] at hread ⊢
      rw [ofDocument, hread]
      rfl
  match ns with
  | [] => rfl
  | [.seq items] => exact ofJsonAll_toJsonAll items
  | [.int value] => exact hobj _ nofun
  | [.string text] => exact hobj _ nofun
  | [.bytes data] => exact hobj _ nofun
  | [.prim name args annots] => exact hobj _ nofun
  | a :: b :: rest =>
    rw [document, opened, ofDocument, ofJsonAll_toJsonAll] <;> nofun

end Micheline.Node
