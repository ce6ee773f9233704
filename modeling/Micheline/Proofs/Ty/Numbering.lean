/-
Micheline/Proofs/Ty/Numbering.lean

Which numbers the types of a tree take.  Read in the order in which they are written
(`Ty.preorder`), the content of a ticket before its second type, they have the numbers from zero
on, and each stands as deep as its depth says (`Ty.isNumbered_of_ofNodes`).
-/
import Micheline.Proofs.Ty.Reading

namespace Micheline.Ty

/-- The types in a type with their levels, each before its parts. -/
def preorder (level : Nat) (ty : Ty) : List (Nat × Ty) :=
  (level, ty) :: match ty with
    | .contract _ param => param.preorder (level + 1)
    | .pair _ left right => left.preorder (level + 1) ++ right.preorder (level + 1)
    | .or _ left right => left.preorder (level + 1) ++ right.preorder (level + 1)
    | .option _ inner => inner.preorder (level + 1)
    | .list _ elem => elem.preorder (level + 1)
    | .set _ elem => elem.preorder (level + 1)
    | .map _ key value => key.preorder (level + 1) ++ value.preorder (level + 1)
    | .bigMap _ key value => key.preorder (level + 1) ++ value.preorder (level + 1)
    | .lambda _ param result => param.preorder (level + 1) ++ result.preorder (level + 1)
    | .ticket _ content paired => content.preorder (level + 1) ++ paired.preorder (level + 1)
    | _ => []

variable {d s s' : Nat} {ty : Ty}

/-- The types in a type that is no ticket are those in its children. -/
theorem preorder_eq (h : ty.prim ≠ .ticket) : ty.preorder d
    = (d, ty) :: ty.children.flatMap (preorder (d + 1)) := by
  cases ty
  case ticket => exact absurd rfl h
  all_goals simp [preorder, children]

/-! ### Numbers -/

/-- Types that stand with their levels in a list have the numbers from the first one on to the
last one, and the depths that are their levels. -/
structure IsNumbered (types : List (Nat × Ty)) (s s' : Nat) : Prop where
  ids : types.map (fun x => x.2.info.id) = List.range' s (s' - s)
  le : s ≤ s'
  depths : ∀ x ∈ types, x.2.info.depth = x.1

namespace IsNumbered

theorem nil : IsNumbered [] s s :=
  ⟨by simp, Nat.le_refl s, List.forall_mem_nil _⟩

/-- Numbers go on from one list to the next. -/
theorem append {xs ys : List (Nat × Ty)} {s₁ : Nat} (hxs : IsNumbered xs s s₁)
    (hys : IsNumbered ys s₁ s') : IsNumbered (xs ++ ys) s s' := by
  obtain ⟨hids, hle, hdepths⟩ := hxs
  obtain ⟨hids', hle', hdepths'⟩ := hys
  refine ⟨?_, Nat.le_trans hle hle', fun x hx => ?_⟩
  · rw [List.map_append, hids, hids', show s' - s = (s₁ - s) + (s' - s₁) by omega,
      ← List.range'_append_1, show s + (s₁ - s) = s₁ by omega]
  · exact (List.mem_append.1 hx).elim (hdepths x) (hdepths' x)

theorem cons {annots : List String} {rest : List (Nat × Ty)} (hinfo : ty.info = ⟨s, d, annots⟩)
    (h : IsNumbered rest (s + 1) s') : IsNumbered ((d, ty) :: rest) s s' := by
  have hone : IsNumbered [(d, ty)] s (s + 1) := by
    refine ⟨?_, Nat.le_succ s, List.forall_mem_singleton.2 ?_⟩
    · simp [hinfo]
    · rw [hinfo]
  exact hone.append h

end IsNumbered

/-- **Types are numbered without a gap.** -/
theorem WritesType.isNumbered {n : Node} (h : WritesType d n s ty s') :
    IsNumbered (ty.preorder d) s s' := by
  induction h with
  | leaf hname hinfo hchildren _ =>
    rw [preorder_eq (prim_ne_ticket (by simp [hchildren])), hchildren]
    exact .cons hinfo .nil
  | one hname hinfo hchildren hticket _ ih =>
    rw [preorder_eq hticket, hchildren]
    exact .cons hinfo (by simpa using ih)
  | two hname hinfo hchildren _ _ iha ihb =>
    rw [preorder_eq (prim_ne_ticket (by simp [hchildren])), hchildren]
    exact .cons hinfo (by simpa using iha.append ihb)
  | comb hname hrest _ _ iha ihb => exact .cons rfl (iha.append ihb)
  | ticket hname _ _ ihcontent ihpaired => exact .cons rfl (ihcontent.append ihpaired)

/-- Types that are read are numbered in preorder without a gap. -/
theorem WritesTypes.isNumbered {ns : List Node} {tys : List Ty} (h : WritesTypes ns s tys s') :
    IsNumbered (tys.flatMap (preorder 0)) s s' := by
  induction h with
  | nil => exact .nil
  | cons h _ ih => exact h.isNumbered.append ih

/-- **The types of a tree have the numbers from zero on**, and the depths that are their
levels. -/
theorem isNumbered_of_ofNodes {ns : List Node} {tys : List Ty} (h : ofNodes ns = .ok tys) :
    (tys.flatMap (preorder 0)).map (fun x => x.2.info.id)
        = List.range (tys.flatMap (preorder 0)).length
      ∧ ∀ x ∈ tys.flatMap (preorder 0), x.2.info.depth = x.1 := by
  obtain ⟨count, hwrites⟩ := ofNodes_eq_ok_iff.1 h
  obtain ⟨hids, -, hdepths⟩ := hwrites.isNumbered
  have hcount : (tys.flatMap (preorder 0)).length = count := by
    simpa using congrArg List.length hids
  exact ⟨by rw [hids, hcount, List.range_eq_range', Nat.sub_zero], hdepths⟩

/-! ### The types in a type -/

/-- **Every type in a type that is written is written by some expression**, though not always by
a part of the expression. -/
theorem WritesType.of_mem_preorder {n : Node} (h : WritesType d n s ty s') :
    ∀ x ∈ ty.preorder d, ∃ m k k', WritesType x.1 m k x.2 k' := by
  induction h with
  | leaf hname hinfo hchildren hargs =>
    rw [preorder_eq (prim_ne_ticket (by simp [hchildren])), hchildren]
    exact List.forall_mem_singleton.2 ⟨_, _, _, .leaf hname hinfo hchildren hargs⟩
  | one hname hinfo hchildren hticket h ih =>
    rw [preorder_eq hticket, hchildren]
    refine List.forall_mem_cons.2 ⟨⟨_, _, _, .one hname hinfo hchildren hticket h⟩, ?_⟩
    simpa using ih
  | two hname hinfo hchildren ha hb iha ihb =>
    rw [preorder_eq (prim_ne_ticket (by simp [hchildren])), hchildren]
    refine List.forall_mem_cons.2 ⟨⟨_, _, _, .two hname hinfo hchildren ha hb⟩, fun x hx => ?_⟩
    rcases List.mem_append.1 (by simpa using hx) with hx | hx
    · exact iha x hx
    · exact ihb x hx
  | comb hname hrest ha hb iha ihb =>
    refine List.forall_mem_cons.2 ⟨⟨_, _, _, .comb hname hrest ha hb⟩, fun x hx => ?_⟩
    exact (List.mem_append.1 hx).elim (iha x) (ihb x)
  | ticket hname hcontent hpaired ihcontent ihpaired =>
    refine List.forall_mem_cons.2 ⟨⟨_, _, _, .ticket hname hcontent hpaired⟩, fun x hx => ?_⟩
    exact (List.mem_append.1 hx).elim (ihcontent x) (ihpaired x)

/-- Each type inside is written by an expression, at its depth. -/
theorem WritesTypes.of_mem_preorder {ns : List Node} {tys : List Ty} (h : WritesTypes ns s tys s') :
    ∀ x ∈ tys.flatMap (preorder 0), ∃ m k k', WritesType x.1 m k x.2 k' := by
  induction h with
  | nil => exact List.forall_mem_nil _
  | cons h _ ih => exact fun x hx => (List.mem_append.1 hx).elim (h.of_mem_preorder x) (ih x)

end Micheline.Ty
