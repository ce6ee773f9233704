/-
Micheline/Proofs/Value/Rank.lean

Values that the order does not tell apart.  Two values have the same rank if they compare in
the same way with every value, failures included.  A literal has the rank of its binary form
(`Literal.ranksAs_optimize`); ranks are taken over by pairs, choices and options, and types
without an order give all their values the same one.

What replaces the elements of an ascending list by others of the same rank keeps the list
ascending (`ascending_of_ranksAs`).
-/
import Micheline.Proofs.Value.Leaf
import Micheline.Proofs.Value.Order

namespace Micheline

open Sorted

/-! ### Literals -/

namespace Literal

/-- The two literals compare in the same way with every literal. -/
def RanksAs (content : Content) (l l' : Literal) : Prop :=
  ∀ prim m, order prim content l m = order prim content l' m
    ∧ order prim content m l = order prim content m l'

theorem RanksAs.refl (content : Content) (l : Literal) : RanksAs content l l :=
  fun _ _ => ⟨rfl, rfl⟩

/-- Points in time with the same seconds. -/
theorem ranksAs_of_seconds {l l' : Literal} (h : seconds l = seconds l') :
    RanksAs .time l l' := by
  intro prim m
  constructor
  · show (seconds l >>= _) = (seconds l' >>= _)
    rw [h]
  · show (seconds m >>= fun x => seconds l >>= _) = (seconds m >>= fun x => seconds l' >>= _)
    rw [h]

/-- Identifiers with the same binary form. -/
theorem ranksAs_of_optimize {role : Identifier.Role} {l l' : Literal}
    (h : optimize (.identifier role) l = optimize (.identifier role) l') :
    RanksAs (.identifier role) l l' := by
  intro prim m
  constructor
  · show (optimize _ l >>= _) = (optimize _ l' >>= _)
    rw [h]
  · show (optimize _ m >>= fun x => optimize _ l >>= _)
      = (optimize _ m >>= fun x => optimize _ l' >>= _)
    rw [h]

/-- What the binary form of a literal is. -/
theorem optimize_cases {content : Content} {l l' : Literal} (h : optimize content l = .ok l') :
    l' = l ∨ (content = .time ∧ ∃ x, l' = .int x ∧ seconds l = .ok x)
      ∨ ∃ role data, content = .identifier role ∧ l' = .bytes data := by
  cases l with
  | int value | bytes data => exact .inl (Except.ok.inj h).symm
  | string text =>
    cases content with
    | time =>
      have h : (seconds (.string text) >>= fun x => pure (Literal.int x)) = .ok l' := h
      obtain ⟨x, hx, h⟩ := bind_eq_ok_iff.1 h
      exact .inr (.inl ⟨rfl, x, (pure_eq_ok_iff.1 h).symm, hx⟩)
    | identifier role =>
      have h : (lift .identifier (role.toBytes text) >>= fun d => pure (Literal.bytes d))
        = .ok l' := h
      obtain ⟨data, -, h⟩ := bind_eq_ok_iff.1 h
      exact .inr (.inr ⟨role, data, rfl, (pure_eq_ok_iff.1 h).symm⟩)
    | _ => exact .inl (Except.ok.inj h).symm

/-- **A literal has the rank of its binary form.** -/
theorem ranksAs_optimize {content : Content} {l l' : Literal}
    (h : optimize content l = .ok l') : RanksAs content l l' := by
  obtain rfl | ⟨rfl, x, rfl, hx⟩ | ⟨role, data, rfl, rfl⟩ := optimize_cases h
  · exact .refl content l'
  · exact ranksAs_of_seconds hx
  · exact ranksAs_of_optimize h

/-- The binary form is its own binary form. -/
theorem optimize_of_optimize {content : Content} {l l' : Literal}
    (h : optimize content l = .ok l') : optimize content l' = .ok l' := by
  obtain rfl | ⟨rfl, x, rfl, -⟩ | ⟨role, data, rfl, rfl⟩ := optimize_cases h
  · exact h
  · rfl
  · rfl

end Literal

/-! ### Values -/

namespace Ty

/-- The two values compare in the same way with every value of the type. -/
def RanksAs (ty : Ty) (a a' : Val) : Prop :=
  ∀ b, ty.compare a b = ty.compare a' b ∧ ty.compare b a = ty.compare b a'

theorem RanksAs.refl (ty : Ty) (a : Val) : ty.RanksAs a a :=
  fun _ => ⟨rfl, rfl⟩

theorem RanksAs.compare_eq {ty : Ty} {a a' b b' : Val} (ha : ty.RanksAs a a')
    (hb : ty.RanksAs b b') : ty.compare a b = ty.compare a' b' :=
  (ha b).1.trans (hb a').2

/-- What ranks alike ascends alike. -/
theorem ascending_of_ranksAs {ty : Ty} {as bs : List Val} (h : List.Forall₂ ty.RanksAs as bs)
    (ha : Ascending ty.compare as) : Ascending ty.compare bs := by
  induction h with
  | nil => exact List.Pairwise.nil
  | @cons a b as bs hab h ih =>
    obtain ⟨hlt, has⟩ := List.pairwise_cons.1 ha
    refine List.pairwise_cons.2 ⟨?_, ih has⟩
    clear ih ha has
    -- the new head against each of the others, by the same induction
    induction h with
    | nil => exact nofun
    | @cons c d cs ds hcd _ ih =>
      obtain ⟨hc, hcs⟩ := List.forall_mem_cons.1 hlt
      exact List.forall_mem_cons.2 ⟨(hab.compare_eq hcd).symm.trans hc, ih hcs⟩

variable {i : Info}

/-- Literals that rank alike compare alike, on either side. -/
theorem orderLiterals_congr {prim : Prim} {content : Content} {l l' : Literal}
    (h : Literal.RanksAs content l l') (y : Val) :
    Val.orderLiterals prim content (.literal l) y = Val.orderLiterals prim content (.literal l') y
      ∧ Val.orderLiterals prim content y (.literal l)
        = Val.orderLiterals prim content y (.literal l') := by
  cases y with
  | literal m => exact h prim m
  | _ => exact ⟨rfl, rfl⟩

/-- Values rank as their literals do. -/
theorem ranksAs_literal {ty : Ty} {content : Content} {l l' : Literal}
    (hty : ty.HasLiteral content) (h : Literal.RanksAs content l l') :
    ty.RanksAs (.literal l) (.literal l') := by
  intro y
  cases hty with
  | scalar =>
    rw [compare_scalar, compare_scalar, compare_scalar, compare_scalar]
    exact orderLiterals_congr h y
  | contract => exact orderLiterals_congr h y

/-- Pairs rank as their parts do, whatever their notation. -/
theorem ranksAs_pair {l r : Ty} {a a' b b' : Val} {s s' : Comb} (ha : l.RanksAs a a')
    (hb : r.RanksAs b b') : (pair i l r).RanksAs (.pair a b s) (.pair a' b' s') := by
  intro y
  cases y with
  | pair c d t =>
    -- the second parts are looked at where the first ones are equal
    constructor
    · show (l.compare a c >>= _) = (l.compare a' c >>= _)
      rw [(ha c).1]
      refine bind_congr fun o => ?_
      cases o with
      | eq => exact (hb d).1
      | _ => rfl
    · show (l.compare c a >>= _) = (l.compare c a' >>= _)
      rw [(ha c).2]
      refine bind_congr fun o => ?_
      cases o with
      | eq => exact (hb d).2
      | _ => rfl
  | _ => exact ⟨rfl, rfl⟩

/-- A side ranks as what it holds does: the other side is on one end for all of them. -/
theorem ranksAs_val {l r : Ty} {a a' : Val} (side : Side) (ha : (side.pick l r).RanksAs a a') :
    (or i l r).RanksAs (side.val a) (side.val a') := by
  intro y
  cases side with
  | left =>
    cases y with
    | left b => exact ha b
    | _ => exact ⟨rfl, rfl⟩
  | right =>
    cases y with
    | right b => exact ha b
    | _ => exact ⟨rfl, rfl⟩

theorem ranksAs_some {t : Ty} {a a' : Val} (ha : t.RanksAs a a') :
    (option i t).RanksAs (.some a) (.some a') := by
  intro y
  cases y with
  | some b => exact ha b
  | _ => exact ⟨rfl, rfl⟩

end Ty

end Micheline
