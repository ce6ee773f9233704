/-
Micheline/Proofs/Value/Order.lean

The laws of the order of values.  Literals are ordered through what they stand for, pairs
lexicographically, and choices by their sides first.  From this every type orders its values
lawfully, as far as it orders them (`Ty.isOrder_compare`).
-/
import Micheline.Proofs.Value.Sorted
import Micheline.Value.Order

namespace Micheline

open Sorted

/-! ### Ways to be an order -/

section Orders

variable {ε κ α : Type} {cmp : κ → κ → Except ε Ordering}

theorem isOrder_ok_compare [Ord α] [Std.TransOrd α] :
    IsOrder fun a b : α => (.ok (compare a b) : Except ε Ordering) where
  swap h := by
    obtain rfl := Except.ok.inj h
    exact congrArg Except.ok Std.OrientedCmp.eq_swap
  trans {a b c o o'} hab hbc ho ho' := by
    have hab := Except.ok.inj hab
    have hbc := Except.ok.inj hbc
    refine congrArg Except.ok ?_
    cases o with
    | gt => exact absurd rfl ho
    | lt =>
      cases o' with
      | gt => exact absurd rfl ho'
      | lt => exact Std.TransCmp.lt_trans hab hbc
      | eq => exact Std.TransCmp.lt_of_lt_of_eq hab hbc
    | eq =>
      cases o' with
      | gt => exact absurd rfl ho'
      | lt => exact Std.TransCmp.lt_of_eq_of_lt hab hbc
      | eq => exact Std.TransCmp.eq_trans hab hbc

/-- Keys are ordered lawfully if they are ordered as the things that they stand for. -/
theorem Sorted.IsOrder.comap {cmp' : α → α → Except ε Ordering} (hc : IsOrder cmp')
    (f : κ → Option α)
    (h : ∀ {a b o}, cmp a b = .ok o ↔ ∃ x y, f a = some x ∧ f b = some y ∧ cmp' x y = .ok o) :
    IsOrder cmp where
  swap hab := by
    obtain ⟨x, y, hx, hy, hxy⟩ := h.1 hab
    exact h.2 ⟨y, x, hy, hx, hc.swap hxy⟩
  trans hab hbc ho ho' := by
    obtain ⟨x, y, hx, hy, hxy⟩ := h.1 hab
    obtain ⟨y', z, hy', hz, hyz⟩ := h.1 hbc
    obtain rfl := Option.some.inj (hy.symm.trans hy')
    exact h.2 ⟨x, z, hx, hz, hc.trans hxy hyz ho ho'⟩

/-- Where nothing is compared there is nothing to show. -/
theorem isOrder_of_forall_ne_ok (h : ∀ a b o, cmp a b ≠ .ok o) : IsOrder cmp where
  swap hab := absurd hab (h _ _ _)
  trans hab := absurd hab (h _ _ _)

end Orders

/-! ### Literals -/

namespace Literal

/-- The bytes that an identifier stands for. -/
def identity? (role : Identifier.Role) (l : Literal) : Option Bytes :=
  match optimize (.identifier role) l with
  | .ok (.bytes data) => some data
  | _ => none

variable {prim : Prim}

/-- Points in time are compared by their seconds. -/
theorem order_time_eq_ok_iff {a b : Literal} {o : Ordering} :
    order prim .time a b = .ok o
      ↔ ∃ x y, (seconds a).toOption = some x ∧ (seconds b).toOption = some y
        ∧ (.ok (compare x y) : Except Error Ordering) = .ok o := by
  unfold order
  rcases seconds a with e | x
  · exact ⟨fun h => (nomatch h), fun ⟨_, _, h, _⟩ => (nomatch h)⟩
  rcases seconds b with e | y
  · exact ⟨fun h => (nomatch h), fun ⟨_, _, _, h, _⟩ => (nomatch h)⟩
  · constructor
    · intro h
      exact ⟨x, y, rfl, rfl, h⟩
    · rintro ⟨_, _, ⟨⟩, ⟨⟩, h⟩
      exact h

/-- Identifiers are compared by what they stand for. -/
theorem order_identifier_eq_ok_iff {role : Identifier.Role} {a b : Literal} {o : Ordering} :
    order prim (.identifier role) a b = .ok o
      ↔ ∃ x y, identity? role a = some x ∧ identity? role b = some y
        ∧ (.ok (compare x y) : Except Error Ordering) = .ok o := by
  unfold order identity?
  rcases optimize (.identifier role) a with e | x
  · exact ⟨fun h => (nomatch h), fun ⟨_, _, h, _⟩ => (nomatch h)⟩
  rcases optimize (.identifier role) b with e | y
  · exact ⟨fun h => (nomatch h), fun ⟨_, _, _, h, _⟩ => (nomatch h)⟩
  cases x with
  | bytes x =>
    cases y with
    | bytes y =>
      constructor
      · intro h
        exact ⟨x, y, rfl, rfl, h⟩
      · rintro ⟨_, _, ⟨⟩, ⟨⟩, h⟩
        exact h
    | _ => exact ⟨fun h => (nomatch h), fun ⟨_, _, _, h, _⟩ => (nomatch h)⟩
  | _ => exact ⟨fun h => (nomatch h), fun ⟨_, _, h, _⟩ => (nomatch h)⟩

/-- Literals of one kind are ordered by their contents. -/
theorem isOrder_order_integer : IsOrder (order prim .integer) where
  swap {a b _} h := by
    cases a <;> cases b
    case int.int => exact isOrder_ok_compare.swap h
    case string.string => exact isOrder_ok_compare.swap h
    case bytes.bytes => exact isOrder_ok_compare.swap h
    all_goals cases h
  trans {a b c _ _} hab hbc := by
    cases a <;> cases b <;> cases c
    case int.int.int => exact isOrder_ok_compare.trans hab hbc
    case string.string.string => exact isOrder_ok_compare.trans hab hbc
    case bytes.bytes.bytes => exact isOrder_ok_compare.trans hab hbc
    all_goals first | cases hab; done | cases hbc

theorem isOrder_order (content : Content) : IsOrder (order prim content) := by
  cases content with
  | integer | natural | text | bytes => exact isOrder_order_integer
  | blob | field => exact isOrder_of_forall_ne_ok nofun
  | time => exact isOrder_ok_compare.comap _ order_time_eq_ok_iff
  | identifier role => exact isOrder_ok_compare.comap _ order_identifier_eq_ok_iff

end Literal

/-! ### Values -/

namespace Ty

variable {i : Info} {x y : Val} {o : Ordering}

theorem compare_unit_eq_ok_iff : (unit i).compare x y = .ok o ↔ o = .eq := by
  show (Except.ok Ordering.eq : Except Error Ordering) = .ok o ↔ _
  rw [Except.ok.injEq, eq_comm]

theorem compare_bool_eq_ok_iff :
    (bool i).compare x y = .ok o ↔ ∃ a b, x = .bool a ∧ y = .bool b ∧ Ord.compare a b = o := by
  cases x with
  | bool a =>
    cases y with
    | bool b =>
      show (Except.ok (Ord.compare a b) : Except Error Ordering) = .ok o ↔ _
      simp
    | _ => exact ⟨nofun, by simp⟩
  | _ => exact ⟨nofun, by simp⟩

theorem orderLiterals_eq_ok_iff {prim : Prim} {content : Content} :
    Val.orderLiterals prim content x y = .ok o
      ↔ ∃ a b, x = .literal a ∧ y = .literal b ∧ Literal.order prim content a b = .ok o := by
  cases x with
  | literal a => cases y <;> simp [Val.orderLiterals]
  | _ => simp [Val.orderLiterals]

theorem compare_scalar (kind : Scalar) :
    (scalar i kind).compare x y = Val.orderLiterals (.scalar kind) kind.content x y := by
  show (if kind = kind then _ else _) = _
  rw [if_pos rfl]

/-- Pairs are compared by their first parts, then by their second ones. -/
theorem compare_pair_eq_ok_iff {l r : Ty} :
    (pair i l r).compare x y = .ok o
      ↔ ∃ a b s c d t o₁, x = .pair a b s ∧ y = .pair c d t ∧ l.compare a c = .ok o₁
        ∧ ((o₁ ≠ .eq ∧ o = o₁) ∨ (o₁ = .eq ∧ r.compare b d = .ok o)) := by
  cases x with
  | pair a b s =>
    cases y with
    | pair c d t =>
      show (l.compare a c >>= _) = .ok o ↔ _
      rw [bind_eq_ok_iff]
      constructor
      · rintro ⟨o₁, h₁, h⟩
        refine ⟨a, b, s, c, d, t, o₁, rfl, rfl, h₁, ?_⟩
        cases o₁ with
        | eq => exact .inr ⟨rfl, h⟩
        | lt => exact .inl ⟨nofun, (pure_eq_ok_iff.1 h).symm⟩
        | gt => exact .inl ⟨nofun, (pure_eq_ok_iff.1 h).symm⟩
      · rintro ⟨_, _, _, _, _, _, o₁, ⟨⟩, ⟨⟩, h₁, h⟩
        refine ⟨o₁, h₁, ?_⟩
        rcases h with ⟨hne, rfl⟩ | ⟨rfl, h⟩
        · cases o with
          | eq => exact absurd rfl hne
          | lt => rfl
          | gt => rfl
        · exact h
    | _ => exact ⟨nofun, by simp⟩
  | _ => exact ⟨nofun, by simp⟩

/-- A left side is less than a right one; equal sides are compared by what they hold. -/
theorem compare_or_eq_ok_iff {l r : Ty} :
    (or i l r).compare x y = .ok o
      ↔ (∃ a b, x = .left a ∧ y = .left b ∧ l.compare a b = .ok o)
        ∨ (∃ a b, x = .right a ∧ y = .right b ∧ r.compare a b = .ok o)
        ∨ (∃ a b, x = .left a ∧ y = .right b ∧ o = .lt)
        ∨ (∃ a b, x = .right a ∧ y = .left b ∧ o = .gt) := by
  cases x with
  | left a =>
    cases y with
    | left b =>
      show l.compare a b = .ok o ↔ _
      simp
    | right b =>
      show (Except.ok Ordering.lt : Except Error Ordering) = .ok o ↔ _
      simp [eq_comm]
    | _ => exact ⟨nofun, by simp⟩
  | right a =>
    cases y with
    | left b =>
      show (Except.ok Ordering.gt : Except Error Ordering) = .ok o ↔ _
      simp [eq_comm]
    | right b =>
      show r.compare a b = .ok o ↔ _
      simp
    | _ => exact ⟨nofun, by simp⟩
  | _ => exact ⟨nofun, by simp⟩

/-- Nothing is less than something. -/
theorem compare_option_eq_ok_iff {t : Ty} :
    (option i t).compare x y = .ok o
      ↔ (x = .none ∧ y = .none ∧ o = .eq)
        ∨ (∃ b, x = .none ∧ y = .some b ∧ o = .lt)
        ∨ (∃ a, x = .some a ∧ y = .none ∧ o = .gt)
        ∨ (∃ a b, x = .some a ∧ y = .some b ∧ t.compare a b = .ok o) := by
  cases x with
  | none =>
    cases y with
    | none =>
      show (Except.ok Ordering.eq : Except Error Ordering) = .ok o ↔ _
      simp [eq_comm]
    | some b =>
      show (Except.ok Ordering.lt : Except Error Ordering) = .ok o ↔ _
      simp [eq_comm]
    | _ => exact ⟨nofun, by simp⟩
  | some a =>
    cases y with
    | none =>
      show (Except.ok Ordering.gt : Except Error Ordering) = .ok o ↔ _
      simp [eq_comm]
    | some b =>
      show t.compare a b = .ok o ↔ _
      simp
    | _ => exact ⟨nofun, by simp⟩
  | _ => exact ⟨nofun, by simp⟩

theorem isOrder_orderLiterals (prim : Prim) (content : Content) :
    IsOrder (Val.orderLiterals prim content) where
  swap h := by
    obtain ⟨a, b, rfl, rfl, h⟩ := orderLiterals_eq_ok_iff.1 h
    exact (Literal.isOrder_order content).swap h
  trans hab hbc ho ho' := by
    obtain ⟨a, b, rfl, rfl, hab⟩ := orderLiterals_eq_ok_iff.1 hab
    obtain ⟨b', c, ⟨⟩, rfl, hbc⟩ := orderLiterals_eq_ok_iff.1 hbc
    exact (Literal.isOrder_order content).trans hab hbc ho ho'

theorem isOrder_compare_bool : IsOrder (bool i).compare where
  swap h := by
    obtain ⟨a, b, rfl, rfl, rfl⟩ := compare_bool_eq_ok_iff.1 h
    exact isOrder_ok_compare.swap rfl
  trans hab hbc ho ho' := by
    obtain ⟨a, b, rfl, rfl, rfl⟩ := compare_bool_eq_ok_iff.1 hab
    obtain ⟨b', c, ⟨⟩, rfl, rfl⟩ := compare_bool_eq_ok_iff.1 hbc
    exact isOrder_ok_compare.trans rfl rfl ho ho'

/-- The order of pairs is lexicographic. -/
theorem isOrder_compare_pair {l r : Ty} (hl : IsOrder l.compare) (hr : IsOrder r.compare) :
    IsOrder (pair i l r).compare where
  swap h := by
    obtain ⟨a, b, s, c, d, t, o₁, rfl, rfl, h₁, h⟩ := compare_pair_eq_ok_iff.1 h
    refine compare_pair_eq_ok_iff.2 ⟨c, d, t, a, b, s, _, rfl, rfl, hl.swap h₁, ?_⟩
    rcases h with ⟨hne, rfl⟩ | ⟨rfl, h⟩
    · exact .inl ⟨by simpa using hne, rfl⟩
    · exact .inr ⟨rfl, hr.swap h⟩
  trans {_ _ _ o o'} hab hbc ho ho' := by
    obtain ⟨a, b, s, c, d, t, o₁, rfl, rfl, h₁, h⟩ := compare_pair_eq_ok_iff.1 hab
    obtain ⟨_, _, _, e, f, u, o₂, ⟨⟩, rfl, h₂, h'⟩ := compare_pair_eq_ok_iff.1 hbc
    have h₁' : o₁ ≠ .gt := by rcases h with ⟨-, rfl⟩ | ⟨rfl, -⟩ <;> simp [ho]
    have h₂' : o₂ ≠ .gt := by rcases h' with ⟨-, rfl⟩ | ⟨rfl, -⟩ <;> simp [ho']
    -- Lexicographic order: the first parts decide unless they are equal in both steps.
    have hfirst := hl.trans h₁ h₂ h₁' h₂'
    refine compare_pair_eq_ok_iff.2 ⟨a, b, s, e, f, u, _, rfl, rfl, hfirst, ?_⟩
    rcases h with ⟨hne, rfl⟩ | ⟨rfl, h⟩
    · -- the first parts ascend
      cases o with
      | lt => exact .inl ⟨nofun, rfl⟩
      | eq => exact absurd rfl hne
      | gt => exact absurd rfl ho
    rcases h' with ⟨hne, rfl⟩ | ⟨rfl, h'⟩
    · -- equal at first, then ascending
      cases o' with
      | lt =>
        refine .inl ⟨nofun, ?_⟩
        cases o with
        | gt => exact absurd rfl ho
        | _ => rfl
      | eq => exact absurd rfl hne
      | gt => exact absurd rfl ho'
    · -- the first parts are equal
      exact .inr ⟨rfl, hr.trans h h' ho ho'⟩

theorem isOrder_compare_or {l r : Ty} (hl : IsOrder l.compare) (hr : IsOrder r.compare) :
    IsOrder (or i l r).compare where
  swap h := by
    rw [compare_or_eq_ok_iff] at h ⊢
    obtain ⟨a, b, rfl, rfl, h⟩ | ⟨a, b, rfl, rfl, h⟩ | ⟨a, b, rfl, rfl, rfl⟩
      | ⟨a, b, rfl, rfl, rfl⟩ := h
    · exact .inl ⟨b, a, rfl, rfl, hl.swap h⟩
    · exact .inr (.inl ⟨b, a, rfl, rfl, hr.swap h⟩)
    · exact .inr (.inr (.inr ⟨b, a, rfl, rfl, rfl⟩))
    · exact .inr (.inr (.inl ⟨b, a, rfl, rfl, rfl⟩))
  trans {_ _ _ o o'} hab hbc ho ho' := by
    rw [compare_or_eq_ok_iff] at hab hbc ⊢
    -- the value in the middle has one side, which leaves two cases for each of the first
    obtain ⟨a, b, rfl, rfl, h⟩ | ⟨a, b, rfl, rfl, h⟩ | ⟨a, b, rfl, rfl, rfl⟩
      | ⟨a, b, rfl, rfl, rfl⟩ := hab
    · obtain ⟨_, c, ⟨⟩, rfl, h'⟩ | ⟨_, c, ⟨⟩, _⟩ | ⟨_, c, ⟨⟩, rfl, rfl⟩ | ⟨_, c, ⟨⟩, _⟩ := hbc
      · exact .inl ⟨a, c, rfl, rfl, hl.trans h h' ho ho'⟩
      · refine .inr (.inr (.inl ⟨a, c, rfl, rfl, ?_⟩))
        cases o with
        | gt => exact absurd rfl ho
        | _ => rfl
    · obtain ⟨_, c, ⟨⟩, _⟩ | ⟨_, c, ⟨⟩, rfl, h'⟩ | ⟨_, c, ⟨⟩, _⟩ | ⟨_, c, ⟨⟩, rfl, rfl⟩ := hbc
      · exact .inr (.inl ⟨a, c, rfl, rfl, hr.trans h h' ho ho'⟩)
      · exact absurd rfl ho'
    · obtain ⟨_, c, ⟨⟩, _⟩ | ⟨_, c, ⟨⟩, rfl, h'⟩ | ⟨_, c, ⟨⟩, _⟩ | ⟨_, c, ⟨⟩, rfl, rfl⟩ := hbc
      · exact .inr (.inr (.inl ⟨a, c, rfl, rfl, rfl⟩))
      · exact absurd rfl ho'
    · exact absurd rfl ho

theorem isOrder_compare_option {t : Ty} (ht : IsOrder t.compare) :
    IsOrder (option i t).compare where
  swap h := by
    rw [compare_option_eq_ok_iff] at h ⊢
    obtain ⟨rfl, rfl, rfl⟩ | ⟨b, rfl, rfl, rfl⟩ | ⟨a, rfl, rfl, rfl⟩ | ⟨a, b, rfl, rfl, h⟩ := h
    · exact .inl ⟨rfl, rfl, rfl⟩
    · exact .inr (.inr (.inl ⟨b, rfl, rfl, rfl⟩))
    · exact .inr (.inl ⟨a, rfl, rfl, rfl⟩)
    · exact .inr (.inr (.inr ⟨b, a, rfl, rfl, ht.swap h⟩))
  trans {_ _ _ o o'} hab hbc ho ho' := by
    rw [compare_option_eq_ok_iff] at hab hbc ⊢
    obtain ⟨rfl, rfl, rfl⟩ | ⟨b, rfl, rfl, rfl⟩ | ⟨a, rfl, rfl, rfl⟩ | ⟨a, b, rfl, rfl, h⟩ := hab
    · obtain ⟨-, rfl, rfl⟩ | ⟨c, -, rfl, rfl⟩ | ⟨_, ⟨⟩, _⟩ | ⟨_, c, ⟨⟩, _⟩ := hbc
      · exact .inl ⟨rfl, rfl, rfl⟩
      · exact .inr (.inl ⟨c, rfl, rfl, rfl⟩)
    · obtain ⟨⟨⟩, _⟩ | ⟨c, ⟨⟩, _⟩ | ⟨_, ⟨⟩, rfl, rfl⟩ | ⟨_, c, ⟨⟩, rfl, h'⟩ := hbc
      · exact absurd rfl ho'
      · exact .inr (.inl ⟨c, rfl, rfl, rfl⟩)
    · exact absurd rfl ho
    · obtain ⟨⟨⟩, _⟩ | ⟨c, ⟨⟩, _⟩ | ⟨_, ⟨⟩, rfl, rfl⟩ | ⟨_, c, ⟨⟩, rfl, h'⟩ := hbc
      · exact absurd rfl ho'
      · exact .inr (.inr (.inr ⟨a, c, rfl, rfl, ht.trans h h' ho ho'⟩))

/-- **Values are ordered lawfully**, as far as they are ordered. -/
theorem isOrder_compare (ty : Ty) : IsOrder ty.compare := by
  induction ty with
  | unit i =>
    refine ⟨fun h => ?_, fun hab hbc _ _ => ?_⟩
    · obtain rfl := compare_unit_eq_ok_iff.1 h
      exact h
    · obtain rfl := compare_unit_eq_ok_iff.1 hab
      exact hbc
  | bool i => exact isOrder_compare_bool
  | scalar i kind =>
    have h : (scalar i kind).compare = Val.orderLiterals (.scalar kind) kind.content :=
      funext fun _ => funext fun _ => compare_scalar kind
    rw [h]
    exact isOrder_orderLiterals _ _
  | contract i param => exact isOrder_orderLiterals .contract (.identifier .address)
  | pair i l r ihl ihr => exact isOrder_compare_pair ihl ihr
  | or i l r ihl ihr => exact isOrder_compare_or ihl ihr
  | option i t ih => exact isOrder_compare_option ih
  | _ => exact isOrder_of_forall_ne_ok nofun

end Ty

end Micheline
