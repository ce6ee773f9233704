/-
Micheline/Proofs/Value/Equals.lean

What is equal in the order can be shown if the other one can (`Ty.exists_present_of_equal`):
identifiers with the same bytes either all have a text or none, and everything else that is
ordered has one anyway.  How values come to be equal is told by a rule for each kind of value
(`Ty.Equal`), and the proofs are by induction on that.
-/
import Micheline.Proofs.Identifier.Text
import Micheline.Proofs.Value.Order
import Micheline.Value.Presentation

namespace Micheline

/-! ### Literals -/

namespace Literal

variable {prim : Prim} {content : Content} {a b : Literal}

/-- Only identifiers may have no readable form. -/
theorem exists_readable (h : ∀ role, content ≠ .identifier role) :
    ∃ r, readable content a = .ok r := by
  cases content with
  | identifier role => exact absurd rfl (h role)
  | _ => cases a <;> exact ⟨_, rfl⟩

/-- Identifiers that stand for the same bytes are readable together. -/
theorem exists_readable_of_identity? {role : Identifier.Role} {data : Bytes}
    (ha : identity? role a = some data) (hb : identity? role b = some data)
    (h : ∃ r, readable (.identifier role) a = .ok r) :
    ∃ r, readable (.identifier role) b = .ok r := by
  cases b with
  | int value => cases hb
  | string text => exact ⟨_, rfl⟩
  | bytes bytes =>
    obtain rfl := Option.some.inj hb
    cases a with
    | int value => cases ha
    | bytes bytes' =>
      obtain rfl := Option.some.inj ha
      exact h
    | string text =>
      -- the bytes of a text have a text
      rw [identity?, optimize] at ha
      rcases hbytes : role.toBytes text with e | bytes'
      · rw [hbytes] at ha
        cases ha
      · rw [hbytes] at ha
        obtain rfl := Option.some.inj ha
        obtain ⟨text', htext⟩ := Identifier.Role.exists_ofBytes_of_toBytes hbytes
        exact ⟨.string text', bind_eq_ok_iff.2 ⟨text', lift_eq_ok_iff.2 htext, rfl⟩⟩

/-- Of literals that are equal in the order both have a readable form, or none has. -/
theorem exists_readable_of_order (h : order prim content a b = .ok .eq)
    (ha : ∃ r, readable content a = .ok r) : ∃ r, readable content b = .ok r := by
  by_cases hrole : ∃ role, content = .identifier role
  · obtain ⟨role, rfl⟩ := hrole
    obtain ⟨x, y, hx, hy, hxy⟩ := order_identifier_eq_ok_iff.1 h
    have heq : compare x y = .eq := Except.ok.inj hxy
    obtain rfl : x = y := by simpa using heq
    exact exists_readable_of_identity? hx hy ha
  · exact exists_readable fun role he => hrole ⟨role, he⟩

theorem exists_display_of_order (h : order prim content a b = .ok .eq)
    (ha : ∃ s, display content a = .ok s) : ∃ s, display content b = .ok s :=
  exists_return_iff.2 (exists_readable_of_order h (exists_return_iff.1 ha))

end Literal

/-! ### Values -/

namespace Ty

/-- How values come to be equal in the order. -/
inductive Equal : Ty → Val → Val → Prop
  | unit {i a b} : Equal (.unit i) a b
  | bool {i x} : Equal (.bool i) (.bool x) (.bool x)
  | scalar {i kind x y} (h : Literal.order (.scalar kind) kind.content x y = .ok .eq) :
    Equal (.scalar i kind) (.literal x) (.literal y)
  | contract {i param x y} (h : Literal.order .contract (.identifier .address) x y = .ok .eq) :
    Equal (.contract i param) (.literal x) (.literal y)
  | pair {i l r a b c d s t} (hfirst : Equal l a c) (hsecond : Equal r b d) :
    Equal (.pair i l r) (.pair a b s) (.pair c d t)
  | left {i l r a b} (h : Equal l a b) : Equal (.or i l r) (.left a) (.left b)
  | right {i l r a b} (h : Equal r a b) : Equal (.or i l r) (.right a) (.right b)
  | none {i t} : Equal (.option i t) .none .none
  | some {i t a b} (h : Equal t a b) : Equal (.option i t) (.some a) (.some b)

/-- Values that compare as equal are equal part by part. -/
theorem Equal.of_compare {ty : Ty} {a b : Val} (h : ty.compare a b = .ok .eq) : Equal ty a b := by
  induction ty generalizing a b with
  | unit i => exact .unit
  | bool i =>
    obtain ⟨x, y, rfl, rfl, ho⟩ := compare_bool_eq_ok_iff.1 h
    obtain rfl : x = y := by cases x <;> cases y <;> first | rfl | cases ho
    exact .bool
  | scalar i kind =>
    rw [compare_scalar] at h
    obtain ⟨x, y, rfl, rfl, h⟩ := orderLiterals_eq_ok_iff.1 h
    exact .scalar h
  | contract i param =>
    obtain ⟨x, y, rfl, rfl, h⟩ := orderLiterals_eq_ok_iff.1 h
    exact .contract h
  | pair i l r ihl ihr =>
    obtain ⟨a, b, s, c, d, t, o, rfl, rfl, hfirst, ⟨hne, ho⟩ | ⟨rfl, hsecond⟩⟩ :=
      compare_pair_eq_ok_iff.1 h
    · exact absurd ho.symm hne
    · exact .pair (ihl hfirst) (ihr hsecond)
  | or i l r ihl ihr =>
    obtain ⟨a, b, rfl, rfl, h⟩ | ⟨a, b, rfl, rfl, h⟩ | ⟨a, b, -, -, ho⟩ | ⟨a, b, -, -, ho⟩ :=
      compare_or_eq_ok_iff.1 h
    · exact .left (ihl h)
    · exact .right (ihr h)
    · cases ho
    · cases ho
  | option i t ih =>
    obtain ⟨rfl, rfl, -⟩ | ⟨b, -, -, ho⟩ | ⟨a, -, -, ho⟩ | ⟨a, b, rfl, rfl, h⟩ :=
      compare_option_eq_ok_iff.1 h
    · exact .none
    · cases ho
    · cases ho
    · exact .some (ih h)
  | _ => cases h

/-- Values that are equal are readable together. -/
theorem exists_project_of_equal {ty : Ty} {a b : Val} (h : Equal ty a b)
    (ha : ∃ n, ty.project .readable a = .ok n) : ∃ n, ty.project .readable b = .ok n := by
  induction h with
  | unit | none => exact ⟨_, rfl⟩
  | @bool _ x => cases x <;> exact ⟨_, rfl⟩
  | scalar h | contract h =>
    exact exists_return_iff.2 (Literal.exists_readable_of_order h (exists_return_iff.1 ha))
  | pair _ _ ihfirst ihsecond =>
    obtain ⟨n, hn⟩ := ha
    obtain ⟨first, ha₁, hn⟩ := bind_eq_ok_iff.1 hn
    obtain ⟨second, ha₂, -⟩ := bind_eq_ok_iff.1 hn
    obtain ⟨first', hb₁⟩ := ihfirst ⟨first, ha₁⟩
    obtain ⟨second', hb₂⟩ := ihsecond ⟨second, ha₂⟩
    exact ⟨_, bind_eq_ok_iff.2 ⟨first', hb₁, bind_eq_ok_iff.2 ⟨second', hb₂, rfl⟩⟩⟩
  | left _ ih | right _ ih | some _ ih => exact exists_return_iff.2 (ih (exists_return_iff.1 ha))

/-- Keys that are equal have names together. -/
theorem exists_keyName_of_equal {key : Ty} {a b : Val} (h : Equal key a b)
    (ha : ∃ s, key.keyName a = .ok s) : ∃ s, key.keyName b = .ok s := by
  have hother (hk : ∀ v, key.keyName v = do return (← key.project .readable v).michelson) :
      ∃ s, key.keyName b = .ok s := by
    rw [hk] at ha ⊢
    exact exists_return_iff.2 (exists_project_of_equal h (exists_return_iff.1 ha))
  cases h with
  | bool => exact ⟨_, rfl⟩
  | scalar h => exact Literal.exists_display_of_order h ha
  | _ => exact hother fun v => rfl

/-- **Values that are equal are shown together.** -/
theorem exists_present_of_equal {ty : Ty} {a b : Val} (h : Equal ty a b)
    (ha : ∃ p, ty.present a = .ok p) : ∃ p, ty.present b = .ok p := by
  induction h with
  | unit | bool | none => exact ⟨_, rfl⟩
  | scalar h | contract h =>
    have hshown := exists_return_iff.1 (exists_return_iff.1 ha)
    exact exists_return_iff.2 (exists_return_iff.2 (Literal.exists_display_of_order h hshown))
  | pair _ _ ihfirst ihsecond =>
    obtain ⟨p, hp⟩ := ha
    obtain ⟨first, ha₁, hp⟩ := bind_eq_ok_iff.1 hp
    obtain ⟨second, ha₂, -⟩ := bind_eq_ok_iff.1 hp
    obtain ⟨first', hb₁⟩ := ihfirst ⟨first, ha₁⟩
    obtain ⟨second', hb₂⟩ := ihsecond ⟨second, ha₂⟩
    exact ⟨_, bind_eq_ok_iff.2 ⟨first', hb₁, bind_eq_ok_iff.2 ⟨second', hb₂, rfl⟩⟩⟩
  | left _ ih | right _ ih | some _ ih => exact exists_return_iff.2 (ih (exists_return_iff.1 ha))

end Ty

end Micheline
