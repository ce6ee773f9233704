/-
Micheline/Proofs/Value/Comparable.lean

Comparable types: those that are built of ordered primitives only.  Their values are in a
total order as far as their texts decode (`Ty.compare_total`).  Texts that decode to nothing
are the only reason for which a comparison fails; and two values are equal in the order
exactly if they have the same binary form, up to the notation of pairs.

Literals are compared through their binary forms (`Literal.order_of_optimize`); the rest
goes along the type, one case for each way of building it.
-/
import Micheline.Proofs.Text.Ascii
import Micheline.Proofs.Value.Literals
import Micheline.Proofs.Value.Nested

namespace Micheline

/-- The error that a text is no identifier or no point in time. -/
def Error.IsUndecoded : Error → Prop
  | .timestamp _ _ => True
  | .identifier _ => True
  | _ => False

/-! ### Literals -/

namespace Literal

/-- Where a text has to be an identifier or a point in time, it is one. -/
def Decodes : Content → Literal → Prop
  | .time, .string text => ∃ seconds, Calendar.Timestamp.parse text = .ok seconds
  | .identifier role, .string text => ∃ data, role.toBytes text = .ok data
  | _, _ => True

/-- A literal that decodes has a binary form, and no other one has. -/
theorem optimize_cases_decodes (content : Content) (l : Literal) :
    (Decodes content l ∧ ∃ l', optimize content l = .ok l')
      ∨ (¬ Decodes content l ∧ ∃ e, optimize content l = .error e ∧ e.IsUndecoded) := by
  cases l with
  | int value | bytes data => cases content <;> exact .inl ⟨trivial, _, rfl⟩
  | string text =>
    cases content with
    | time =>
      rcases h : Calendar.Timestamp.parse text with cause | s
      · refine .inr ⟨fun ⟨s, hs⟩ => ?_, .timestamp text cause, ?_, trivial⟩
        · rw [h] at hs
          cases hs
        · simp only [optimize, seconds, h]
          rfl
      · refine .inl ⟨⟨s, h⟩, .int s, ?_⟩
        simp only [optimize, seconds, h]
        rfl
    | identifier role =>
      rcases h : role.toBytes text with cause | data
      · refine .inr ⟨fun ⟨data, hd⟩ => ?_, .identifier cause, ?_, trivial⟩
        · rw [h] at hd
          cases hd
        · simp only [optimize, h]
          rfl
      · refine .inl ⟨⟨data, h⟩, .bytes data, ?_⟩
        simp only [optimize, h]
        rfl
    | _ => exact .inl ⟨trivial, _, rfl⟩

variable {prim : Prim} {content : Content} {a b x y : Literal}

/-- The optimised form of a time is its number of seconds. -/
theorem optimize_time (ha : isOf .time a = true) : optimize .time a = (seconds a).map .int := by
  cases a with
  | int value => rfl
  | bytes data => cases ha
  | string text =>
    show (seconds (.string text) >>= fun s => pure (Literal.int s)) = _
    rcases seconds (.string text) with e | s <;> rfl

/-- The binary form of an identifier is its bytes. -/
theorem exists_bytes_of_optimize {role : Identifier.Role} (ha : isOf (.identifier role) a = true)
    (hx : optimize (.identifier role) a = .ok x) : ∃ data, x = .bytes data := by
  cases a with
  | int value => cases ha
  | bytes data => exact ⟨data, (Except.ok.inj hx).symm⟩
  | string text =>
    obtain ⟨data, -, hx⟩ := bind_eq_ok_iff.1 hx
    exact ⟨data, (pure_eq_ok_iff.1 hx).symm⟩

/-- The binary form of a point in time is its seconds. -/
theorem exists_seconds_of_optimize (ha : isOf .time a = true) (hx : optimize .time a = .ok x) :
    ∃ s, seconds a = .ok s ∧ x = .int s := by
  rw [optimize_time ha] at hx
  rcases h : seconds a with e | s
  · rw [h] at hx
    cases hx
  · rw [h] at hx
    exact ⟨s, rfl, (Except.ok.inj hx).symm⟩

/-- **Literals are compared through their binary forms.** -/
theorem order_of_optimize (prim : Prim) (hc : content.isOrdered = true) (ha : Fits content a)
    (hb : Fits content b) (hx : optimize content a = .ok x) (hy : optimize content b = .ok y) :
    ∃ o, order prim content a b = .ok o ∧ (o = .eq ↔ x = y) := by
  have ha := ha.isOf
  have hb := hb.isOf
  cases content with
  | blob | field => cases hc
  | time =>
    obtain ⟨s, hs, rfl⟩ := exists_seconds_of_optimize ha hx
    obtain ⟨t, ht, rfl⟩ := exists_seconds_of_optimize hb hy
    refine ⟨compare s t, ?_, by simp⟩
    simp only [order, hs, ht]
    rfl
  | identifier role =>
    obtain ⟨d, rfl⟩ := exists_bytes_of_optimize ha hx
    obtain ⟨e, rfl⟩ := exists_bytes_of_optimize hb hy
    refine ⟨compare d e, ?_, by simp⟩
    simp only [order, hx, hy]
    rfl
  | _ =>
    -- a literal is its own binary form, and both are of one kind
    obtain rfl : a = x := by cases a <;> exact Except.ok.inj hx
    obtain rfl : b = y := by cases b <;> exact Except.ok.inj hy
    cases a <;> cases ha
    all_goals
      cases b <;> cases hb
      refine ⟨_, rfl, ?_⟩
      simp [Utf8.encode_injective.eq_iff]

/-- A literal without a binary form is compared with none. -/
theorem order_of_optimize_left {e : Error} (ha : Fits content a)
    (hx : optimize content a = .error e) : order prim content a b = .error e := by
  cases content with
  | time =>
    rw [optimize_time ha.isOf] at hx
    rcases h : seconds a with e' | s
    · rw [h] at hx
      obtain rfl := Except.error.inj hx
      simp only [order, h]
      rfl
    · rw [h] at hx
      cases hx
  | identifier role =>
    simp only [order, hx]
    rfl
  | _ => cases a <;> cases hx

/-- And none is compared with it. -/
theorem order_of_optimize_right {e : Error} (ha : Fits content a) (hb : Fits content b)
    (hx : optimize content a = .ok x) (hy : optimize content b = .error e) :
    order prim content a b = .error e := by
  cases content with
  | time =>
    obtain ⟨s, hs, rfl⟩ := exists_seconds_of_optimize ha.isOf hx
    rw [optimize_time hb.isOf] at hy
    rcases h : seconds b with e' | t
    · rw [h] at hy
      obtain rfl := Except.error.inj hy
      simp only [order, hs, h]
      rfl
    · rw [h] at hy
      cases hy
  | identifier role =>
    simp only [order, hx, hy]
    rfl
  | _ => cases b <;> cases hy

/-- Two literals of an ordered content have an order unless one of them does not decode. -/
theorem order_cases (prim : Prim) (hc : content.isOrdered = true) (ha : Fits content a)
    (hb : Fits content b) :
    (∃ o, order prim content a b = .ok o)
      ∨ (¬ (Decodes content a ∧ Decodes content b)
        ∧ ∃ e, order prim content a b = .error e ∧ e.IsUndecoded) := by
  rcases optimize_cases_decodes content a with ⟨-, x, hx⟩ | ⟨hd, e, hx, he⟩
  · rcases optimize_cases_decodes content b with ⟨-, y, hy⟩ | ⟨hd, e, hy, he⟩
    · obtain ⟨o, ho, -⟩ := order_of_optimize prim hc ha hb hx hy
      exact .inl ⟨o, ho⟩
    · exact .inr ⟨fun h => hd h.2, e, order_of_optimize_right ha hb hx hy, he⟩
  · exact .inr ⟨fun h => hd h.1, e, order_of_optimize_left ha hx, he⟩

/-- Two literals are equal in the order exactly if they have one binary form. -/
theorem order_eq_iff (hc : content.isOrdered = true) (ha : Fits content a)
    (hb : Fits content b) :
    order prim content a b = .ok .eq
      ↔ ∃ x, optimize content a = .ok x ∧ optimize content b = .ok x := by
  constructor
  · intro h
    rcases hx : optimize content a with e | x
    · rw [order_of_optimize_left ha hx] at h
      cases h
    rcases hy : optimize content b with e | y
    · rw [order_of_optimize_right ha hb hx hy] at h
      cases h
    obtain ⟨o, ho, hxy⟩ := order_of_optimize prim hc ha hb hx hy
    obtain rfl := Except.ok.inj (h.symm.trans ho)
    exact ⟨x, rfl, congrArg Except.ok (hxy.1 rfl).symm⟩
  · rintro ⟨x, hx, hy⟩
    obtain ⟨o, ho, hxy⟩ := order_of_optimize prim hc ha hb hx hy
    rw [ho, hxy.2 rfl]

end Literal

/-! ### Values -/

namespace Ty

/-- Whether the type is built of ordered primitives only. -/
def isComparable : Ty → Bool
  | .pair _ left right => left.isComparable && right.isComparable
  | .or _ left right => left.isComparable && right.isComparable
  | .option _ inner => inner.isComparable
  | ty => ty.prim.isComparable

/-- Every text in the value that has to be an identifier or a point in time is one. -/
def Decodes (ty : Ty) (v : Val) : Prop :=
  ∀ p ∈ ty.literals v, Literal.Decodes p.1 p.2

section Compare

variable {i : Info} {loaded : Bool} {l r t : Ty}

/-! ### When values are compared -/

/-- The two values have an order, or a text in one of them does not decode. -/
def Compares (ty : Ty) (a b : Val) : Prop :=
  (∃ o, ty.compare a b = .ok o)
    ∨ (¬ (ty.Decodes a ∧ ty.Decodes b) ∧ ∃ e, ty.compare a b = .error e ∧ e.IsUndecoded)

theorem decodes_pair_iff {a b : Val} {s : Comb} :
    (pair i l r).Decodes (.pair a b s) ↔ l.Decodes a ∧ r.Decodes b :=
  List.forall_mem_append

/-- Literals of an ordered content compare, or one of their texts does not decode. -/
theorem compares_scalar {kind : Scalar} {x y : Literal} (hk : kind.content.isOrdered = true)
    (hx : Literal.Fits kind.content x) (hy : Literal.Fits kind.content y) :
    (scalar i kind).Compares (.literal x) (.literal y) := by
  have hone : ∀ z : Literal, (scalar i kind).Decodes (.literal z)
      ↔ Literal.Decodes kind.content z := fun z => List.forall_mem_singleton
  rw [Compares, compare_scalar, hone, hone]
  exact Literal.order_cases (.scalar kind) hk hx hy

/-- Pairs compare if their parts do. -/
theorem compares_pair {a b c d : Val} {s u : Comb} (hl : l.Compares a c)
    (hr : r.Compares b d) : (pair i l r).Compares (.pair a b s) (.pair c d u) := by
  rw [Compares, decodes_pair_iff, decodes_pair_iff]
  show (∃ o, (l.compare a c >>= _) = .ok o) ∨ _ ∧ ∃ e, (l.compare a c >>= _) = .error e ∧ _
  rcases hl with ⟨o, ho⟩ | ⟨hd, e, he, hu⟩
  · rw [ho]
    cases o with
    | lt => exact .inl ⟨.lt, rfl⟩
    | gt => exact .inl ⟨.gt, rfl⟩
    | eq =>
      -- only here the second parts are looked at
      rcases hr with ⟨o, ho⟩ | ⟨hd, e, he, hu⟩
      · exact .inl ⟨o, ho⟩
      · exact .inr ⟨fun h => hd ⟨h.1.2, h.2.2⟩, e, he, hu⟩
  · rw [he]
    exact .inr ⟨fun h => hd ⟨h.1.1, h.2.1⟩, e, rfl, hu⟩

/-- **Comparing succeeds** unless a text does not decode. -/
theorem compares {ty : Ty} (hty : ty.isComparable = true) {a b : Val} (ha : Holds loaded ty a)
    (hb : Holds loaded ty b) : ty.Compares a b := by
  -- On the type and both values: different sides of a choice and `None` beside `Some` compare
  -- without a look at what is in them.
  induction ty generalizing a b with
  | unit i => exact .inl ⟨.eq, rfl⟩
  | never i => cases ha
  | bool i =>
    cases ha
    cases hb
    exact .inl ⟨_, rfl⟩
  | scalar i kind =>
    cases ha with
    | scalar hx =>
      cases hb with
      | scalar hy => exact compares_scalar hty hx hy
  | pair i l r ihl ihr =>
    obtain ⟨hl, hr⟩ := Bool.and_eq_true_iff.1 hty
    cases ha with
    | pair ha₁ ha₂ _ =>
      cases hb with
      | pair hb₁ hb₂ _ => exact compares_pair (ihl hl ha₁ hb₁) (ihr hr ha₂ hb₂)
  | or i l r ihl ihr =>
    obtain ⟨hl, hr⟩ := Bool.and_eq_true_iff.1 hty
    cases ha with
    | left ha =>
      cases hb with
      | left hb => exact ihl hl ha hb
      | right hb => exact .inl ⟨.lt, rfl⟩
    | right ha =>
      cases hb with
      | left hb => exact .inl ⟨.gt, rfl⟩
      | right hb => exact ihr hr ha hb
  | option i t ih =>
    cases ha with
    | none =>
      cases hb with
      | none => exact .inl ⟨.eq, rfl⟩
      | some hb => exact .inl ⟨.lt, rfl⟩
    | some ha =>
      cases hb with
      | none => exact .inl ⟨.gt, rfl⟩
      | some hb => exact ih hty ha hb
  | saplingTransaction i deprecated memo => cases deprecated <;> cases hty
  | _ => cases hty

/-! ### Which values are equal -/

/-- The binary form of a value, with every pair nested. -/
def binaryForm (ty : Ty) (v : Val) : Except Error Node :=
  ty.writeNested (fun _ n => n) .optimized v

/-- The values have one binary form. -/
def SameBinary (ty : Ty) (a b : Val) : Prop :=
  ∃ n, ty.binaryForm a = .ok n ∧ ty.binaryForm b = .ok n

/-- Steps under one constructor have an outcome in common exactly if the steps have. -/
theorem exists_app_iff {name : String} {x y : Except Error Node} :
    (∃ n, (do return Node.app name [← x]) = Except.ok n
        ∧ (do return Node.app name [← y]) = Except.ok n)
      ↔ ∃ n, x = .ok n ∧ y = .ok n := by
  constructor
  · rintro ⟨n, hx, hy⟩
    obtain ⟨m, hm, hx⟩ := bind_eq_ok_iff.1 hx
    obtain ⟨m', hm', hy⟩ := bind_eq_ok_iff.1 hy
    have hmm : Node.app name [m] = Node.app name [m'] :=
      (pure_eq_ok_iff.1 hx).trans (pure_eq_ok_iff.1 hy).symm
    obtain ⟨-, hargs, -⟩ := Node.prim.inj hmm
    obtain ⟨rfl, -⟩ := List.cons.inj hargs
    exact ⟨m, hm, hm'⟩
  · rintro ⟨n, hx, hy⟩
    exact ⟨.app name [n], bind_eq_ok_iff.2 ⟨n, hx, rfl⟩, bind_eq_ok_iff.2 ⟨n, hy, rfl⟩⟩

/-- The binary form of a literal. -/
theorem binaryForm_literal {ty : Ty} {content : Content} (hty : ty.HasLiteral content)
    (l : Literal) : ty.binaryForm (.literal l) = (l.optimize content).map Literal.node := by
  rw [binaryForm, writeNested_literal hty]
  show (l.optimize content >>= fun a => pure a.node) = _
  rcases l.optimize content with e | a <;> rfl

/-- Literals are written alike exactly if their binary forms are equal. -/
theorem sameBinary_literal_iff {ty : Ty} {content : Content} {x y : Literal}
    (hty : ty.HasLiteral content) :
    ty.SameBinary (.literal x) (.literal y)
      ↔ ∃ z, x.optimize content = .ok z ∧ y.optimize content = .ok z := by
  rw [SameBinary, binaryForm_literal hty, binaryForm_literal hty]
  constructor
  · rintro ⟨n, hx, hy⟩
    obtain ⟨z, hz, rfl⟩ := map_eq_ok_iff.1 hx
    obtain ⟨z', hz', hn⟩ := map_eq_ok_iff.1 hy
    obtain rfl := Literal.node_injective hn
    exact ⟨z', hz, hz'⟩
  · rintro ⟨z, hx, hy⟩
    rw [hx, hy]
    exact ⟨z.node, rfl, rfl⟩

/-- Pairs have one binary form exactly if their parts have. -/
theorem sameBinary_pair_iff {a b c d : Val} {s u : Comb}
    (hx : Holds loaded (pair i l r) (.pair a b s)) (hy : Holds loaded (pair i l r) (.pair c d u)) :
    (pair i l r).SameBinary (.pair a b s) (.pair c d u)
      ↔ l.SameBinary a c ∧ r.SameBinary b d := by
  simp only [SameBinary, binaryForm]
  rw [writeNested_pair hx, writeNested_pair hy]
  constructor
  · rintro ⟨n, h, h'⟩
    obtain ⟨m₁, hm₁, h⟩ := bind_eq_ok_iff.1 h
    obtain ⟨n₁, hn₁, h⟩ := bind_eq_ok_iff.1 h
    obtain ⟨m₂, hm₂, h'⟩ := bind_eq_ok_iff.1 h'
    obtain ⟨n₂, hn₂, h'⟩ := bind_eq_ok_iff.1 h'
    have hnode : Node.app "Pair" [m₁, n₁] = Node.app "Pair" [m₂, n₂] :=
      (pure_eq_ok_iff.1 h).trans (pure_eq_ok_iff.1 h').symm
    obtain ⟨-, hargs, -⟩ := Node.prim.inj hnode
    obtain ⟨hfirst, hrest⟩ := List.cons.inj hargs
    obtain ⟨hsecond, -⟩ := List.cons.inj hrest
    subst hfirst hsecond
    exact ⟨⟨m₁, hm₁, hm₂⟩, n₁, hn₁, hn₂⟩
  · rintro ⟨⟨m, hm, hm'⟩, n, hn, hn'⟩
    rw [hm, hm', hn, hn']
    exact ⟨.app "Pair" [m, n], rfl, rfl⟩

/-- On one side, choices have one binary form exactly if what they hold has. -/
theorem sameBinary_val_iff (side : Side) {a b : Val} :
    (or i l r).SameBinary (side.val a) (side.val b) ↔ (side.pick l r).SameBinary a b := by
  simp only [SameBinary, binaryForm]
  rw [writeNested_val, writeNested_val]
  exact exists_app_iff

theorem sameBinary_some_iff {a b : Val} :
    (option i t).SameBinary (.some a) (.some b) ↔ t.SameBinary a b := by
  simp only [SameBinary, binaryForm]
  rw [writeNested_some, writeNested_some]
  exact exists_app_iff

/-- The name that a binary form has under a constructor. -/
theorem name?_of_app {name : String} {x : Except Error Node} {n : Node}
    (h : (do return Node.app name [← x]) = Except.ok n) : n.name? = some name := by
  obtain ⟨m, -, h⟩ := bind_eq_ok_iff.1 h
  rw [← pure_eq_ok_iff.1 h]
  rfl

/-- The two sides of a choice have different binary forms. -/
theorem not_sameBinary_left_right {a b : Val} :
    ¬ (or i l r).SameBinary (.left a) (.right b) := by
  rintro ⟨n, hx, hy⟩
  have hleft : n.name? = some "Left" := name?_of_app ((writeNested_val .left).symm.trans hx)
  have hright : n.name? = some "Right" := name?_of_app ((writeNested_val .right).symm.trans hy)
  simpa using hleft.symm.trans hright

theorem not_sameBinary_none_some {a : Val} : ¬ (option i t).SameBinary .none (.some a) := by
  simp only [SameBinary, binaryForm]
  rw [writeNested_some]
  rintro ⟨n, hx, hy⟩
  have hnone : n.name? = some "None" := by
    rw [← Except.ok.inj hx]
    rfl
  simpa using hnone.symm.trans (name?_of_app hy)

theorem binaryForm_bool (b : Bool) :
    (bool i).binaryForm (.bool b) = .ok (.app (if b then "True" else "False") []) := by
  cases b <;> rfl

/-- The binary form tells booleans apart. -/
theorem sameBinary_bool_iff {a b : Bool} :
    (bool i).SameBinary (.bool a) (.bool b) ↔ a = b := by
  rw [SameBinary, binaryForm_bool, binaryForm_bool]
  constructor
  · rintro ⟨n, hx, hy⟩
    have hnode := (Except.ok.inj hx).trans (Except.ok.inj hy).symm
    obtain ⟨hname, -⟩ := Node.prim.inj hnode
    cases a <;> cases b <;> simp at hname ⊢
  · rintro rfl
    exact ⟨_, rfl, rfl⟩

theorem SameBinary.symm {ty : Ty} {a b : Val} (h : ty.SameBinary a b) : ty.SameBinary b a := by
  obtain ⟨n, hx, hy⟩ := h
  exact ⟨n, hy, hx⟩

/-- Literals that are equal in an order have one binary form. -/
theorem sameBinary_of_orderLiterals {ty : Ty} {prim : Prim} {content : Content} {x y : Literal}
    (hty : ty.HasLiteral content) (hx : Literal.Fits content x) (hy : Literal.Fits content y)
    (h : Val.orderLiterals prim content (.literal x) (.literal y) = .ok .eq) :
    ty.SameBinary (.literal x) (.literal y) := by
  have hordered : content.isOrdered = true := by
    cases content with
    | blob | field => cases h
    | _ => rfl
  exact (sameBinary_literal_iff hty).2 ((Literal.order_eq_iff hordered hx hy).1 h)

/-- **Values that are equal in the order have one binary form.** -/
theorem sameBinary_of_compare {ty : Ty} {a b : Val} (ha : Holds loaded ty a)
    (hb : Holds loaded ty b) (h : ty.compare a b = .ok .eq) : ty.SameBinary a b := by
  induction ha generalizing b with
  | unit =>
    cases hb
    exact ⟨_, rfl, rfl⟩
  | bool =>
    cases hb
    obtain ⟨x, y, hx, hy, hxy⟩ := compare_bool_eq_ok_iff.1 h
    obtain rfl := Val.bool.inj hx
    obtain rfl := Val.bool.inj hy
    exact sameBinary_bool_iff.2 (by simpa using hxy)
  | scalar hx =>
    cases hb with
    | scalar hy =>
      rw [compare_scalar] at h
      exact sameBinary_of_orderLiterals .scalar hx hy h
  | contract hx =>
    cases hb with
    | contract hy => exact sameBinary_of_orderLiterals .contract hx hy h
  | pair ha₁ ha₂ hs ih₁ ih₂ =>
    cases hb with
    | pair hb₁ hb₂ hu =>
      obtain ⟨_, _, _, _, _, _, o, ⟨⟩, ⟨⟩, h₁, ⟨hne, ho⟩ | ⟨rfl, h₂⟩⟩ := compare_pair_eq_ok_iff.1 h
      · exact absurd ho.symm hne
      · exact (sameBinary_pair_iff (.pair ha₁ ha₂ hs) (.pair hb₁ hb₂ hu)).2 ⟨ih₁ hb₁ h₁, ih₂ hb₂ h₂⟩
  | left _ ih =>
    cases hb with
    | left hb => exact (sameBinary_val_iff .left).2 (ih hb h)
    | right hb => cases h
  | right _ ih =>
    cases hb with
    | left hb => cases h
    | right hb => exact (sameBinary_val_iff .right).2 (ih hb h)
  | none =>
    cases hb with
    | none => exact ⟨_, rfl, rfl⟩
    | some hb => cases h
  | some _ ih =>
    cases hb with
    | none => cases h
    | some hb => exact sameBinary_some_iff.2 (ih hb h)
  | _ => cases h

/-- **Values of a comparable type are equal in the order exactly if they have one binary
form.** -/
theorem compare_eq_iff {ty : Ty} (hty : ty.isComparable = true) {a b : Val}
    (ha : Holds loaded ty a) (hb : Holds loaded ty b) :
    ty.compare a b = .ok .eq ↔ ty.SameBinary a b := by
  refine ⟨sameBinary_of_compare ha hb, fun h => ?_⟩
  induction ty generalizing a b with
  | unit i => rfl
  | never i => cases ha
  | bool i =>
    cases ha
    cases hb
    exact compare_bool_eq_ok_iff.2 ⟨_, _, rfl, rfl, by simpa using sameBinary_bool_iff.1 h⟩
  | scalar i kind =>
    cases ha with
    | scalar hx =>
      cases hb with
      | scalar hy =>
        rw [compare_scalar]
        exact (Literal.order_eq_iff hty hx hy).2 ((sameBinary_literal_iff .scalar).1 h)
  | pair i l r ihl ihr =>
    obtain ⟨hl, hr⟩ := Bool.and_eq_true_iff.1 hty
    cases ha with
    | pair ha₁ ha₂ hs =>
      cases hb with
      | pair hb₁ hb₂ hu =>
        obtain ⟨h₁, h₂⟩ := (sameBinary_pair_iff (.pair ha₁ ha₂ hs) (.pair hb₁ hb₂ hu)).1 h
        refine compare_pair_eq_ok_iff.2 ⟨_, _, _, _, _, _, .eq, rfl, rfl, ihl hl ha₁ hb₁ h₁, ?_⟩
        exact .inr ⟨rfl, ihr hr ha₂ hb₂ h₂⟩
  | or i l r ihl ihr =>
    obtain ⟨hl, hr⟩ := Bool.and_eq_true_iff.1 hty
    cases ha with
    | left ha =>
      cases hb with
      | left hb => exact ihl hl ha hb ((sameBinary_val_iff .left).1 h)
      | right hb => exact absurd h not_sameBinary_left_right
    | right ha =>
      cases hb with
      | left hb => exact absurd h.symm not_sameBinary_left_right
      | right hb => exact ihr hr ha hb ((sameBinary_val_iff .right).1 h)
  | option i t ih =>
    cases ha with
    | none =>
      cases hb with
      | none => rfl
      | some hb => exact absurd h not_sameBinary_none_some
    | some ha =>
      cases hb with
      | none => exact absurd h.symm not_sameBinary_none_some
      | some hb => exact ih hty ha hb (sameBinary_some_iff.1 h)
  | saplingTransaction i deprecated memo => cases deprecated <;> cases hty
  | _ => cases hty

/-! ### The order -/

/-- **Comparing is a total order** on the settled values of a comparable type.  It answers
where all texts decode, and fails for no other reason; what it answers is reversed by the
other order of the arguments and is transitive, strictly so if one of the steps is; equal
values are those with one binary form up to the notation of pairs, and they compare alike
with everything. -/
theorem compare_total {ty : Ty} (hty : ty.isComparable = true) {m n : Node} {a b : Val}
    (ha : ty.settle m = .ok a) (hb : ty.settle n = .ok b) :
    (ty.Decodes a → ty.Decodes b → ∃ o, ty.compare a b = .ok o)
      ∧ (∀ e, ty.compare a b = .error e →
          e.IsUndecoded ∧ e ≠ .notSettled ∧ ∀ p q, e ≠ .notComparable p q)
      ∧ (∀ o, ty.compare a b = .ok o → ty.compare b a = .ok o.swap)
      ∧ (∀ c o o', ty.compare a b = .ok o → ty.compare b c = .ok o' → o ≠ .gt → o' ≠ .gt →
          ∃ o'', ty.compare a c = .ok o'' ∧ o'' ≠ .gt ∧ (o = .lt ∨ o' = .lt → o'' = .lt))
      ∧ (ty.compare a b = .ok .eq ↔ ∃ x y, ty.project .optimized a = .ok x
          ∧ ty.project .optimized b = .ok y ∧ ty.nested x = ty.nested y)
      ∧ (ty.compare a b = .ok .eq → ∀ c o, ty.compare a c = .ok o ↔ ty.compare b c = .ok o) := by
  -- Order laws hold for all values; only the answer itself needs values that settled.
  have hord := isOrder_compare ty
  have hcomp := compares hty (holds_of_settle ha) (holds_of_settle hb)
  refine ⟨?_, ?_, ?_, ?_, ?_, ?_⟩
  · intro hda hdb
    exact hcomp.resolve_right fun h => h.1 ⟨hda, hdb⟩
  · intro e he
    rcases hcomp with ⟨o, ho⟩ | ⟨-, e', he', hu⟩
    · rw [ho] at he
      cases he
    · obtain rfl := Except.error.inj (he.symm.trans he')
      refine ⟨hu, ?_, ?_⟩
      · rintro rfl
        exact hu
      · rintro p q rfl
        exact hu
  · intro o ho
    exact hord.swap ho
  · intro c o o' ho ho' hne hne'
    refine ⟨o.then o', hord.trans ho ho' hne hne', ?_, ?_⟩
    · cases o <;> cases o' <;> simp_all
    · rintro (rfl | rfl)
      · rfl
      · cases o <;> simp_all
  · rw [compare_eq_iff hty (holds_of_settle ha) (holds_of_settle hb)]
    constructor
    · rintro ⟨x, hx, hy⟩
      obtain ⟨x', hx', rfl⟩ := map_eq_ok_iff.1 hx
      obtain ⟨y', hy', hxy⟩ := map_eq_ok_iff.1 hy
      exact ⟨x', y', hx', hy', hxy.symm⟩
    · rintro ⟨x, y, hx, hy, hxy⟩
      exact ⟨_, map_eq_ok_iff.2 ⟨x, hx, rfl⟩, map_eq_ok_iff.2 ⟨y, hy, hxy.symm⟩⟩
  · intro hab c o
    exact ⟨hord.congr hab, hord.congr (hord.swap hab)⟩

/-- A point in time is the same one in each of its forms. -/
theorem compare_total_moment :
    let ty : Ty := .pair ⟨0, 0, []⟩ (.scalar ⟨0, 0, []⟩ .timestamp)
      (.option ⟨0, 0, []⟩ (.scalar ⟨0, 0, []⟩ .int))
    let a : Val := .pair (.literal (.string "1970-01-01T00:01:40Z"))
      (.some (.literal (.int 7))) .seq
    let b : Val := .pair (.literal (.int 100)) (.some (.literal (.int 7))) .pair
    let c : Val := .pair (.literal (.int 100)) .none .pair
    ty.compare b a = .ok .eq
      ∧ (∃ x y, ty.project .optimized a = .ok x ∧ ty.project .optimized b = .ok y
          ∧ ty.nested x = ty.nested y)
      ∧ ty.compare c a = .ok .lt ∧ ty.compare c b = .ok .lt := by
  intro ty a b c
  have ha : ty.settle (.seq [.string "1970-01-01T00:01:40Z", .app "Some" [.int 7]]) = .ok a := rfl
  have hb : ty.settle (.app "Pair" [.int 100, .app "Some" [.int 7]]) = .ok b := rfl
  have hc : ty.settle (.app "Pair" [.int 100, .app "None" []]) = .ok c := rfl
  have hab : ty.compare a b = .ok .eq := rfl
  have hcb : ty.compare c b = .ok .lt := rfl
  obtain ⟨-, -, hswap, -, heq, hcongr⟩ := compare_total rfl ha hb
  have hca : ty.compare c a = .ok .lt := by
    obtain ⟨-, -, hcswap, -⟩ := compare_total rfl hc hb
    have hac : ty.compare a c = .ok .gt := (hcongr hab c .gt).2 (hcswap .lt hcb)
    exact (compare_total rfl ha hc).2.2.1 .gt hac
  exact ⟨hswap .eq hab, heq.1 hab, hca, hcb⟩

end Compare

end Ty

end Micheline
