/-
Micheline/Proofs/Value/Shown.lean

What is shown of a value without parts tells its binary form, but for a few values that no mark
tells from earlier ones (`Blurred`).  The readable form of a literal may leave out the name of
the default entrypoint, an element of a field may have the digits of bytes, code may have names
that run together, and of a big map that has lost its pointer only the earlier one shows a
pointer; nothing but these is confused (`Literal.optimize_eq_of_display`, `Ty.agrees_of_shown`).
-/
import Micheline.Proofs.Calendar.Text
import Micheline.Proofs.Identifier.Text
import Micheline.Proofs.Node.Michelson
import Micheline.Proofs.Value.Comparable
import Micheline.Proofs.Value.Overlay
import Micheline.Proofs.Value.Readable

namespace Micheline

open Calendar Identifier

/-! ### Literals -/

namespace Literal

/-- Two literals that are shown alike and still need not be equal: one of two identifiers has
the name of the default entrypoint behind it, or one of two elements of a field is an integer
and the other one bytes. -/
structure Blurred (content : Content) (x y : Literal) : Prop where
  shown : ∃ text, display content x = .ok text ∧ display content y = .ok text
  cause : ¬(SpellsDefault content x ↔ SpellsDefault content y)
    ∨ content = .field ∧ ∃ value data, (x = .int value ∧ y = .bytes data)
      ∨ (x = .bytes data ∧ y = .int value)

variable {content : Content} {x y a b : Literal} {text : String}

theorem display_eq_ok_iff :
    display content x = .ok text ↔ ∃ r, readable content x = .ok r ∧ text = r.text := by
  rw [display, bind_eq_ok_iff]
  exact exists_congr fun r => and_congr_right fun _ => pure_eq_ok_iff.trans eq_comm

/-- What is shown of a point in time stands for it. -/
theorem standsFor_of_display {s : Int} (hx : isOf .time x = true)
    (hd : display .time x = .ok text) (hs : seconds x = .ok s) :
    Timestamp.StandsFor text s := by
  obtain ⟨r, hr, rfl⟩ := display_eq_ok_iff.1 hd
  obtain ⟨rfl, -⟩ | ⟨value, text, -, rfl, htext, rfl⟩ | ⟨role, data, text, hrole, -⟩ :=
    readable_cases hr
  · cases r with
    | int value =>
      obtain rfl : value = s := Except.ok.inj hs
      exact .digits rfl
    | string text => exact .read (lift_eq_ok_iff.1 hs)
    | bytes data => cases hx
  · obtain rfl : value = s := Except.ok.inj hs
    exact .written htext
  · cases hrole

/-- Points in time that are shown alike are equal. -/
theorem optimize_eq_of_display_time (hx : isOf .time x = true) (hy : isOf .time y = true)
    (hdx : display .time x = .ok text) (hdy : display .time y = .ok text)
    (ha : optimize .time x = .ok a) (hb : optimize .time y = .ok b) : a = b := by
  obtain ⟨s, hs, rfl⟩ := exists_seconds_of_optimize hx ha
  obtain ⟨t, ht, rfl⟩ := exists_seconds_of_optimize hy hb
  rw [(standsFor_of_display hx hdx hs).eq (standsFor_of_display hy hdy ht)]

/-- The readable form of an identifier is its text. -/
theorem readable_of_display {role : Role} (hx : isOf (.identifier role) x = true)
    (hd : display (.identifier role) x = .ok text) :
    readable (.identifier role) x = .ok (.string text) := by
  obtain ⟨r, hr, rfl⟩ := display_eq_ok_iff.1 hd
  rw [hr]
  cases x with
  | int value => cases hx
  | string text =>
    obtain rfl : .string text = r := Except.ok.inj hr
    rfl
  | bytes data =>
    obtain ⟨text, -, hr⟩ := bind_eq_ok_iff.1 hr
    rw [← pure_eq_ok_iff.1 hr]
    rfl

/-- The binary form spells out a default entrypoint if the identifier does. -/
theorem spellsDefault_iff_of_optimize {role : Role} (ha : optimize (.identifier role) x = .ok a) :
    SpellsDefault (.identifier role) a ↔ SpellsDefault (.identifier role) x := by
  cases x with
  | int value | bytes data =>
    obtain rfl := Except.ok.inj ha
    rfl
  | string text =>
    obtain ⟨data, hdata, ha⟩ := bind_eq_ok_iff.1 ha
    obtain rfl := pure_eq_ok_iff.1 ha
    exact iff_of_false (Role.not_spellsDefault_of_toBytesWith (lift_eq_ok_iff.1 hdata)) id

/-- Identifiers that are shown alike are equal, but for a default entrypoint. -/
theorem optimize_eq_of_display_identifier {role : Role} (hx : isOf (.identifier role) x = true)
    (hy : isOf (.identifier role) y = true) (hdx : display (.identifier role) x = .ok text)
    (hdy : display (.identifier role) y = .ok text)
    (hspells : SpellsDefault (.identifier role) x ↔ SpellsDefault (.identifier role) y)
    (ha : optimize (.identifier role) x = .ok a) (hb : optimize (.identifier role) y = .ok b) :
    a = b := by
  -- both are what the text stands for when the default entrypoint is dropped
  have hback := optimize_of_readable (readable_of_display hx hdx) id
  rw [optimize_of_readable (readable_of_display hy hdy) id, ha, hb] at hback
  have hspells' := (spellsDefault_iff_of_optimize ha).trans
    (hspells.trans (spellsDefault_iff_of_optimize hb).symm)
  obtain ⟨d, rfl⟩ := exists_bytes_of_optimize hx ha
  obtain ⟨e, rfl⟩ := exists_bytes_of_optimize hy hb
  have hdropped : role.dropDefault e = role.dropDefault d :=
    Literal.bytes.inj (Except.ok.inj hback)
  rw [Role.eq_of_dropDefault hspells' hdropped.symm]

/-- Elements of a field that are shown alike are equal if both are integers or both bytes. -/
theorem eq_of_display_field (hx : isOf .field x = true) (hy : isOf .field y = true)
    (hblur : ¬Blurred .field x y) (hdx : display .field x = .ok text)
    (hdy : display .field y = .ok text) : x = y := by
  -- Digits of a number can be the digits of bytes; this is what being blurred is about.
  have hmixed (value : Int) (data : Bytes) (h : (x = .int value ∧ y = .bytes data)
      ∨ (x = .bytes data ∧ y = .int value)) : False :=
    hblur ⟨⟨text, hdx, hdy⟩, .inr ⟨rfl, value, data, h⟩⟩
  cases x with
  | int value =>
    cases y with
    | int value' =>
      have htext : Decimal.ofInt value = Decimal.ofInt value' :=
        Except.ok.inj (hdx.trans hdy.symm)
      rw [Decimal.ofInt_injective htext]
    | bytes data => exact (hmixed value data (.inl ⟨rfl, rfl⟩)).elim
    | string _ => cases hy
  | bytes data =>
    cases y with
    | int value => exact (hmixed value data (.inr ⟨rfl, rfl⟩)).elim
    | bytes data' =>
      have htext : Hex.encode data = Hex.encode data' := Except.ok.inj (hdx.trans hdy.symm)
      rw [Hex.encode_injective htext]
    | string _ => cases hy
  | string _ => cases hx

/-- **What is shown of a literal tells its binary form**, unless it is confused with another
one. -/
theorem optimize_eq_of_display (hx : Fits content x) (hy : Fits content y)
    (hblur : ¬Blurred content x y) (hdx : display content x = .ok text)
    (hdy : display content y = .ok text) (ha : optimize content x = .ok a)
    (hb : optimize content y = .ok b) : a = b := by
  have hx := hx.isOf
  have hy := hy.isOf
  cases content with
  | time => exact optimize_eq_of_display_time hx hy hdx hdy ha hb
  | identifier role =>
    refine optimize_eq_of_display_identifier hx hy hdx hdy ?_ ha hb
    by_contra hspells
    exact hblur ⟨⟨text, hdx, hdy⟩, .inl hspells⟩
  | field =>
    obtain rfl : x = a := by cases x <;> exact Except.ok.inj ha
    obtain rfl : y = b := by cases y <;> exact Except.ok.inj hb
    exact eq_of_display_field hx hy hblur hdx hdy
  | _ =>
    -- literals of one kind, shown as they are
    obtain rfl : x = a := by cases x <;> exact Except.ok.inj ha
    obtain rfl : y = b := by cases y <;> exact Except.ok.inj hb
    cases x <;> cases hx
    all_goals cases y <;> cases hy
    all_goals have htext := Except.ok.inj (hdx.trans hdy.symm)
    all_goals first
      | exact congrArg Literal.int (Decimal.ofInt_injective htext)
      | exact congrArg Literal.string htext
      | exact congrArg Literal.bytes (Hex.encode_injective htext)

/-- Literals that are confused have different binary forms. -/
theorem Blurred.optimize_ne (h : Blurred content x y) (ha : optimize content x = .ok a)
    (hb : optimize content y = .ok b) : a ≠ b := by
  rintro rfl
  rcases h.cause with hspells | ⟨rfl, value, data, ⟨rfl, rfl⟩ | ⟨rfl, rfl⟩⟩
  · cases content with
    | identifier role =>
      exact hspells
        ((spellsDefault_iff_of_optimize ha).symm.trans (spellsDefault_iff_of_optimize hb))
    | _ => exact hspells Iff.rfl
  · cases (Except.ok.inj ha).trans (Except.ok.inj hb).symm
  · cases (Except.ok.inj ha).trans (Except.ok.inj hb).symm

end Literal

/-! ### Values -/

/-- Whether the values of the type are expressions that are shown as their texts. -/
def Ty.isCode : Ty → Bool
  | .lambda _ _ _ => true
  | .saplingState _ _ => true
  | .saplingTransaction _ _ _ => true
  | .constant _ _ => true
  | _ => false

/-- A part and an earlier one that differ, though no mark says so.  Literals that are confused,
and code with names or annotations that are no words, are shown alike.  An empty big map that
has lost its pointer is not, since the earlier one shows the pointer, but a node without a
pointer is not looked at for that. -/
inductive Blurred : Typed → Typed → Prop
  | pointer {i key value id} :
      Blurred ⟨.bigMap i key value, .entries none []⟩ ⟨.bigMap i key value, .entries (some id) []⟩
  | scalar {i kind x y} (h : Literal.Blurred kind.content x y) :
      Blurred ⟨.scalar i kind, .literal x⟩ ⟨.scalar i kind, .literal y⟩
  | contract {i param x y} (h : Literal.Blurred (.identifier .address) x y) :
      Blurred ⟨.contract i param, .literal x⟩ ⟨.contract i param, .literal y⟩
  | code {ty : Ty} {n m : Node} (hty : ty.isCode = true) (hne : n ≠ m)
      (h : n.michelson = m.michelson) (hwords : ¬(n.IsWorded ∧ m.IsWorded)) :
      Blurred ⟨ty, .code n⟩ ⟨ty, .code m⟩

namespace Ty

/-- The two values have one binary form, as far as they have one at all. -/
def Agrees (ty : Ty) (v w : Val) : Prop :=
  ∀ m n, ty.binaryForm v = .ok m → ty.binaryForm w = .ok n → m = n

theorem Agrees.of_eq {ty : Ty} {v w : Val} (h : ty.binaryForm v = ty.binaryForm w) :
    ty.Agrees v w := by
  intro m n hm hn
  exact Except.ok.inj (hm.symm.trans (h.trans hn))

theorem SameBinary.agrees {ty : Ty} {v w : Val} (h : ty.SameBinary v w) : ty.Agrees v w := by
  obtain ⟨n, hv, hw⟩ := h
  exact .of_eq (hv.trans hw.symm)

/-- What one text is shown of. -/
theorem display_of_shown {content : Content} {x y : Literal} {shown : Option Shown}
    (hx : (do return some (.text (← x.display content))) = Except.ok (ε := Error) shown)
    (hy : (do return some (.text (← y.display content))) = Except.ok (ε := Error) shown) :
    ∃ text, x.display content = .ok text ∧ y.display content = .ok text := by
  obtain ⟨text, hdx, hx⟩ := bind_eq_ok_iff.1 hx
  obtain ⟨text', hdy, hy⟩ := bind_eq_ok_iff.1 hy
  obtain rfl := Shown.text.inj
    (Option.some.inj ((pure_eq_ok_iff.1 hx).trans (pure_eq_ok_iff.1 hy).symm))
  exact ⟨text, hdx, hdy⟩

/-- Literals whose binary forms are equal are written alike. -/
theorem agrees_literal {ty : Ty} {content : Content} {x y : Literal}
    (hty : ty.HasLiteral content)
    (h : ∀ a b, x.optimize content = .ok a → y.optimize content = .ok b → a = b) :
    ty.Agrees (.literal x) (.literal y) := by
  intro m n hm hn
  rw [binaryForm_literal hty, map_eq_ok_iff] at hm hn
  obtain ⟨a, ha, rfl⟩ := hm
  obtain ⟨b, hb, rfl⟩ := hn
  rw [h a b ha hb]

variable {ty : Ty}

/-- Code that is shown alike is equal, unless it is confused with other code. -/
theorem agrees_code {n m : Node} (hty : ty.isCode = true)
    (hblur : ¬Blurred ⟨ty, .code n⟩ ⟨ty, .code m⟩) (h : n.michelson = m.michelson) :
    ty.Agrees (.code n) (.code m) := by
  by_cases hne : n = m
  · exact .of_eq (by rw [hne])
  · refine absurd (.code hty hne h fun hwords => hne ?_) hblur
    exact Node.michelson_injective hwords.1 hwords.2 h

/-- **What is shown of a value without parts tells its binary form**, unless it is confused with
another one. -/
theorem agrees_of_shown {loaded : Bool} {v w : Val} {shown : Option Shown}
    (hty : ty.isLeaf = true) (hv : ty.Holds loaded v) (hw : ty.Holds loaded w)
    (hblur : ¬Blurred ⟨ty, v⟩ ⟨ty, w⟩) (hsv : ty.shown v = .ok shown)
    (hsw : ty.shown w = .ok shown) : ty.Agrees v w := by
  -- Code is shown as its source text.
  have htexts {n m : Node} (hn : Except.ok (ε := Error) (some (Shown.text n.michelson)) = .ok shown)
      (hm : Except.ok (ε := Error) (some (Shown.text m.michelson)) = .ok shown) :
      n.michelson = m.michelson :=
    Shown.text.inj (Option.some.inj (Except.ok.inj (hn.trans hm.symm)))
  cases hv with
  | unit =>
    cases hw
    exact .of_eq rfl
  | bool =>
    cases hw
    obtain rfl := Shown.flag.inj (Option.some.inj (Except.ok.inj (hsv.trans hsw.symm)))
    exact .of_eq rfl
  | scalar hx =>
    cases hw with
    | scalar hy =>
      obtain ⟨text, hdx, hdy⟩ := display_of_shown hsv hsw
      exact agrees_literal .scalar fun a b ha hb =>
        Literal.optimize_eq_of_display hx hy (fun h => hblur (.scalar h)) hdx hdy ha hb
  | contract hx =>
    cases hw with
    | contract hy =>
      obtain ⟨text, hdx, hdy⟩ := display_of_shown hsv hsw
      exact agrees_literal .contract fun a b ha hb =>
        Literal.optimize_eq_of_display hx hy (fun h => hblur (.contract h)) hdx hdy ha hb
  | lambda _ =>
    cases hw with
    | lambda _ => exact agrees_code rfl hblur (htexts hsv hsw)
  | saplingState _ =>
    cases hw with
    | saplingState _ => exact agrees_code rfl hblur (htexts hsv hsw)
  | saplingTransaction _ =>
    cases hw with
    | saplingTransaction _ => exact agrees_code rfl hblur (htexts hsv hsw)
  | constant =>
    cases hw with
    | constant => exact agrees_code rfl hblur (htexts hsv hsw)
  | _ => cases hty

/-- A value without parts that has no mark beside an earlier one is shown as that. -/
theorem shown_of_shellDiff {v w : Val} {s : Presentation} (hty : ty.isLeaf = true)
    (h : ty.shellDiff v w = .ok s) (hs : s.change = none) :
    ∃ shown, ty.shown v = .ok shown ∧ ty.shown w = .ok shown := by
  obtain ⟨p, after, before, -, hafter, hbefore, rfl⟩ := (shellDiff_leaf_eq_ok_iff hty).1 h
  by_cases heq : after = before
  · subst heq
    exact ⟨after, hafter, hbefore⟩
  · rw [if_neg heq] at hs
    cases hs

end Ty

end Micheline
