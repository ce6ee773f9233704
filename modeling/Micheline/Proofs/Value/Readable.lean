/-
Micheline/Proofs/Value/Readable.lean

The readable form and the binary form.  The readable form of a literal has the binary form of
the literal itself, but for the name of the default entrypoint, which is not written behind
an address (`Literal.optimize_of_readable`).  A point in time is read back where its year has
four digits; the texts of other years are not read.

The readable form of a value is taken literal by literal, so that what it settles to is
written in binary form as the value is, with every pair nested
(`Ty.exists_settle_of_project_readable`).
-/
import Micheline.Proofs.Calendar.Timestamp
import Micheline.Proofs.Identifier.RoundTrip
import Micheline.Proofs.Value.Nested

namespace Micheline

open Calendar Identifier

/-! ### Literals -/

namespace Literal

/-- A point in time that has a text, with a year that is not of four digits. -/
def IsDistant : Content → Literal → Prop
  | .time, .int value => (Timestamp.text? value).isSome = true ∧ ¬Timestamp.HasPlainYear value
  | _, _ => False

/-- The bytes of an address with the name of the default entrypoint behind them. -/
def SpellsDefault : Content → Literal → Prop
  | .identifier role, .bytes data => role.SpellsDefault data
  | _, _ => False

instance : ∀ (content : Content) (l : Literal), Decidable (IsDistant content l)
  | .time, .int _ => inferInstanceAs (Decidable (_ ∧ _))
  | .time, .string _ | .time, .bytes _ => isFalse id
  | .integer, _ | .natural, _ | .text, _ | .bytes, _ | .blob, _ | .field, _
  | .identifier _, _ => isFalse id

instance : ∀ (content : Content) (l : Literal), Decidable (SpellsDefault content l)
  | .identifier role, .bytes data => inferInstanceAs (Decidable (role.SpellsDefault data))
  | .identifier _, .int _ | .identifier _, .string _ => isFalse id
  | .integer, _ | .natural, _ | .text, _ | .bytes, _ | .blob, _ | .field, _ | .time, _ =>
    isFalse id

/-- The literal without the name of the default entrypoint. -/
def dropDefault : Content → Literal → Literal
  | .identifier role, .bytes data => .bytes (role.dropDefault data)
  | _, l => l

variable {content : Content} {l r : Literal}

/-- What the readable form of a literal is: that of most literals is the literal itself. -/
theorem readable_cases (h : readable content l = .ok r) :
    (r = l ∧ ¬SpellsDefault content l)
      ∨ (∃ value text, content = .time ∧ l = .int value ∧ Timestamp.text? value = some text
        ∧ r = .string text)
      ∨ ∃ role data text, content = .identifier role ∧ l = .bytes data
        ∧ role.ofBytes data = .ok text ∧ r = .string text := by
  cases l with
  | int value =>
    have hnot : ¬SpellsDefault content (.int value) := by
      cases content <;> exact id
    cases content with
    | time =>
      have h : Except.ok (((Timestamp.text? value).map Literal.string).getD (.int value))
        = .ok r := h
      rcases htext : Timestamp.text? value with - | text
      · rw [htext] at h
        exact .inl ⟨(Except.ok.inj h).symm, hnot⟩
      · rw [htext] at h
        exact .inr (.inl ⟨value, text, rfl, rfl, htext, (Except.ok.inj h).symm⟩)
    | _ => exact .inl ⟨(Except.ok.inj h).symm, hnot⟩
  | bytes data =>
    cases content with
    | identifier role =>
      have h : (lift .identifier (role.ofBytes data) >>= fun text => pure (Literal.string text))
        = .ok r := h
      obtain ⟨text, htext, h⟩ := bind_eq_ok_iff.1 h
      exact .inr (.inr ⟨role, data, text, rfl, rfl, lift_eq_ok_iff.1 htext,
        (pure_eq_ok_iff.1 h).symm⟩)
    | _ => exact .inl ⟨(Except.ok.inj h).symm, id⟩
  | string text =>
    have hnot : ¬SpellsDefault content (.string text) := by
      cases content <;> exact id
    exact .inl ⟨(Except.ok.inj h).symm, hnot⟩

theorem dropDefault_eq_self (h : ¬SpellsDefault content l) : dropDefault content l = l := by
  cases content with
  | identifier role =>
    cases l with
    | bytes data => exact congrArg Literal.bytes (Role.dropDefault_of_not h)
    | _ => rfl
  | _ => rfl

/-- No default entrypoint is left in a binary form unless it was in the literal. -/
theorem map_dropDefault_optimize (h : ¬SpellsDefault content l) :
    (optimize content l).map (dropDefault content) = optimize content l := by
  rcases hm : optimize content l with e | m
  · rfl
  refine congrArg Except.ok (dropDefault_eq_self ?_)
  cases content with
  | identifier role =>
    cases l with
    | string text =>
      obtain ⟨data, hdata, hm⟩ := bind_eq_ok_iff.1 hm
      obtain rfl := pure_eq_ok_iff.1 hm
      exact Role.not_spellsDefault_of_toBytesWith (lift_eq_ok_iff.1 hdata)
    | _ =>
      obtain rfl := Except.ok.inj hm
      exact h
  | _ => exact id

/-- **The readable form has the binary form of the literal**, without a default entrypoint. -/
theorem optimize_of_readable (h : readable content l = .ok r) (hl : ¬IsDistant content l) :
    optimize content r = (optimize content l).map (dropDefault content) := by
  obtain ⟨rfl, hnot⟩ | ⟨value, text, rfl, rfl, htext, rfl⟩
    | ⟨role, data, text, rfl, rfl, htext, rfl⟩ := readable_cases h
  · -- the literal stays, and its bytes have no default entrypoint
    exact (map_dropDefault_optimize hnot).symm
  · have hyear : Timestamp.HasPlainYear value := by
      by_contra hyear
      exact hl ⟨by rw [htext]; rfl, hyear⟩
    show (lift (.timestamp text) (Timestamp.parse text) >>= _) = _
    rw [Timestamp.parse_of_text? htext hyear]
    rfl
  · show (lift .identifier (role.toBytes text) >>= _) = _
    rw [Role.toBytes_of_ofBytes htext]
    rfl

/-- Where no default entrypoint is spelled, the readable form has the literal's binary form. -/
theorem optimize_of_readable_of_not (h : readable content l = .ok r) (hl : ¬IsDistant content l)
    (hnot : ¬SpellsDefault content l) : optimize content r = optimize content l :=
  (optimize_of_readable h hl).trans (map_dropDefault_optimize hnot)

/-! ### Default entrypoints -/

/-- A dropped entrypoint is not spelled any more. -/
theorem not_spellsDefault_dropDefault (content : Content) (l : Literal) :
    ¬SpellsDefault content (dropDefault content l) := by
  cases content with
  | identifier role =>
    cases l with
    | bytes data => exact Role.not_spellsDefault_dropDefault role data
    | _ => exact id
  | _ => exact id

theorem not_isDistant_dropDefault (hl : ¬IsDistant content l) :
    ¬IsDistant content (dropDefault content l) := by
  cases content with
  | identifier role => exact id
  | _ => exact hl

/-- A literal without a default entrypoint has the same readable form. -/
theorem readable_dropDefault (h : readable content l = .ok r) :
    readable content (dropDefault content l) = .ok r := by
  cases content with
  | identifier role =>
    cases l with
    | bytes data =>
      obtain ⟨text, htext, h⟩ := bind_eq_ok_iff.1 h
      have hdropped := Role.ofBytes_dropDefault (lift_eq_ok_iff.1 htext)
      exact bind_eq_ok_iff.2 ⟨text, lift_eq_ok_iff.2 hdropped, h⟩
    | _ => exact h
  | _ => exact h

/-- The bytes of an address have one readable form with the default entrypoint and without it,
and its binary form is without it. -/
theorem readable_default {body : Bytes} {text : String} (hlen : body.length = Address.width)
    (h : Address.ofBody body = .ok text) :
    readable (.identifier .address) (.bytes body) = .ok (.string text)
      ∧ readable (.identifier .address)
          (.bytes (body ++ Utf8.encode Address.defaultEntrypoint)) = .ok (.string text)
      ∧ optimize (.identifier .address) (.string text) = .ok (.bytes body) := by
  have htext : readable (.identifier .address) (.bytes body) = .ok (.string text) :=
    bind_eq_ok_iff.2 ⟨text, lift_eq_ok_iff.2 (Address.ofBytesWith_of_ofBodyWith hlen h), rfl⟩
  have hnot : ¬SpellsDefault (.identifier .address) (.bytes body) :=
    Address.not_spellsDefault_of_length (Nat.le_of_eq hlen)
  refine ⟨htext, ?_, optimize_of_readable_of_not htext id hnot⟩
  exact bind_eq_ok_iff.2 ⟨text, lift_eq_ok_iff.2 (Address.ofBytesWith_append_default hlen h), rfl⟩

/-- The readable form has the place of the literal in the order. -/
theorem ranksAs_of_readable (h : readable content l = .ok r) (hl : ¬IsDistant content l)
    (hnot : ¬SpellsDefault content l) : RanksAs content l r := by
  have hr : optimize content r = optimize content l := optimize_of_readable_of_not h hl hnot
  rcases hm : optimize content l with e | m
  · -- only texts have no binary form, and these are readable as they are
    cases l with
    | string text =>
      have h : (Except.ok (Literal.string text) : Except Error Literal) = .ok r := h
      exact Except.ok.inj h ▸ .refl _ _
    | int value | bytes data => cases hm
  · have hlm := ranksAs_optimize hm
    have hrm := ranksAs_optimize (hr.trans hm)
    exact fun prim x => ⟨(hlm prim x).1.trans (hrm prim x).1.symm,
      (hlm prim x).2.trans (hrm prim x).2.symm⟩

/-! ### Literals in expressions -/

/-- The expression of a literal without the name of the default entrypoint. -/
def withoutDefault (content : Content) : Node → Node
  | .bytes data => (dropDefault content (.bytes data)).node
  | n => n

theorem withoutDefault_node (content : Content) (l : Literal) :
    withoutDefault content l.node = (dropDefault content l).node := by
  cases l with
  | bytes data => rfl
  | _ => cases content <;> rfl

/-- The readable form has a binary form that is written as `leaf` makes the one of the literal. -/
def ReadsBack (leaf : Content → Node → Node) (content : Content) (l : Literal) : Prop :=
  ∀ r, readable content l = .ok r →
    (optimize content r >>= fun m => pure m.node : Except Error Node)
      = (optimize content l >>= fun m => pure (leaf content m.node))

/-- Without default entrypoints literals read back. -/
theorem readsBack_withoutDefault (hl : ¬IsDistant content l) :
    ReadsBack withoutDefault content l := by
  intro r hr
  rw [optimize_of_readable hr hl]
  rcases optimize content l with e | m
  · rfl
  · exact congrArg Except.ok (withoutDefault_node content m).symm

theorem readsBack_self (hl : ¬IsDistant content l) (hnot : ¬SpellsDefault content l) :
    ReadsBack (fun _ n => n) content l := by
  intro r hr
  rw [optimize_of_readable_of_not hr hl hnot]

end Literal

/-- The readable form keeps literals in their types, and texts stay. -/
theorem isStable_readable : ValueForm.readable.IsStable where
  fits {content l l'} h hl := by
    obtain ⟨rfl, -⟩ | ⟨value, text, rfl, rfl, -, rfl⟩ | ⟨role, data, text, rfl, rfl, -, rfl⟩ :=
      Literal.readable_cases h
    · exact hl
    · exact ⟨rfl, nofun⟩
    · exact ⟨rfl, nofun⟩
  idem {content l l'} h := by
    obtain ⟨rfl, -⟩ | ⟨value, text, rfl, rfl, -, rfl⟩ | ⟨role, data, text, rfl, rfl, -, rfl⟩ :=
      Literal.readable_cases h
    · exact h
    · rfl
    · rfl

/-! ### Values -/

namespace Ty

open Literal

variable {leaf : Content → Node → Node} {loaded : Bool}

/-- An entry is written of its restated key and value. -/
theorem projectEntry_of_restateEntry {key value : Ty} {p q : Val × Val}
    (hk : ∀ k, key.restate .readable p.1 = .ok k →
      key.project .optimized k = key.writeNested leaf .optimized p.1)
    (hv : ∀ v, value.restate .readable p.2 = .ok v →
      value.project .optimized v = value.writeNested leaf .optimized p.2)
    (hq : restate.restateEntry (key.restate .readable) (value.restate .readable) p = .ok q) :
    project.projectEntry (key.project .optimized) (value.project .optimized) q
      = project.projectEntry (key.writeNested leaf .optimized)
          (value.writeNested leaf .optimized) p := by
  obtain ⟨hqk, hqv⟩ := restateEntry_eq_ok_iff.1 hq
  rw [project.projectEntry, project.projectEntry, hk _ hqk, hv _ hqv]

/-- The items of a list or a set in readable form, in binary form. -/
theorem project_items_of_restate {ty elem : Ty} {values vs : List Val} (hty : ty.HasItems elem)
    (hl : ∀ x ∈ values.flatMap elem.literals, ReadsBack leaf x.1 x.2)
    (ih : ∀ u ∈ values, ∀ u', (∀ x ∈ elem.literals u, ReadsBack leaf x.1 x.2) →
      elem.restate .readable u = .ok u' →
      elem.project .optimized u' = elem.writeNested leaf .optimized u)
    (hvs : values.mapM (elem.restate .readable) = .ok vs) :
    ty.project .optimized (.items vs) = ty.writeNested leaf .optimized (.items values) := by
  rw [writeNested_items hty, project_items hty, mapM_eq_of_mapM hvs fun u hu u' hu' =>
    ih u hu u' (fun x hx => hl x (List.mem_flatMap.2 ⟨u, hu, hx⟩)) hu']

/-- The entries of a map or a big map in readable form, in binary form. -/
theorem project_entries_of_restate {ty key value : Ty} {pointer : Option Int}
    {pairs qs : List (Val × Val)} (hty : ty.HasEntries key value)
    (hpairs : pointer = none ∨ pairs ≠ [])
    (hl : ∀ x ∈ pairs.flatMap (fun p => key.literals p.1 ++ value.literals p.2),
      ReadsBack leaf x.1 x.2)
    (ihk : ∀ p ∈ pairs, ∀ k, (∀ x ∈ key.literals p.1, ReadsBack leaf x.1 x.2) →
      key.restate .readable p.1 = .ok k →
      key.project .optimized k = key.writeNested leaf .optimized p.1)
    (ihv : ∀ p ∈ pairs, ∀ v, (∀ x ∈ value.literals p.2, ReadsBack leaf x.1 x.2) →
      value.restate .readable p.2 = .ok v →
      value.project .optimized v = value.writeNested leaf .optimized p.2)
    (hqs : pairs.mapM (restate.restateEntry (key.restate .readable) (value.restate .readable))
      = .ok qs) :
    ty.project .optimized (.entries none qs)
      = ty.writeNested leaf .optimized (.entries pointer pairs) := by
  have hentries : qs.mapM (project.projectEntry (key.project .optimized) (value.project .optimized))
      = pairs.mapM (project.projectEntry (key.writeNested leaf .optimized)
          (value.writeNested leaf .optimized)) := by
    apply mapM_eq_of_mapM hqs
    intro p hp q hq
    obtain ⟨hkl, hvl⟩ := List.forall_mem_append.1 fun x hx => hl x (List.mem_flatMap.2 ⟨p, hp, hx⟩)
    exact projectEntry_of_restateEntry (fun k => ihk p hp k hkl) (fun v => ihv p hp v hvl) hq
  rw [writeNested_entries hty hpairs, project_entries hty (.inl rfl), hentries]

/-- **A value in readable form is written in binary form as the value is**, with every pair
nested. -/
theorem project_optimized_of_restate {ty : Ty} {v v' : Val} (hv : Holds loaded ty v)
    (hl : ∀ x ∈ ty.literals v, ReadsBack leaf x.1 x.2) (h : ty.restate .readable v = .ok v') :
    ty.project .optimized v' = ty.writeNested leaf .optimized v := by
  induction hv generalizing v' with
  | @bool i b =>
    obtain rfl := Except.ok.inj h
    cases b <;> rfl
  | scalar _ =>
    obtain ⟨r, hr, h⟩ := bind_eq_ok_iff.1 h
    obtain rfl := pure_eq_ok_iff.1 h
    rw [writeNested_literal .scalar]
    exact hl _ List.mem_cons_self r hr
  | contract _ =>
    obtain ⟨r, hr, h⟩ := bind_eq_ok_iff.1 h
    obtain rfl := pure_eq_ok_iff.1 h
    rw [writeNested_literal .contract]
    exact hl _ List.mem_cons_self r hr
  | pair ha hb hcomb iha ihb =>
    obtain ⟨hla, hlb⟩ := List.forall_mem_append.1 hl
    obtain ⟨a', ha', h⟩ := bind_eq_ok_iff.1 h
    obtain ⟨b', hb', h⟩ := bind_eq_ok_iff.1 h
    obtain rfl := pure_eq_ok_iff.1 h
    rw [writeNested_pair (.pair ha hb hcomb), ← iha hla ha', ← ihb hlb hb', project]
    -- all pairs are binary in readable form
    rfl
  | left _ ih =>
    obtain ⟨a', ha', h⟩ := bind_eq_ok_iff.1 h
    obtain rfl := pure_eq_ok_iff.1 h
    rw [project, ih hl ha']
    exact (writeNested_val .left).symm
  | right _ ih =>
    obtain ⟨b', hb', h⟩ := bind_eq_ok_iff.1 h
    obtain rfl := pure_eq_ok_iff.1 h
    rw [project, ih hl hb']
    exact (writeNested_val .right).symm
  | some _ ih =>
    obtain ⟨a', ha', h⟩ := bind_eq_ok_iff.1 h
    obtain rfl := pure_eq_ok_iff.1 h
    rw [writeNested_some, ← ih hl ha', project]
  | list _ ih =>
    obtain ⟨vs, hvs, h⟩ := bind_eq_ok_iff.1 h
    obtain rfl := pure_eq_ok_iff.1 h
    exact project_items_of_restate .list hl (fun u hu _ => ih u hu) hvs
  | set _ _ ih =>
    obtain ⟨vs, hvs, h⟩ := bind_eq_ok_iff.1 h
    obtain rfl := pure_eq_ok_iff.1 h
    exact project_items_of_restate .set hl (fun u hu _ => ih u hu) hvs
  | map _ _ _ ihk ihv =>
    obtain ⟨qs, hqs, h⟩ := bind_eq_ok_iff.1 h
    obtain rfl := pure_eq_ok_iff.1 h
    exact project_entries_of_restate .map (.inl rfl) hl (fun p hp _ => ihk p hp)
      (fun p hp _ => ihv p hp) hqs
  | bigMap _ _ _ ihk ihv =>
    obtain ⟨qs, hqs, h⟩ := bind_eq_ok_iff.1 h
    obtain rfl := pure_eq_ok_iff.1 h
    rw [ite_self]
    exact project_entries_of_restate .bigMap (.inl rfl) hl (fun p hp _ => ihk p hp)
      (fun p hp _ => ihv p hp) hqs
  | @loaded i key value id pairs _ _ _ _ _ ihk ihv =>
    obtain ⟨qs, hqs, h⟩ := bind_eq_ok_iff.1 h
    obtain rfl := pure_eq_ok_iff.1 h
    by_cases hp : pairs = []
    · -- a pointer alone is written as it is
      subst hp
      obtain rfl := Except.ok.inj hqs
      rfl
    · -- entries are written in place of the pointer
      rw [if_neg (by simpa using hp)]
      exact project_entries_of_restate .bigMap (.inr hp) hl (fun p hp _ => ihk p hp)
        (fun p hp _ => ihv p hp) hqs
  | ticket _ ih => exact ih hl h
  | _ =>
    -- the others stay as they are
    obtain rfl := Except.ok.inj h
    rfl

/-- **What is written in readable form settles**, to a value that is written in binary form as
the original is, if elements and keys ascend without default entrypoints too. -/
theorem exists_settle_of_project_readable {ty : Ty} {v : Val} {n : Node} (hv : Holds loaded ty v)
    (hdropped : Holds loaded ty (ty.mapLiterals dropDefault v))
    (hdistant : ∀ x ∈ ty.literals v, ¬IsDistant x.1 x.2) (h : ty.project .readable v = .ok n) :
    ∃ v', ty.settle n = .ok v'
      ∧ ∀ leaf, (∀ x ∈ ty.literals v, ReadsBack leaf x.1 x.2) →
        ty.project .optimized v' = ty.writeNested leaf .optimized v := by
  obtain ⟨v', hr, hn⟩ := exists_restate_of_project hv h
  -- the readable form is that of a value without default entrypoints, which keeps all ranks
  have hr' : ty.restate .readable (ty.mapLiterals dropDefault v) = .ok v' :=
    restate_mapLiterals hv (fun _ _ _ => readable_dropDefault) hr
  have hrank : ValueForm.readable.KeepsRank (ty.literals (ty.mapLiterals dropDefault v)) := by
    intro y hy r hyr
    rw [literals_mapLiterals] at hy
    obtain ⟨x, hx, rfl⟩ := List.mem_map.1 hy
    exact ranksAs_of_readable hyr (not_isDistant_dropDefault (hdistant x hx))
      (not_spellsDefault_dropDefault x.1 x.2)
  refine ⟨v', settle_of_restate isStable_readable hdropped hrank hr' hn, fun leaf hl => ?_⟩
  exact project_optimized_of_restate hv hl hr

end Ty

end Micheline
