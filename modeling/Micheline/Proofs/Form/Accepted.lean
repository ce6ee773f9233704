/-
Micheline/Proofs/Form/Accepted.lean

What submissions settle as.  Whatever expression a submission is read as, all literals of the
value that it settles as are ones that a form takes (`Ty.isAccepting_of_submit`).  Code is not
looked at in this way, and the types of code are left out.
-/
import Micheline.Proofs.Form.Literal
import Micheline.Proofs.Form.Plain
import Micheline.Proofs.Form.Submission

namespace Micheline

open Submission

namespace Ty

/-- All literals in the value are as a form takes them. -/
def IsAccepted (ty : Ty) (v : Val) : Prop :=
  ∀ x ∈ ty.literals v, x.2.IsAccepted x.1

/-- What the expression settles as has only literals as a form takes them. -/
def IsAccepting (ty : Ty) (n : Node) : Prop :=
  ∀ v, ty.settle n = .ok v → ty.IsAccepted v

variable {i : Info} {left right inner elem key value ty : Ty} {n first second : Node}
  {data : Json}

theorem isAccepting_unit : (unit i).IsAccepting n := by
  intro v hv
  obtain ⟨rfl, -⟩ := settle_unit_eq_ok_iff.1 hv
  exact nofun

theorem isAccepting_bool : (bool i).IsAccepting n := by
  intro v hv
  obtain ⟨b, -, -, rfl, -⟩ := settle_bool_eq_ok_iff.1 hv
  exact nofun

theorem isAccepting_literal {content : Content} {l : Literal} (hty : ty.HasLiteral content)
    (h : l.IsAccepted content) : ty.IsAccepting l.node := by
  intro v hv
  obtain ⟨l', rfl, hl, -⟩ := (settle_literal_eq_ok_iff hty).1 hv
  obtain rfl := Literal.node_injective hl
  cases hty <;> exact List.forall_mem_singleton.2 h

theorem isAccepting_pair (h₁ : left.IsAccepting first) (h₂ : right.IsAccepting second) :
    (pair i left right).IsAccepting (.app "Pair" [first, second]) := by
  intro v hv
  obtain ⟨_, _, _, a, b, hsplits, ha, hb, rfl⟩ := settle_pair_eq_ok_iff.1 hv
  cases hsplits with
  | pair => exact List.forall_mem_append.2 ⟨h₁ a ha, h₂ b hb⟩
  | joinedPair _ hrest => exact absurd hrest (by simp)

/-- A value under a side settles to that side of the choice. -/
theorem settle_wrap {side : Side} :
    (or i left right).settle (wrap [side] n)
      = ((side.pick left right).settle n).map side.val := by
  cases side with
  | left =>
    show (left.settle n >>= fun a => pure (Val.left a)) = (left.settle n).map Val.left
    cases left.settle n <;> rfl
  | right =>
    show (right.settle n >>= fun b => pure (Val.right b)) = (right.settle n).map Val.right
    cases right.settle n <;> rfl

theorem isAccepting_side (side : Side) (h : (side.pick left right).IsAccepting n) :
    (or i left right).IsAccepting (wrap [side] n) := by
  intro v hv
  rw [settle_wrap] at hv
  obtain ⟨a, ha, rfl⟩ := map_eq_ok_iff.1 hv
  cases side with
  | left => exact h a ha
  | right => exact h a ha

/-- A leaf at the end of its path. -/
theorem isAccepting_wrap {leaf : Ty} {path : List Side} (hleaf : (path, leaf) ∈ ty.leaves)
    (h : leaf.IsAccepting n) : ty.IsAccepting (wrap path n) := by
  induction path generalizing ty with
  | nil => exact absurd rfl (follow?_of_mem_leaves hleaf).1
  | cons side rest ih =>
    cases ty with
    | or i left right =>
      obtain ⟨side', rest', hpath, hrest⟩ := mem_leaves_or_iff.1 hleaf
      obtain ⟨rfl, rfl⟩ := List.cons.inj hpath
      refine isAccepting_side side ?_
      obtain ⟨-, hinner⟩ | ⟨-, rfl, rfl⟩ := mem_branchEntries_iff.1 hrest
      · exact ih hinner
      · exact h
    | _ => cases hleaf

theorem isAccepting_none : (option i inner).IsAccepting (.app "None" []) := by
  intro v hv
  obtain ⟨-, -, rfl⟩ | ⟨arg, a, annots, he, -⟩ := settle_option_eq_ok_iff.1 hv
  · exact nofun
  · exact absurd (Node.prim.inj he).1 (by decide)

theorem isAccepting_some (h : inner.IsAccepting n) :
    (option i inner).IsAccepting (.app "Some" [n]) := by
  intro v hv
  obtain ⟨annots, he, -⟩ | ⟨arg, a, annots, he, ha, rfl⟩ := settle_option_eq_ok_iff.1 hv
  · exact absurd (Node.prim.inj he).1 (by decide)
  · obtain rfl := (List.cons.inj (Node.prim.inj he).2.1).1
    exact h a ha

/-! #### Collections -/

section Items

variable {items : List Node}

theorem isAccepting_items (hty : ty.HasItems elem) (h : ∀ item ∈ items, elem.IsAccepting item) :
    ty.IsAccepting (.seq items) := by
  intro v hv
  obtain ⟨values, done, hvalues, rfl, hmem⟩ := exists_items_of_settle hty hv
  have hdone : ∀ v ∈ done, elem.IsAccepted v := by
    intro v hv
    obtain ⟨item, hitem, hsettle⟩ := exists_of_mem_mapM hvalues v (hmem v hv)
    exact h item hitem v hsettle
  cases hty <;> exact List.forall_mem_flatMap.2 hdone

/-- The expression is an entry with a key and a value of these types. -/
def IsAcceptingEntry (key value : Ty) (n : Node) : Prop :=
  ∃ k v, n = .app "Elt" [k, v] ∧ key.IsAccepting k ∧ value.IsAccepting v

/-- The literals of a map that was made are those of its entries, so they are accepted too. -/
theorem isAccepted_of_entries {pairs done : List (Val × Val)}
    (h : ∀ item ∈ items, IsAcceptingEntry key value item)
    (hpairs : items.mapM (settleEntry key value) = .ok pairs)
    (hdone : pairs.foldlM (Sorted.put key.compare) [] = .ok done) :
    ∀ x ∈ done.flatMap fun p => key.literals p.1 ++ value.literals p.2, x.2.IsAccepted x.1 := by
  have hmade : ∀ p ∈ pairs, key.IsAccepted p.1 ∧ value.IsAccepted p.2 := by
    intro p hp
    obtain ⟨item, hitem, hsettle⟩ := exists_of_mem_mapM hpairs p hp
    obtain ⟨k, v, rfl, hkey, hvalue⟩ := h item hitem
    obtain ⟨k', v', annots, he, hk, hv⟩ := settleEntry_eq_ok_iff.1 hsettle
    obtain ⟨rfl, hrest⟩ := List.cons.inj (Node.prim.inj he).2.1
    obtain ⟨rfl, -⟩ := List.cons.inj hrest
    exact ⟨hkey _ hk, hvalue _ hv⟩
  have hdone' := (isOrder_compare key).forall_mem_of_foldlM_put hdone hmade
  exact List.forall_mem_flatMap.2 fun p hp => List.forall_mem_append.2 (hdone' p hp)

theorem isAccepting_entries (hty : ty.HasEntries key value)
    (h : ∀ item ∈ items, IsAcceptingEntry key value item) : ty.IsAccepting (.seq items) := by
  intro v hv
  obtain ⟨pairs, done, hpairs, hdone, rfl⟩ := (settle_entries_eq_ok_iff hty).1 hv
  cases hty <;> exact isAccepted_of_entries h hpairs hdone

end Items

/-! ### Reading submissions -/

/-- Whatever data the type takes, the expression is accepting. -/
def TakesAccepting (ty : Ty) : Prop :=
  ∀ data n, ty.submit data = .ok n → ty.IsAccepting n

/-- A member is the unit, or it is read from its data. -/
theorem of_member {ms : List (String × Json)} (h : member ty ty.submit ms = .ok n) :
    (∃ i, ty = unit i) ∨ ∃ data, ty.submit data = .ok n := by
  rw [member] at h
  split at h
  next hunit =>
    cases ty with
    | unit i => exact .inl ⟨i, rfl⟩
    | _ => cases hunit
  next =>
    split at h
    next data _ => exact .inr ⟨data, h⟩
    next => cases h

/-- What is read of a member of an object is accepted, a unit that has no member included. -/
theorem isAccepting_of_member {ms : List (String × Json)} (hty : ty.TakesAccepting)
    (h : member ty ty.submit ms = .ok n) : ty.IsAccepting n := by
  obtain ⟨i, rfl⟩ | ⟨data, h⟩ := of_member h
  · exact isAccepting_unit
  · exact hty data n h

theorem isAcceptingEntry_of_submitEntry {ty key value : Ty} {item : Json}
    (hkey : key.TakesAccepting) (hvalue : value.TakesAccepting)
    (h : Typed.submitEntry ty key value item = .ok n) : IsAcceptingEntry key value n := by
  obtain ⟨ms, -, h⟩ := bind_eq_ok_iff.1 h
  obtain ⟨k, hk, h⟩ := bind_eq_ok_iff.1 h
  obtain ⟨v, hv, h⟩ := bind_eq_ok_iff.1 h
  obtain rfl := pure_eq_ok_iff.1 h
  exact ⟨k, v, rfl, isAccepting_of_member hkey hk, isAccepting_of_member hvalue hv⟩

/-- What a form takes for a pair is the pair of what it takes for the two parts. -/
theorem takesAccepting_pair (hleft : left.TakesAccepting) (hright : right.TakesAccepting) :
    (pair i left right).TakesAccepting := by
  intro data n h
  -- A part is submitted with the members around it if it is a pair, else under its own name.
  have hpart {c : Ty} {n : Node} {ms : List (String × Json)} (hc : c.TakesAccepting)
      (h : Typed.submitPart c ms = .ok n) : c.IsAccepting n := by
    rw [Typed.submitPart] at h
    split at h
    next => exact hc _ n h
    next => exact isAccepting_of_member hc h
  cases data with
  | obj ms =>
    rw [Typed.submit_pair] at h
    obtain ⟨first, hfirst, h⟩ := bind_eq_ok_iff.1 h
    obtain ⟨second, hsecond, h⟩ := bind_eq_ok_iff.1 h
    obtain rfl := pure_eq_ok_iff.1 h
    exact isAccepting_pair (hpart hleft hfirst) (hpart hright hsecond)
  | _ =>
    rw [submit] at h
    cases h

/-- What a form takes for a choice is what it takes for one of its leaves, with the sides around
it. -/
theorem takesAccepting_or
    (hleaves : ∀ leaf ∈ (or i left right).leaves, leaf.2.TakesAccepting) :
    (or i left right).TakesAccepting := by
  intro data n h
  rw [submit] at h
  obtain ⟨ms, -, h⟩ := bind_eq_ok_iff.1 h
  obtain ⟨branch, -, h⟩ := bind_eq_ok_iff.1 h
  split at h
  next leaf hfind =>
    obtain ⟨m, hm, h⟩ := bind_eq_ok_iff.1 h
    obtain rfl := pure_eq_ok_iff.1 h
    have hleaf := List.mem_of_find?_eq_some hfind
    exact isAccepting_wrap hleaf (isAccepting_of_member (hleaves leaf hleaf) hm)
  next => cases h

/-- What a form takes for an option is none, or what it takes for the value. -/
theorem takesAccepting_option (hinner : inner.TakesAccepting) :
    (option i inner).TakesAccepting := by
  intro data n h
  rw [submit] at h
  obtain ⟨ms, -, h⟩ := bind_eq_ok_iff.1 h
  obtain ⟨branch, -, h⟩ := bind_eq_ok_iff.1 h
  split at h
  next =>
    obtain rfl := pure_eq_ok_iff.1 h
    exact isAccepting_none
  next =>
    split at h
    next =>
      obtain ⟨m, hm, h⟩ := bind_eq_ok_iff.1 h
      obtain rfl := pure_eq_ok_iff.1 h
      exact isAccepting_some (isAccepting_of_member hinner hm)
    next => cases h

theorem takesAccepting_items (hty : ty.HasItems elem) (helem : elem.TakesAccepting) :
    ty.TakesAccepting := by
  intro data n h
  rw [Typed.submit_items hty] at h
  obtain ⟨datas, -, h⟩ := bind_eq_ok_iff.1 h
  obtain ⟨items, hitems, h⟩ := bind_eq_ok_iff.1 h
  obtain rfl := pure_eq_ok_iff.1 h
  refine isAccepting_items hty fun item hitem => ?_
  obtain ⟨data, -, hdata⟩ := exists_of_mem_mapM hitems item hitem
  exact helem data item hdata

theorem takesAccepting_entries (hty : ty.HasEntries key value) (hkey : key.TakesAccepting)
    (hvalue : value.TakesAccepting) : ty.TakesAccepting := by
  intro data n h
  rw [Typed.submit_entries hty] at h
  obtain ⟨datas, -, h⟩ := bind_eq_ok_iff.1 h
  obtain ⟨items, hitems, h⟩ := bind_eq_ok_iff.1 h
  obtain rfl := pure_eq_ok_iff.1 h
  refine isAccepting_entries hty fun item hitem => ?_
  obtain ⟨data, -, hdata⟩ := exists_of_mem_mapM hitems item hitem
  exact isAcceptingEntry_of_submitEntry hkey hvalue hdata

/-- **A type without code takes only accepting expressions**, whatever is submitted. -/
theorem isAccepting_of_submit (hplain : ty.IsPlain) : ty.TakesAccepting := by
  -- leaves may stand several levels down, so the induction is on the size
  induction hsize : ty.size using Nat.strongRecOn generalizing ty with
  | _ size ih =>
    subst hsize
    have hsmaller {c : Ty} (hlt : c.size < ty.size) (hc : c.IsPlain) : c.TakesAccepting :=
      ih _ hlt hc rfl
    have hitems {elem : Ty} (hty : ty.HasItems elem) (helem : elem.IsPlain) :
        ty.TakesAccepting :=
      takesAccepting_items hty (hsmaller hty.size_lt helem)
    have hentries {key value : Ty} (hty : ty.HasEntries key value)
        (hparts : key.IsPlain ∧ value.IsPlain) : ty.TakesAccepting :=
      takesAccepting_entries hty (hsmaller hty.size_key_lt hparts.1)
        (hsmaller hty.size_value_lt hparts.2)
    cases ty with
    | unit i => exact fun _ _ _ => isAccepting_unit
    | bool i => exact fun _ _ _ => isAccepting_bool
    | scalar i kind =>
      intro data n h
      rw [submit] at h
      obtain ⟨l, rfl, hl⟩ := exists_isAccepted_of_literal h
      exact isAccepting_literal .scalar hl
    | contract i param =>
      intro data n h
      rw [submit] at h
      obtain ⟨l, rfl, hl⟩ := exists_isAccepted_of_literal h
      exact isAccepting_literal .contract hl
    | pair i left right =>
      exact takesAccepting_pair (hsmaller (by simp only [size]; omega) hplain.1)
        (hsmaller (by simp only [size]; omega) hplain.2)
    | or i left right =>
      exact takesAccepting_or fun leaf hleaf =>
        hsmaller (size_lt_of_mem_leaves hleaf) (isPlain_of_mem_leaves hplain hleaf)
    | option i inner =>
      exact takesAccepting_option (hsmaller (by simp only [size]; omega) hplain)
    | list i elem => exact hitems .list hplain
    | set i elem => exact hitems .set hplain
    | map i key value => exact hentries .map hplain
    | bigMap i key value => exact hentries .bigMap hplain
    | never | operation | ticket =>
      intro data n h
      rw [submit] at h
      cases h
    | _ => cases hplain

/-- A submission is read as a whole value of its type. -/
theorem takesWhole_of_submit (hplain : ty.IsPlain) (h : ty.submit data = .ok n) :
    ty.takesWhole n = true := by
  cases ty with
  | list | set | map | bigMap =>
    rw [submit] at h
    obtain ⟨datas, -, h⟩ := bind_eq_ok_iff.1 h
    obtain ⟨items, -, h⟩ := bind_eq_ok_iff.1 h
    obtain rfl := pure_eq_ok_iff.1 h
    rfl
  | lambda => cases hplain
  | _ => rfl

theorem takesWhole_of_member {ms : List (String × Json)} (hplain : ty.IsPlain)
    (h : member ty ty.submit ms = .ok n) : ty.takesWhole n = true := by
  obtain ⟨i, rfl⟩ | ⟨data, h⟩ := of_member h
  · rfl
  · exact takesWhole_of_submit hplain h

end Ty

end Micheline
