/-
Micheline/Proofs/Value/Preserve.lean

Writing values as they were settled.  A value that a type holds is written as an expression
that settles to it again (`Ty.exists_project_preserve`), and an expression that says nothing
but its value is what that value is written as (`Ty.project_of_settle`).
-/
import Micheline.Proofs.Ty.Collections
import Micheline.Proofs.Value.Settled

namespace Micheline.Ty

open Sorted

/-! ### Pairs -/

/-- An expression that can be the rest of a pair, or be joined by a first member. -/
def IsPairNode (n : Node) : Prop :=
  ∃ members : List Node, 2 ≤ members.length ∧ (n = .seq members ∨ n = .app "Pair" members)

/-- What is written as a pair is cut into its parts again. -/
theorem splits_writePair {nested : Bool} {comb : Comb} {first second : Node}
    (h : comb = .joined → nested = true ∧ IsPairNode second) :
    Splits nested (writePair comb first second) first second comb := by
  cases comb with
  | pair => exact .pair
  | seq => exact .seq
  | joined =>
    obtain ⟨hn, members, hlen, rfl | rfl⟩ := h rfl
    · exact .joinedSeq hn hlen
    · exact .joinedPair hn hlen

theorem isPairNode_writePair {comb : Comb} {first second : Node}
    (h : comb = .joined → IsPairNode second) : IsPairNode (writePair comb first second) := by
  cases comb with
  | pair => exact ⟨[first, second], Nat.le_refl _, .inr rfl⟩
  | seq => exact ⟨[first, second], Nat.le_refl _, .inl rfl⟩
  | joined =>
    obtain ⟨members, hlen, rfl | rfl⟩ := h rfl
    · exact ⟨first :: members, Nat.le_succ_of_le hlen, .inl rfl⟩
    · exact ⟨first :: members, Nat.le_succ_of_le hlen, .inr rfl⟩

/-- A pair without annotations is written as it was. -/
theorem writePair_of_splits {nested : Bool} {comb : Comb} {n first second : Node}
    (h : Splits nested n first second comb) (hn : n.annots = []) :
    writePair comb first second = n := by
  cases h with
  | pair =>
    obtain rfl := hn
    rfl
  | seq => rfl
  | joinedPair =>
    obtain rfl := hn
    rfl
  | joinedSeq => rfl

/-! ### Writing and settling -/

/-- The entries of a map are written as expressions that settle to them again. -/
theorem exists_projectEntries {key value : Ty} {pairs : List (Val × Val)}
    (hk : ∀ p ∈ pairs, ∃ n, key.project .preserve p.1 = .ok n ∧ key.settle n = .ok p.1)
    (hv : ∀ p ∈ pairs, ∃ n, value.project .preserve p.2 = .ok n ∧ value.settle n = .ok p.2) :
    ∃ items,
      pairs.mapM (project.projectEntry (key.project .preserve) (value.project .preserve))
          = .ok items
        ∧ items.mapM (settleEntry key value) = .ok pairs := by
  refine exists_mapM_of_undone fun p hp => ?_
  obtain ⟨k, hk, hk'⟩ := hk p hp
  obtain ⟨v, hv, hv'⟩ := hv p hp
  refine ⟨.app "Elt" [k, v], ?_, settleEntry_eq_ok_iff.2 ⟨k, v, [], rfl, hk', hv'⟩⟩
  rw [project.projectEntry, hk, hv]
  rfl

/-- No form joins what was not joined. -/
theorem eq_joined_of_combIn {form : ValueForm} {comb : Comb}
    (h : combIn form comb = .joined) : comb = .joined := by
  unfold combIn at h
  split at h
  · cases h
  · exact h

/-- What the value of a pair is written as can be joined by a first member. -/
theorem isPairNode_of_project {form : ValueForm} {loaded : Bool} {ty : Ty} {v : Val} {n : Node}
    (hv : Holds loaded ty v) (hty : ty.isPair = true) (h : ty.project form v = .ok n) :
    IsPairNode n := by
  induction hv generalizing n with
  | @pair i l r a b comb _ _ hcomb _ ihb =>
    obtain ⟨first, -, h⟩ := bind_eq_ok_iff.1 h
    obtain ⟨second, hsecond, h⟩ := bind_eq_ok_iff.1 h
    obtain rfl := pure_eq_ok_iff.1 h
    apply isPairNode_writePair
    intro hj
    exact ihb (hcomb (eq_joined_of_combIn hj)) hsecond
  | _ => cases hty

/-- **Writing, then settling.** -/
theorem exists_project_preserve {ty : Ty} {v : Val} (h : Holds false ty v) :
    ∃ n, ty.project .preserve v = .ok n ∧ ty.settle n = .ok v := by
  induction h with
  | unit => exact ⟨.app "Unit" [], rfl, settle_unit_eq_ok_iff.2 ⟨rfl, [], rfl⟩⟩
  | @bool i b =>
    refine ⟨.app (boolName b) [], ?_, settle_bool_eq_ok_iff.2 ⟨b, [], [], rfl, rfl⟩⟩
    cases b <;> rfl
  | @scalar i kind l h => exact ⟨l.node, rfl, (settle_literal_eq_ok_iff .scalar).2 ⟨l, rfl, rfl, h⟩⟩
  | @contract i param l h =>
    exact ⟨l.node, rfl, (settle_literal_eq_ok_iff .contract).2 ⟨l, rfl, rfl, h⟩⟩
  | @pair i l r a b comb _ hb hcomb iha ihb =>
    obtain ⟨first, hfirst, hfirst'⟩ := iha
    obtain ⟨second, hsecond, hsecond'⟩ := ihb
    have hjoined : comb = .joined → r.isPair = true ∧ IsPairNode second :=
      fun h => ⟨hcomb h, isPairNode_of_project hb (hcomb h) hsecond⟩
    refine ⟨writePair comb first second, ?_, settle_pair_eq_ok_iff.2 ⟨first, second, comb, a, b,
      splits_writePair hjoined, hfirst', hsecond', rfl⟩⟩
    rw [project, hfirst, hsecond]
    rfl
  | left _ ih =>
    obtain ⟨n, hn, hn'⟩ := ih
    refine ⟨.app "Left" [n], ?_, settle_or_eq_ok_iff.2 (.inl ⟨n, _, [], rfl, hn', rfl⟩)⟩
    rw [project, hn]
    rfl
  | right _ ih =>
    obtain ⟨n, hn, hn'⟩ := ih
    refine ⟨.app "Right" [n], ?_, settle_or_eq_ok_iff.2 (.inr ⟨n, _, [], rfl, hn', rfl⟩)⟩
    rw [project, hn]
    rfl
  | none => exact ⟨.app "None" [], rfl, settle_option_eq_ok_iff.2 (.inl ⟨[], rfl, rfl⟩)⟩
  | some _ ih =>
    obtain ⟨n, hn, hn'⟩ := ih
    refine ⟨.app "Some" [n], ?_, settle_option_eq_ok_iff.2 (.inr ⟨n, _, [], rfl, hn', rfl⟩)⟩
    rw [project, hn]
    rfl
  | @list i elem values _ ih =>
    obtain ⟨items, hitems, hvalues⟩ := exists_mapM_of_undone ih
    refine ⟨.seq items, ?_, settle_list_eq_ok_iff.2 ⟨items, values, rfl, hvalues, rfl⟩⟩
    rw [project, hitems]
    rfl
  | @set i elem values _ hs ih =>
    obtain ⟨items, hitems, hvalues⟩ := exists_mapM_of_undone ih
    refine ⟨.seq items, ?_, settle_set_eq_ok_iff.2 ⟨items, values, values, rfl, hvalues,
      foldlM_add_of_ascending hs, rfl⟩⟩
    rw [project, hitems]
    rfl
  | @map i key value pairs _ _ hs ihk ihv =>
    obtain ⟨items, hitems, hpairs⟩ := exists_projectEntries ihk ihv
    refine ⟨.seq items, ?_, settle_map_eq_ok_iff.2 ⟨items, pairs, pairs, rfl, hpairs,
      foldlM_put_of_ascending hs, rfl⟩⟩
    rw [project, hitems]
    rfl
  | @bigMap i key value pairs _ _ hs ihk ihv =>
    obtain ⟨items, hitems, hpairs⟩ := exists_projectEntries ihk ihv
    refine ⟨.seq items, ?_, settle_bigMap_eq_ok_iff.2 (.inr ⟨items, pairs, pairs, rfl, hpairs,
      foldlM_put_of_ascending hs, rfl⟩)⟩
    rw [project_entries .bigMap (.inl rfl), hitems]
    rfl
  | @pointer i key value id hid =>
    exact ⟨.int id, rfl, settle_bigMap_eq_ok_iff.2 (.inl ⟨id, rfl, hid, rfl⟩)⟩
  -- nothing was brought in, so that a big map with a pointer is empty
  | loaded hl => cases hl
  | @lambda i param result n h => exact ⟨n, rfl, settle_lambda_eq_ok_iff.2 ⟨rfl, h⟩⟩
  | ticket _ ih => exact ih
  | @saplingState i memo n h => exact ⟨n, rfl, settle_saplingState_eq_ok_iff.2 ⟨rfl, h⟩⟩
  | @saplingTransaction i deprecated memo n h =>
    exact ⟨n, rfl, settle_saplingTransaction_eq_ok_iff.2 ⟨rfl, h⟩⟩
  | @constant i hash n => exact ⟨n, rfl, settle_constant_eq_ok_iff.2 rfl⟩

/-! ### Expressions that say nothing but their value -/

/-- The elements that expressions write ascend from each to the next. -/
def ElementsAscend (elem : Ty) (items : List Node) : Prop :=
  ∀ values, items.mapM elem.settle = .ok values →
    values.IsChain fun a b => elem.compare a b = .ok .lt

/-- The keys that entries write ascend from each to the next. -/
def KeysAscend (key value : Ty) (items : List Node) : Prop :=
  ∀ pairs, items.mapM (settleEntry key value) = .ok pairs →
    (pairs.map (·.1)).IsChain fun a b => key.compare a b = .ok .lt

/-- The expression has no annotations where the type reads it, booleans have no arguments,
and elements and keys ascend.  What is kept as code may be anything. -/
def IsVerbatim : Ty → Node → Prop
  | .unit _, n => n.annots = []
  | .bool _, n => n.annots = [] ∧ n.args = []
  | .pair _ l r, n => n.annots = [] ∧ ∀ first second comb,
    splitPair r.isPair n = .ok (first, second, comb) → l.IsVerbatim first ∧ r.IsVerbatim second
  | .or _ l r, n => n.annots = [] ∧ ∀ arg ∈ n.args,
    (n.name? = some "Left" → l.IsVerbatim arg) ∧ (n.name? = some "Right" → r.IsVerbatim arg)
  | .option _ t, n => n.annots = [] ∧ ∀ arg ∈ n.args, t.IsVerbatim arg
  | .list _ elem, n => ∀ items, n = .seq items → ∀ item ∈ items, elem.IsVerbatim item
  | .set _ elem, n => ∀ items, n = .seq items →
    (∀ item ∈ items, elem.IsVerbatim item) ∧ ElementsAscend elem items
  | .map _ key value, n => ∀ items, n = .seq items →
    (∀ item ∈ items, item.annots = [] ∧ ∀ k v, entry item = .ok (k, v) →
      key.IsVerbatim k ∧ value.IsVerbatim v) ∧ KeysAscend key value items
  | .bigMap _ key value, n => ∀ items, n = .seq items →
    (∀ item ∈ items, item.annots = [] ∧ ∀ k v, entry item = .ok (k, v) →
      key.IsVerbatim k ∧ value.IsVerbatim v) ∧ KeysAscend key value items
  | .ticket _ _ paired, n => paired.IsVerbatim n
  | _, _ => True

/-- Entries without annotations are what the entries that they write are written as. -/
theorem mapM_projectEntry_of_settleEntry {key value : Ty} {items : List Node}
    {pairs : List (Val × Val)} (h : items.mapM (settleEntry key value) = .ok pairs)
    (hk : ∀ {n v}, key.settle n = .ok v → key.IsVerbatim n → key.project .preserve v = .ok n)
    (hv : ∀ {n v}, value.settle n = .ok v → value.IsVerbatim n →
      value.project .preserve v = .ok n)
    (hitems : ∀ item ∈ items, item.annots = [] ∧ ∀ k v, entry item = .ok (k, v) →
      key.IsVerbatim k ∧ value.IsVerbatim v) :
    pairs.mapM (project.projectEntry (key.project .preserve) (value.project .preserve))
      = .ok items := by
  refine mapM_of_mapM h fun item hitem p hp => ?_
  obtain ⟨k, v, annots, rfl, hks, hvs⟩ := settleEntry_eq_ok_iff.1 hp
  obtain ⟨hannots, hparts⟩ := hitems _ hitem
  obtain ⟨hkv, hvv⟩ := hparts k v (entry_eq_ok_iff.2 ⟨annots, rfl⟩)
  obtain rfl := hannots
  rw [project.projectEntry, hk hks hkv, hv hvs hvv]
  rfl

/-- Entries whose keys ascend stay where they are, and so they are written as they were. -/
theorem mapM_projectEntry_of_put {key value : Ty} {items : List Node}
    {pairs done : List (Val × Val)} (h : items.mapM (settleEntry key value) = .ok pairs)
    (hdone : pairs.foldlM (put key.compare) [] = .ok done)
    (hk : ∀ {n v}, key.settle n = .ok v → key.IsVerbatim n → key.project .preserve v = .ok n)
    (hv : ∀ {n v}, value.settle n = .ok v → value.IsVerbatim n →
      value.project .preserve v = .ok n)
    (hitems : ∀ item ∈ items, item.annots = [] ∧ ∀ k v, entry item = .ok (k, v) →
      key.IsVerbatim k ∧ value.IsVerbatim v) (hchain : KeysAscend key value items) :
    done.mapM (project.projectEntry (key.project .preserve) (value.project .preserve))
      = .ok items := by
  have hs := (isOrder_compare key).ascending_of_isChain (hchain pairs h)
  rw [foldlM_put_of_ascending hs] at hdone
  obtain rfl := Except.ok.inj hdone
  exact mapM_projectEntry_of_settleEntry h hk hv hitems

/-- **Settling, then writing.** -/
theorem project_of_settle {ty : Ty} {n : Node} {v : Val} (h : ty.settle n = .ok v)
    (hn : ty.IsVerbatim n) : ty.project .preserve v = .ok n := by
  induction ty generalizing n v with
  | unit i =>
    obtain ⟨rfl, annots, rfl⟩ := settle_unit_eq_ok_iff.1 h
    obtain rfl := hn
    rfl
  | never i | operation i => cases h
  | bool i =>
    obtain ⟨b, args, annots, rfl, rfl⟩ := settle_bool_eq_ok_iff.1 h
    obtain ⟨rfl, rfl⟩ := hn
    cases b <;> rfl
  | scalar i kind =>
    obtain ⟨l, rfl, rfl, -⟩ := (settle_literal_eq_ok_iff .scalar).1 h
    rfl
  | contract i param =>
    obtain ⟨l, rfl, rfl, -⟩ := (settle_literal_eq_ok_iff .contract).1 h
    rfl
  | pair i l r ihl ihr =>
    obtain ⟨first, second, comb, a, b, hs, ha, hb, rfl⟩ := settle_pair_eq_ok_iff.1 h
    obtain ⟨hannots, hparts⟩ := hn
    obtain ⟨hfirst, hsecond⟩ := hparts first second comb (splitPair_eq_ok_iff.2 hs)
    rw [project, ihl ha hfirst, ihr hb hsecond]
    exact congrArg Except.ok (writePair_of_splits hs hannots)
  | or i l r ihl ihr =>
    obtain ⟨hannots, hargs⟩ := hn
    obtain ⟨arg, a, annots, rfl, ha, rfl⟩ | ⟨arg, b, annots, rfl, hb, rfl⟩ :=
      settle_or_eq_ok_iff.1 h
    · obtain rfl := hannots
      rw [project, ihl ha ((hargs arg List.mem_cons_self).1 rfl)]
      rfl
    · obtain rfl := hannots
      rw [project, ihr hb ((hargs arg List.mem_cons_self).2 rfl)]
      rfl
  | option i t ih =>
    obtain ⟨hannots, hargs⟩ := hn
    obtain ⟨annots, rfl, rfl⟩ | ⟨arg, a, annots, rfl, ha, rfl⟩ := settle_option_eq_ok_iff.1 h
    · obtain rfl := hannots
      rfl
    · obtain rfl := hannots
      rw [project, ih ha (hargs arg List.mem_cons_self)]
      rfl
  | list i elem ih =>
    obtain ⟨items, values, rfl, hvalues, rfl⟩ := settle_list_eq_ok_iff.1 h
    have hitems := hn items rfl
    rw [project, mapM_of_mapM hvalues fun item hi v hv => ih hv (hitems item hi)]
    rfl
  | set i elem ih =>
    obtain ⟨items, values, done, rfl, hvalues, hdone, rfl⟩ := settle_set_eq_ok_iff.1 h
    obtain ⟨hitems, hchain⟩ := hn items rfl
    -- elements that ascend stay where they are
    have hs := (isOrder_compare elem).ascending_of_isChain (hchain values hvalues)
    rw [foldlM_add_of_ascending hs] at hdone
    obtain rfl := Except.ok.inj hdone
    rw [project, mapM_of_mapM hvalues fun item hi v hv => ih hv (hitems item hi)]
    rfl
  | map i key value ihk ihv =>
    obtain ⟨items, pairs, done, rfl, hpairs, hdone, rfl⟩ := settle_map_eq_ok_iff.1 h
    obtain ⟨hitems, hchain⟩ := hn items rfl
    rw [project, mapM_projectEntry_of_put hpairs hdone ihk ihv hitems hchain]
    rfl
  | bigMap i key value ihk ihv =>
    obtain ⟨id, rfl, -, rfl⟩ | ⟨items, pairs, done, rfl, hpairs, hdone, rfl⟩ :=
      settle_bigMap_eq_ok_iff.1 h
    · rfl
    · obtain ⟨hitems, hchain⟩ := hn items rfl
      rw [project_entries .bigMap (.inl rfl),
        mapM_projectEntry_of_put hpairs hdone ihk ihv hitems hchain]
      rfl
  | lambda i param result =>
    obtain ⟨rfl, -⟩ := settle_lambda_eq_ok_iff.1 h
    rfl
  | ticket i content paired _ ih => exact ih h hn
  | saplingState i memo =>
    obtain ⟨rfl, -⟩ := settle_saplingState_eq_ok_iff.1 h
    rfl
  | saplingTransaction i deprecated memo =>
    obtain ⟨rfl, -⟩ := settle_saplingTransaction_eq_ok_iff.1 h
    rfl
  | constant i hash =>
    obtain rfl := settle_constant_eq_ok_iff.1 h
    rfl

end Micheline.Ty
