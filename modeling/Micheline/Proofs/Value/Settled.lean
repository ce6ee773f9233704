/-
Micheline/Proofs/Value/Settled.lean

Which values a type holds (`Ty.Holds`): literals of its contents, elements and keys in
ascending order, pairs that are written as their parts allow.  Everything that is settled is
such a value (`Ty.holds_of_settle`).

A big map with a pointer is empty when it is settled; entries may be brought into it later.
Values where this has happened are held too, if the first argument of `Ty.Holds` says so.
-/
import Micheline.Proofs.Value.Settle

namespace Micheline.Ty

open Sorted

/-- The values that a type holds; `loaded` says whether big maps with a pointer may have
entries. -/
inductive Holds (loaded : Bool) : Ty → Val → Prop
  | unit {i} : Holds loaded (.unit i) .unit
  | bool {i b} : Holds loaded (.bool i) (.bool b)
  | scalar {i kind l} (h : Literal.Fits kind.content l) : Holds loaded (.scalar i kind) (.literal l)
  | contract {i param l} (h : Literal.Fits (.identifier .address) l) :
      Holds loaded (.contract i param) (.literal l)
  | pair {i l r a b comb} (ha : Holds loaded l a) (hb : Holds loaded r b)
      (hcomb : comb = .joined → r.isPair = true) : Holds loaded (.pair i l r) (.pair a b comb)
  | left {i l r a} (ha : Holds loaded l a) : Holds loaded (.or i l r) (.left a)
  | right {i l r b} (hb : Holds loaded r b) : Holds loaded (.or i l r) (.right b)
  | none {i t} : Holds loaded (.option i t) .none
  | some {i t a} (ha : Holds loaded t a) : Holds loaded (.option i t) (.some a)
  | list {i elem values} (h : ∀ v ∈ values, Holds loaded elem v) :
      Holds loaded (.list i elem) (.items values)
  | set {i elem values} (h : ∀ v ∈ values, Holds loaded elem v)
      (hs : Ascending elem.compare values) : Holds loaded (.set i elem) (.items values)
  | map {i key value} {pairs : List (Val × Val)} (hk : ∀ p ∈ pairs, Holds loaded key p.1)
      (hv : ∀ p ∈ pairs, Holds loaded value p.2)
      (hs : Ascending key.compare (pairs.map (·.1))) :
      Holds loaded (.map i key value) (.entries none pairs)
  | bigMap {i key value} {pairs : List (Val × Val)} (hk : ∀ p ∈ pairs, Holds loaded key p.1)
      (hv : ∀ p ∈ pairs, Holds loaded value p.2)
      (hs : Ascending key.compare (pairs.map (·.1))) :
      Holds loaded (.bigMap i key value) (.entries none pairs)
  | pointer {i key value id} (hid : Decimal.isInt64 id = true) :
      Holds loaded (.bigMap i key value) (.entries (some id) [])
  | loaded {i key value id} {pairs : List (Val × Val)} (hl : loaded = true)
      (hid : Decimal.isInt64 id = true) (hk : ∀ p ∈ pairs, Holds loaded key p.1)
      (hv : ∀ p ∈ pairs, Holds loaded value p.2)
      (hs : Ascending key.compare (pairs.map (·.1))) :
      Holds loaded (.bigMap i key value) (.entries (some id) pairs)
  | lambda {i param result n} (h : IsCode n) : Holds loaded (.lambda i param result) (.code n)
  | ticket {i content paired v} (h : Holds loaded paired v) :
      Holds loaded (.ticket i content paired) v
  | saplingState {i memo n} (h : (∃ id, n = .int id) ∨ ∃ items, n = .seq items) :
      Holds loaded (.saplingState i memo) (.code n)
  | saplingTransaction {i deprecated memo n} (h : ∃ data, n = .bytes data) :
      Holds loaded (.saplingTransaction i deprecated memo) (.code n)
  | constant {i hash n} : Holds loaded (.constant i hash) (.code n)

/-- What is held with nothing brought in is held. -/
theorem Holds.mono {ty : Ty} {v : Val} (h : Holds false ty v) : Holds true ty v := by
  induction h with
  | loaded hl => cases hl
  -- every other case is the same with more allowed
  | _ => constructor <;> assumption

theorem exists_entries_of_holds {loaded : Bool} {i : Info} {key value : Ty} {v : Val}
    (h : (bigMap i key value).Holds loaded v) : ∃ pointer pairs, v = .entries pointer pairs := by
  cases h with
  | bigMap | pointer | loaded => exact ⟨_, _, rfl⟩

/-- The entries that a map may have. -/
structure HoldsEntries (loaded : Bool) (key value : Ty) (pairs : List (Val × Val)) : Prop where
  keys : ∀ p ∈ pairs, Holds loaded key p.1
  values : ∀ p ∈ pairs, Holds loaded value p.2
  ascending : Ascending key.compare (pairs.map (·.1))

theorem holdsEntries_nil (loaded : Bool) (key value : Ty) : HoldsEntries loaded key value [] :=
  ⟨by simp, by simp, List.Pairwise.nil⟩

/-- The entries of a big map that is held. -/
theorem holdsEntries_of_bigMap {loaded : Bool} {i : Info} {key value : Ty} {pointer : Option Int}
    {pairs : List (Val × Val)} (h : (bigMap i key value).Holds loaded (.entries pointer pairs)) :
    HoldsEntries loaded key value pairs := by
  cases h with
  | bigMap hk hv hs => exact ⟨hk, hv, hs⟩
  | pointer _ => exact holdsEntries_nil loaded key value
  | loaded _ _ hk hv hs => exact ⟨hk, hv, hs⟩

/-- The entries that settling makes. -/
theorem holdsEntries_of_settle {key value : Ty} {items : List Node}
    {pairs done : List (Val × Val)}
    (ihk : ∀ {n v}, key.settle n = .ok v → Holds false key v)
    (ihv : ∀ {n v}, value.settle n = .ok v → Holds false value v)
    (hpairs : items.mapM (settleEntry key value) = .ok pairs)
    (hdone : pairs.foldlM (put key.compare) [] = .ok done) :
    HoldsEntries false key value done := by
  have hheld : ∀ p ∈ pairs, Holds false key p.1 ∧ Holds false value p.2 := by
    intro p hp
    obtain ⟨item, -, hitem⟩ := exists_of_mem_mapM hpairs p hp
    obtain ⟨k, v, annots, -, hk, hv⟩ := settleEntry_eq_ok_iff.1 hitem
    exact ⟨ihk hk, ihv hv⟩
  have hdone' := (isOrder_compare key).forall_mem_of_foldlM_put hdone hheld
  exact ⟨fun p hp => (hdone' p hp).1, fun p hp => (hdone' p hp).2,
    ((isOrder_compare key).ascending_foldlM_put hdone List.Pairwise.nil).1⟩

/-- The items of a list or a set are settled one by one, and nothing is added to them. -/
theorem exists_items_of_settle {ty elem : Ty} {items : List Node} {v : Val}
    (hty : ty.HasItems elem) (h : ty.settle (.seq items) = .ok v) :
    ∃ values done, items.mapM elem.settle = .ok values ∧ v = .items done
      ∧ ∀ x ∈ done, x ∈ values := by
  cases hty with
  | list =>
    obtain ⟨_, values, ⟨⟩, hvalues, rfl⟩ := settle_list_eq_ok_iff.1 h
    exact ⟨values, values, hvalues, rfl, fun x hx => hx⟩
  | set =>
    obtain ⟨_, values, done, ⟨⟩, hvalues, hdone, rfl⟩ := settle_set_eq_ok_iff.1 h
    obtain ⟨-, hmem⟩ := (isOrder_compare elem).ascending_foldlM_add hdone List.Pairwise.nil
    exact ⟨values, done, hvalues, rfl, fun x hx => (hmem x hx).resolve_left List.not_mem_nil⟩

/-- **What is settled is held.** -/
theorem holds_of_settle {ty : Ty} {n : Node} {v : Val} (h : ty.settle n = .ok v) :
    Holds false ty v := by
  induction ty generalizing n v with
  | unit i =>
    obtain ⟨rfl, -⟩ := settle_unit_eq_ok_iff.1 h
    exact .unit
  | never i | operation i => cases h
  | bool i =>
    obtain ⟨b, -, -, rfl, -⟩ := settle_bool_eq_ok_iff.1 h
    exact .bool
  | scalar i kind =>
    obtain ⟨l, rfl, -, hl⟩ := (settle_literal_eq_ok_iff .scalar).1 h
    exact .scalar hl
  | contract i param =>
    obtain ⟨l, rfl, -, hl⟩ := (settle_literal_eq_ok_iff .contract).1 h
    exact .contract hl
  | pair i l r ihl ihr =>
    obtain ⟨first, second, comb, a, b, hs, ha, hb, rfl⟩ := settle_pair_eq_ok_iff.1 h
    refine .pair (ihl ha) (ihr hb) ?_
    -- only a pair on the right takes the rest of more than two members
    rintro rfl
    cases hs with
    | joinedPair hn => exact hn
    | joinedSeq hn => exact hn
  | or i l r ihl ihr =>
    obtain ⟨arg, a, -, -, ha, rfl⟩ | ⟨arg, b, -, -, hb, rfl⟩ := settle_or_eq_ok_iff.1 h
    · exact .left (ihl ha)
    · exact .right (ihr hb)
  | option i t ih =>
    obtain ⟨-, -, rfl⟩ | ⟨arg, a, -, -, ha, rfl⟩ := settle_option_eq_ok_iff.1 h
    · exact .none
    · exact .some (ih ha)
  | list i elem ih =>
    obtain ⟨items, values, -, hvalues, rfl⟩ := settle_list_eq_ok_iff.1 h
    refine .list fun v hv => ?_
    obtain ⟨item, -, hitem⟩ := exists_of_mem_mapM hvalues v hv
    exact ih hitem
  | set i elem ih =>
    obtain ⟨items, values, done, -, hvalues, hdone, rfl⟩ := settle_set_eq_ok_iff.1 h
    obtain ⟨hs, hmem⟩ := (isOrder_compare elem).ascending_foldlM_add hdone List.Pairwise.nil
    refine .set (fun v hv => ?_) hs
    -- nothing is in the set that was not among the items
    have hv := (hmem v hv).resolve_left List.not_mem_nil
    obtain ⟨item, -, hitem⟩ := exists_of_mem_mapM hvalues v hv
    exact ih hitem
  | map i key value ihk ihv =>
    obtain ⟨items, pairs, done, -, hpairs, hdone, rfl⟩ := settle_map_eq_ok_iff.1 h
    have hd := holdsEntries_of_settle ihk ihv hpairs hdone
    exact .map hd.keys hd.values hd.ascending
  | bigMap i key value ihk ihv =>
    obtain ⟨id, -, hid, rfl⟩ | ⟨items, pairs, done, -, hpairs, hdone, rfl⟩ :=
      settle_bigMap_eq_ok_iff.1 h
    · exact .pointer hid
    · have hd := holdsEntries_of_settle ihk ihv hpairs hdone
      exact .bigMap hd.keys hd.values hd.ascending
  | lambda i param result =>
    obtain ⟨rfl, hn⟩ := settle_lambda_eq_ok_iff.1 h
    exact .lambda hn
  | ticket i content paired _ ih => exact .ticket (ih h)
  | saplingState i memo =>
    obtain ⟨rfl, hn⟩ := settle_saplingState_eq_ok_iff.1 h
    exact .saplingState hn
  | saplingTransaction i deprecated memo =>
    obtain ⟨rfl, hn⟩ := settle_saplingTransaction_eq_ok_iff.1 h
    exact .saplingTransaction hn
  | constant i hash =>
    obtain rfl := settle_constant_eq_ok_iff.1 h
    exact .constant

end Micheline.Ty
