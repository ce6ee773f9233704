/-
Micheline/Proofs/Value/Arity.lean

Numbers of arguments.  Settling goes through an expression place by place, and at each place
a type reads what stands there (`Ty.Reads`).  An expression that settles does so at every
place that is read (`Ty.exists_settle_of_isPlace`), and where a constructor has too many
arguments or too few nothing settles (`Ty.not_settles_of_miscounts`); so one such place,
however deep, is enough for the whole to fail.

Booleans are left out of this: of them only the name is looked at.
-/
import Mathlib.Logic.Relation
import Micheline.Proofs.Value.Settle

namespace Micheline.Ty

/-! ### Places -/

/-- Right under an expression and the type that reads it: the parts that are read for the
parts of the type. -/
inductive Reads : Ty × Node → Ty × Node → Prop
  | first {i l r n first second comb} (h : Splits r.isPair n first second comb) :
      Reads (.pair i l r, n) (l, first)
  | second {i l r n first second comb} (h : Splits r.isPair n first second comb) :
      Reads (.pair i l r, n) (r, second)
  | left {i l r arg annots} : Reads (.or i l r, .prim "Left" [arg] annots) (l, arg)
  | right {i l r arg annots} : Reads (.or i l r, .prim "Right" [arg] annots) (r, arg)
  | some {i t arg annots} : Reads (.option i t, .prim "Some" [arg] annots) (t, arg)
  | item {i elem n} {items : List Node} (h : n ∈ items) :
      Reads (.list i elem, .seq items) (elem, n)
  | element {i elem n} {items : List Node} (h : n ∈ items) :
      Reads (.set i elem, .seq items) (elem, n)
  | key {i key value k v annots} {items : List Node} (h : .prim "Elt" [k, v] annots ∈ items) :
      Reads (.map i key value, .seq items) (key, k)
  | value {i key value k v annots} {items : List Node} (h : .prim "Elt" [k, v] annots ∈ items) :
      Reads (.map i key value, .seq items) (value, v)
  | bigKey {i key value k v annots} {items : List Node} (h : .prim "Elt" [k, v] annots ∈ items) :
      Reads (.bigMap i key value, .seq items) (key, k)
  | bigValue {i key value k v annots} {items : List Node}
      (h : .prim "Elt" [k, v] annots ∈ items) :
      Reads (.bigMap i key value, .seq items) (value, v)
  | ticket {i content paired n} : Reads (.ticket i content paired, n) (paired, n)

/-- A place that is read at any depth, or the whole. -/
def IsPlace (place whole : Ty × Node) : Prop :=
  Relation.ReflTransGen Reads whole place

/-- The greatest number of members that a value of the type is written with: those of a comb. -/
def width : Ty → Nat
  | .pair _ _ right => 1 + right.width
  | _ => 1

/-- A constructor of the type with more or fewer arguments than the type allows.  A sequence
that is read as a pair has its items for arguments. -/
inductive Miscounts : Ty × Node → Prop
  | unit {i annots} {args : List Node} (h : args.length ≠ 0) :
      Miscounts (.unit i, .prim "Unit" args annots)
  | bool {i b annots} {args : List Node} (h : args.length ≠ 0) :
      Miscounts (.bool i, .prim (boolName b) args annots)
  | pair {i l r annots} {args : List Node}
      (h : ¬(2 ≤ args.length ∧ args.length ≤ (Ty.pair i l r).width)) :
      Miscounts (.pair i l r, .prim "Pair" args annots)
  | comb {i l r} {items : List Node}
      (h : ¬(2 ≤ items.length ∧ items.length ≤ (Ty.pair i l r).width)) :
      Miscounts (.pair i l r, .seq items)
  | left {i l r annots} {args : List Node} (h : args.length ≠ 1) :
      Miscounts (.or i l r, .prim "Left" args annots)
  | right {i l r annots} {args : List Node} (h : args.length ≠ 1) :
      Miscounts (.or i l r, .prim "Right" args annots)
  | none {i t annots} {args : List Node} (h : args.length ≠ 0) :
      Miscounts (.option i t, .prim "None" args annots)
  | some {i t annots} {args : List Node} (h : args.length ≠ 1) :
      Miscounts (.option i t, .prim "Some" args annots)
  | entry {i key value annots} {args items : List Node} (hmem : .prim "Elt" args annots ∈ items)
      (h : args.length ≠ 2) : Miscounts (.map i key value, .seq items)
  | bigEntry {i key value annots} {args items : List Node}
      (hmem : .prim "Elt" args annots ∈ items) (h : args.length ≠ 2) :
      Miscounts (.bigMap i key value, .seq items)

/-- Whether the type is that of the booleans. -/
def isBool : Ty → Bool
  | .bool _ => true
  | _ => false

/-! ### What settles -/

/-- The expression has a value. -/
def Settles (p : Ty × Node) : Prop :=
  ∃ v, p.1.settle p.2 = .ok v

variable {p q : Ty × Node}

theorem settles_of_mem {elem : Ty} {items : List Node} {values : List Val}
    (h : items.mapM elem.settle = .ok values) {n : Node} (hn : n ∈ items) : Settles (elem, n) := by
  obtain ⟨v, -, hv⟩ := exists_of_mem_of_mapM h n hn
  exact ⟨v, hv⟩

/-- The entries of a map that settles are pairs of what settles. -/
theorem settles_of_mem_entries {key value : Ty} {items : List Node} {pairs : List (Val × Val)}
    (h : items.mapM (settleEntry key value) = .ok pairs) {args : List Node} {annots : List String}
    (hn : .prim "Elt" args annots ∈ items) :
    ∃ k v, args = [k, v] ∧ Settles (key, k) ∧ Settles (value, v) := by
  obtain ⟨done, -, hdone⟩ := exists_of_mem_of_mapM h _ hn
  obtain ⟨k, v, annots', he, hk, hv⟩ := settleEntry_eq_ok_iff.1 hdone
  obtain ⟨-, rfl, -⟩ := Node.prim.inj he
  exact ⟨k, v, rfl, ⟨done.1, hk⟩, done.2, hv⟩

/-- The entries of a map, and those of a big map that is not a pointer. -/
theorem exists_entries_of_settles {ty key value : Ty} {items : List Node}
    (hty : ty.HasEntries key value) (h : Settles (ty, .seq items)) :
    ∃ pairs, items.mapM (settleEntry key value) = .ok pairs := by
  obtain ⟨v, h⟩ := h
  obtain ⟨pairs, done, hpairs, -⟩ := (settle_entries_eq_ok_iff hty).1 h
  exact ⟨pairs, hpairs⟩

/-! ### Going down -/

/-- **One step down.**  What has a value has one in each part that is read. -/
theorem Settles.of_reads (hr : Reads p q) (h : Settles p) : Settles q := by
  obtain ⟨v, hv⟩ := h
  cases hr with
  | first hs =>
    obtain ⟨_, _, _, a, _, hs', ha, -⟩ := settle_pair_eq_ok_iff.1 hv
    -- A comb is cut in one way only.
    have heq := (splitPair_eq_ok_iff.2 hs).symm.trans (splitPair_eq_ok_iff.2 hs')
    cases heq
    exact ⟨a, ha⟩
  | second hs =>
    obtain ⟨_, _, _, _, b, hs', -, hb, -⟩ := settle_pair_eq_ok_iff.1 hv
    have heq := (splitPair_eq_ok_iff.2 hs).symm.trans (splitPair_eq_ok_iff.2 hs')
    cases heq
    exact ⟨b, hb⟩
  | left =>
    obtain ⟨_, a, _, ⟨⟩, ha, -⟩ | ⟨_, _, _, h, -⟩ := settle_or_eq_ok_iff.1 hv
    · exact ⟨a, ha⟩
    · exact absurd h (by simp)
  | right =>
    obtain ⟨_, _, _, h, -⟩ | ⟨_, b, _, ⟨⟩, hb, -⟩ := settle_or_eq_ok_iff.1 hv
    · exact absurd h (by simp)
    · exact ⟨b, hb⟩
  | some =>
    obtain ⟨_, h, -⟩ | ⟨_, a, _, ⟨⟩, ha, -⟩ := settle_option_eq_ok_iff.1 hv
    · exact absurd h (by simp)
    · exact ⟨a, ha⟩
  | item hn =>
    obtain ⟨_, _, ⟨⟩, hvalues, -⟩ := settle_list_eq_ok_iff.1 hv
    exact settles_of_mem hvalues hn
  | element hn =>
    obtain ⟨_, _, _, ⟨⟩, hvalues, -⟩ := settle_set_eq_ok_iff.1 hv
    exact settles_of_mem hvalues hn
  | key hn =>
    obtain ⟨pairs, hpairs⟩ := exists_entries_of_settles .map ⟨v, hv⟩
    obtain ⟨_, _, ⟨⟩, hk, -⟩ := settles_of_mem_entries hpairs hn
    exact hk
  | value hn =>
    obtain ⟨pairs, hpairs⟩ := exists_entries_of_settles .map ⟨v, hv⟩
    obtain ⟨_, _, ⟨⟩, -, hv⟩ := settles_of_mem_entries hpairs hn
    exact hv
  | bigKey hn =>
    obtain ⟨pairs, hpairs⟩ := exists_entries_of_settles .bigMap ⟨v, hv⟩
    obtain ⟨_, _, ⟨⟩, hk, -⟩ := settles_of_mem_entries hpairs hn
    exact hk
  | bigValue hn =>
    obtain ⟨pairs, hpairs⟩ := exists_entries_of_settles .bigMap ⟨v, hv⟩
    obtain ⟨_, _, ⟨⟩, -, hv⟩ := settles_of_mem_entries hpairs hn
    exact hv
  | ticket => exact ⟨v, hv⟩

/-- **All the way down.**  What has a value has one at every place that is read. -/
theorem Settles.of_isPlace (hp : IsPlace q p) (h : Settles p) : Settles q := by
  induction hp with
  | refl => exact h
  | tail _ hr ih => exact ih.of_reads hr

/-! ### Miscounted arguments -/

/-- The members that a pair is written with are two or more, and no more than the comb has. -/
theorem length_members_of_settles {ty : Ty} (hty : ty.isPair = true) {n : Node}
    {members : List Node} {listed : Bool} (hm : pairMembers n = .ok (members, listed))
    (h : Settles (ty, n)) : 2 ≤ members.length ∧ members.length ≤ ty.width := by
  induction ty generalizing n members listed with
  | pair i l r _ ih =>
    obtain ⟨v, hv⟩ := h
    obtain ⟨first, second, comb, a, b, hs, -, hb, -⟩ := settle_pair_eq_ok_iff.1 hv
    have hwidth : 1 ≤ r.width := by
      cases r <;> simp [width]
    rw [width]
    cases hs with
    | pair =>
      cases hm
      exact ⟨Nat.le_refl 2, by simpa using Nat.add_le_add_left hwidth 1⟩
    | seq =>
      cases hm
      exact ⟨Nat.le_refl 2, by simpa using Nat.add_le_add_left hwidth 1⟩
    -- the members after the first are those of the right type
    | joinedPair hn hlen =>
      cases hm
      have := ih hn (n := .app "Pair" _) rfl ⟨b, hb⟩
      simp only [List.length_cons]
      omega
    | joinedSeq hn hlen =>
      cases hm
      have := ih hn (n := .seq _) rfl ⟨b, hb⟩
      simp only [List.length_cons]
      omega
  | _ => cases hty

/-- **A miscounted constructor has no value**, unless it is a boolean. -/
theorem not_settles_of_miscounts (hm : Miscounts p) (hb : p.1.isBool = false) : ¬Settles p := by
  rintro h
  obtain ⟨v, hv⟩ := id h
  cases hm with
  | unit hlen =>
    obtain ⟨-, _, ⟨⟩⟩ := settle_unit_eq_ok_iff.1 hv
    exact hlen rfl
  -- The arguments of a boolean are never counted, so the statement leaves booleans out.
  | bool => cases hb
  | pair hlen => exact hlen (length_members_of_settles rfl (n := .prim "Pair" _ _) rfl h)
  | comb hlen => exact hlen (length_members_of_settles rfl (n := .seq _) rfl h)
  | left hlen =>
    obtain ⟨_, _, _, ⟨⟩, -⟩ | ⟨_, _, _, h, -⟩ := settle_or_eq_ok_iff.1 hv
    · exact hlen rfl
    · exact absurd h (by simp)
  | right hlen =>
    obtain ⟨_, _, _, h, -⟩ | ⟨_, _, _, ⟨⟩, -⟩ := settle_or_eq_ok_iff.1 hv
    · exact absurd h (by simp)
    · exact hlen rfl
  | none hlen =>
    obtain ⟨_, ⟨⟩, -⟩ | ⟨_, _, _, h, -⟩ := settle_option_eq_ok_iff.1 hv
    · exact hlen rfl
    · exact absurd h (by simp)
  | some hlen =>
    obtain ⟨_, h, -⟩ | ⟨_, _, _, ⟨⟩, -⟩ := settle_option_eq_ok_iff.1 hv
    · exact absurd h (by simp)
    · exact hlen rfl
  | entry hmem hlen =>
    -- The count of an entry is checked when the entry is read, before it is put into the map.
    obtain ⟨pairs, hpairs⟩ := exists_entries_of_settles .map h
    obtain ⟨_, _, rfl, -⟩ := settles_of_mem_entries hpairs hmem
    exact hlen rfl
  | bigEntry hmem hlen =>
    obtain ⟨pairs, hpairs⟩ := exists_entries_of_settles .bigMap h
    obtain ⟨_, _, rfl, -⟩ := settles_of_mem_entries hpairs hmem
    exact hlen rfl

end Micheline.Ty
