/-
Micheline/Proofs/Value/Settle.lean

What settling accepts, type by type.  Each lemma says for one kind of type which expressions
have a value and which value that is; later proofs use these and never open `Ty.settle`.
-/
import Micheline.Proofs.Ty.Collections
import Micheline.Proofs.Value.Order
import Micheline.Value.Settle

namespace Micheline

open Sorted

/-! ### Literals -/

/-- The literal may be held by a type with such contents. -/
structure Literal.Fits (content : Content) (l : Literal) : Prop where
  isOf : l.isOf content = true
  natural : content = .natural → ∀ value, l = .int value → 0 ≤ value

/-- A literal is accepted exactly if its node fits the content. -/
theorem Literal.accept_eq_ok_iff {prim : Prim} {content : Content} {n : Node} {l : Literal} :
    Literal.accept prim content n = .ok l ↔ n = l.node ∧ l.Fits content := by
  rw [← Node.literal?_eq_some_iff, accept]
  rcases n.literal? with - | m
  · simp
  by_cases hm : m.isOf content = true
  · simp only [hm, if_true, Option.some.injEq]
    -- only an integer that must be natural is looked at again
    split
    next value =>
      split
      next hneg =>
        refine ⟨fun h => (nomatch h), ?_⟩
        rintro ⟨rfl, hl⟩
        exact absurd (hl.natural rfl value rfl) (by omega)
      next hpos =>
        constructor
        · rintro ⟨⟩
          refine ⟨rfl, hm, ?_⟩
          rintro - _ ⟨⟩
          omega
        · rintro ⟨rfl, -⟩
          rfl
    next hnat =>
      constructor
      · rintro ⟨⟩
        exact ⟨rfl, hm, fun hc value hl => (hnat value hc hl).elim⟩
      · rintro ⟨rfl, -⟩
        rfl
  · simp only [hm, Option.some.injEq]
    refine ⟨fun h => (nomatch h), ?_⟩
    rintro ⟨rfl, hl⟩
    exact absurd hl.isOf hm

namespace Ty

/-! ### Shapes of expressions -/

/-- An application is taken by its constructor and the number of its arguments, whatever its
annotations. -/
theorem constructorArgs_eq_ok_iff {constructor : String} {count : Nat} {n : Node}
    {args : List Node} :
    constructorArgs constructor count n = .ok args
      ↔ args.length = count ∧ ∃ annots, n = .prim constructor args annots := by
  cases n with
  | prim name args' annots' =>
    rw [constructorArgs]
    by_cases hname : name = constructor
    · by_cases hcount : args'.length = count
      · rw [if_pos hname, if_pos hcount]
        constructor
        · rintro ⟨⟩
          exact ⟨hcount, annots', by rw [hname]⟩
        · rintro ⟨-, annots, ⟨⟩⟩
          rfl
      · rw [if_pos hname, if_neg hcount]
        refine ⟨by rintro ⟨⟩, ?_⟩
        rintro ⟨h, annots, ⟨⟩⟩
        exact absurd h hcount
    · rw [if_neg hname]
      refine ⟨by rintro ⟨⟩, ?_⟩
      rintro ⟨-, annots, ⟨⟩⟩
      exact absurd rfl hname
  | _ => simp [constructorArgs]

theorem onlyArg_eq_ok_iff {constructor : String} {n arg : Node} :
    onlyArg constructor n = .ok arg ↔ ∃ annots, n = .prim constructor [arg] annots := by
  rw [onlyArg, bind_eq_ok_iff]
  constructor
  · rintro ⟨args, hargs, h⟩
    obtain ⟨hlen, annots, rfl⟩ := constructorArgs_eq_ok_iff.1 hargs
    obtain ⟨x, rfl⟩ := List.length_eq_one_iff.1 hlen
    obtain rfl := pure_eq_ok_iff.1 h
    exact ⟨annots, rfl⟩
  · rintro ⟨annots, rfl⟩
    exact ⟨[arg], constructorArgs_eq_ok_iff.2 ⟨rfl, annots, rfl⟩, rfl⟩

theorem entry_eq_ok_iff {n k v : Node} :
    entry n = .ok (k, v) ↔ ∃ annots, n = .prim "Elt" [k, v] annots := by
  rw [entry, bind_eq_ok_iff]
  constructor
  · rintro ⟨args, hargs, h⟩
    obtain ⟨hlen, annots, rfl⟩ := constructorArgs_eq_ok_iff.1 hargs
    obtain ⟨x, y, rfl⟩ := List.length_eq_two.1 hlen
    obtain ⟨rfl, rfl⟩ := Prod.mk.inj (pure_eq_ok_iff.1 h)
    exact ⟨annots, rfl⟩
  · rintro ⟨annots, rfl⟩
    exact ⟨[k, v], constructorArgs_eq_ok_iff.2 ⟨rfl, annots, rfl⟩, rfl⟩

theorem sequenceOf_eq_ok_iff {what : String} {n : Node} {items : List Node} :
    sequenceOf what n = .ok items ↔ n = .seq items := by
  cases n <;> simp [sequenceOf]

/-- The ways in which an expression splits into the two parts of a pair. -/
inductive Splits (nested : Bool) : Node → Node → Node → Comb → Prop
  | pair {first second annots} :
      Splits nested (.prim "Pair" [first, second] annots) first second .pair
  | seq {first second} : Splits nested (.seq [first, second]) first second .seq
  | joinedPair {first rest annots} (hn : nested = true) (hr : 2 ≤ rest.length) :
      Splits nested (.prim "Pair" (first :: rest) annots) first (.app "Pair" rest) .joined
  | joinedSeq {first rest} (hn : nested = true) (hr : 2 ≤ rest.length) :
      Splits nested (.seq (first :: rest)) first (.seq rest) .joined

/-- The members of a pair come from a list or from an application. -/
theorem eq_of_pairMembers {n : Node} {members : List Node} {listed : Bool}
    (h : pairMembers n = .ok (members, listed)) :
    (n = .seq members ∧ listed = true)
      ∨ (∃ annots, n = .prim "Pair" members annots) ∧ listed = false := by
  cases n with
  | seq items =>
    obtain ⟨rfl, rfl⟩ := Prod.mk.inj (Except.ok.inj h)
    exact .inl ⟨rfl, rfl⟩
  | prim name args annots =>
    rw [pairMembers] at h
    split at h
    next hname =>
      obtain ⟨rfl, rfl⟩ := Prod.mk.inj (Except.ok.inj h)
      exact .inr ⟨⟨annots, by rw [hname]⟩, rfl⟩
    next => cases h
  | _ => cases h

theorem splits_of_splitPair {nested : Bool} {n first second : Node} {comb : Comb}
    (h : splitPair nested n = .ok (first, second, comb)) : Splits nested n first second comb := by
  rw [splitPair, bind_eq_ok_iff] at h
  obtain ⟨⟨members, listed⟩, hm, h⟩ := h
  have hn := eq_of_pairMembers hm
  -- no member or one is too few, two are the parts, and more need a pair to take the rest
  rcases members with - | ⟨a, - | ⟨b, - | ⟨c, rest⟩⟩⟩
  · cases h
  · cases h
  · obtain ⟨rfl, hparts⟩ := Prod.mk.inj (pure_eq_ok_iff.1 h)
    obtain ⟨rfl, rfl⟩ := Prod.mk.inj hparts
    rcases hn with ⟨rfl, rfl⟩ | ⟨⟨annots, rfl⟩, rfl⟩
    · exact .seq
    · exact .pair
  · cases nested with
    | false => cases h
    | true =>
      obtain ⟨rfl, hparts⟩ := Prod.mk.inj (pure_eq_ok_iff.1 h)
      obtain ⟨rfl, rfl⟩ := Prod.mk.inj hparts
      rcases hn with ⟨rfl, rfl⟩ | ⟨⟨annots, rfl⟩, rfl⟩
      · exact .joinedSeq rfl (by simp)
      · exact .joinedPair rfl (by simp)

theorem splitPair_eq_ok_iff {nested : Bool} {n first second : Node} {comb : Comb} :
    splitPair nested n = .ok (first, second, comb) ↔ Splits nested n first second comb := by
  refine ⟨splits_of_splitPair, fun h => ?_⟩
  have htwo {rest : List Node} (hr : 2 ≤ rest.length) : ∃ a b more, rest = a :: b :: more := by
    rcases rest with - | ⟨a, - | ⟨b, more⟩⟩ <;> simp_all
  cases h with
  | pair | seq => rfl
  | joinedPair hn hr | joinedSeq hn hr =>
    obtain ⟨a, b, more, rfl⟩ := htwo hr
    rw [hn]
    rfl

/-! ### Types -/

section Types

variable {i : Info} {n : Node} {v : Val}

theorem settle_unit_eq_ok_iff :
    (unit i).settle n = .ok v ↔ v = .unit ∧ ∃ annots, n = .prim "Unit" [] annots := by
  show (constructorArgs "Unit" 0 n >>= _) = _ ↔ _
  rw [bind_eq_ok_iff]
  constructor
  · rintro ⟨args, hargs, h⟩
    obtain ⟨hlen, annots, rfl⟩ := constructorArgs_eq_ok_iff.1 hargs
    obtain rfl := List.eq_nil_of_length_eq_zero hlen
    exact ⟨(pure_eq_ok_iff.1 h).symm, annots, rfl⟩
  · rintro ⟨rfl, annots, rfl⟩
    exact ⟨[], rfl, rfl⟩

/-- The name of a boolean. -/
def boolName (b : Bool) : String :=
  if b then "True" else "False"

/-- What settles to a boolean is an application of its name to anything. -/
theorem settle_bool_eq_ok_iff :
    (bool i).settle n = .ok v
      ↔ ∃ b args annots, v = .bool b ∧ n = .prim (boolName b) args annots := by
  show (if n.name? = some "True" then _ else if n.name? = some "False" then _ else _) = _ ↔ _
  cases n with
  | prim name args annots =>
    simp only [Node.name?, Option.some.injEq]
    by_cases ht : name = "True"
    · subst ht
      simp [boolName, eq_comm]
    · by_cases hf : name = "False"
      · subst hf
        simp [boolName, eq_comm]
      · simp [ht, hf, boolName]
  | _ => simp [Node.name?]

/-- What settles to a literal is a literal of the right content. -/
theorem settle_literal_eq_ok_iff {ty : Ty} {content : Content} (hty : ty.HasLiteral content) :
    ty.settle n = .ok v ↔ ∃ l : Literal, v = .literal l ∧ n = l.node ∧ l.Fits content := by
  have haccept : ∃ prim, ty.settle n = (do return .literal (← Literal.accept prim content n)) := by
    cases hty <;> exact ⟨_, rfl⟩
  obtain ⟨prim, haccept⟩ := haccept
  rw [haccept, bind_eq_ok_iff]
  simp only [Literal.accept_eq_ok_iff, pure_eq_ok_iff]
  exact exists_congr fun l => by rw [and_comm, eq_comm]

/-- What settles to a pair is cut into what settles to its parts. -/
theorem settle_pair_eq_ok_iff {l r : Ty} :
    (pair i l r).settle n = .ok v
      ↔ ∃ first second comb a b, Splits r.isPair n first second comb
        ∧ l.settle first = .ok a ∧ r.settle second = .ok b ∧ v = .pair a b comb := by
  show (splitPair r.isPair n >>= _) = _ ↔ _
  rw [bind_eq_ok_iff]
  constructor
  · rintro ⟨⟨first, second, comb⟩, hs, h⟩
    obtain ⟨a, ha, h⟩ := bind_eq_ok_iff.1 h
    obtain ⟨b, hb, h⟩ := bind_eq_ok_iff.1 h
    exact ⟨first, second, comb, a, b, splitPair_eq_ok_iff.1 hs, ha, hb,
      (pure_eq_ok_iff.1 h).symm⟩
  · rintro ⟨first, second, comb, a, b, hs, ha, hb, rfl⟩
    exact ⟨(first, second, comb), splitPair_eq_ok_iff.2 hs,
      bind_eq_ok_iff.2 ⟨a, ha, bind_eq_ok_iff.2 ⟨b, hb, rfl⟩⟩⟩

/-- What settles to a choice is an application of a side to what settles on it. -/
theorem settle_or_eq_ok_iff {l r : Ty} :
    (or i l r).settle n = .ok v
      ↔ (∃ arg a annots, n = .prim "Left" [arg] annots ∧ l.settle arg = .ok a ∧ v = .left a)
        ∨ (∃ arg b annots, n = .prim "Right" [arg] annots ∧ r.settle arg = .ok b
          ∧ v = .right b) := by
  -- Which side it is depends on the name alone; then there must be one argument.
  show (if n.name? = some "Left" then _ else if n.name? = some "Right" then _ else _) = _ ↔ _
  constructor
  · intro h
    split at h
    next =>
      obtain ⟨arg, harg, h₁⟩ := bind_eq_ok_iff.1 h
      obtain ⟨a, ha, h₂⟩ := bind_eq_ok_iff.1 h₁
      obtain ⟨annots, rfl⟩ := onlyArg_eq_ok_iff.1 harg
      exact .inl ⟨arg, a, annots, rfl, ha, (pure_eq_ok_iff.1 h₂).symm⟩
    next =>
      split at h
      next =>
        obtain ⟨arg, harg, h₁⟩ := bind_eq_ok_iff.1 h
        obtain ⟨b, hb, h₂⟩ := bind_eq_ok_iff.1 h₁
        obtain ⟨annots, rfl⟩ := onlyArg_eq_ok_iff.1 harg
        exact .inr ⟨arg, b, annots, rfl, hb, (pure_eq_ok_iff.1 h₂).symm⟩
      next => cases h
  · rintro (⟨arg, a, annots, rfl, ha, rfl⟩ | ⟨arg, b, annots, rfl, hb, rfl⟩)
    · rw [Node.name?, if_pos rfl]
      exact bind_eq_ok_iff.2 ⟨arg, onlyArg_eq_ok_iff.2 ⟨annots, rfl⟩,
        bind_eq_ok_iff.2 ⟨a, ha, rfl⟩⟩
    · rw [Node.name?, if_neg (by simp), if_pos rfl]
      exact bind_eq_ok_iff.2 ⟨arg, onlyArg_eq_ok_iff.2 ⟨annots, rfl⟩,
        bind_eq_ok_iff.2 ⟨b, hb, rfl⟩⟩

/-- What settles to an option is nothing, or an application to what settles inside. -/
theorem settle_option_eq_ok_iff {t : Ty} :
    (option i t).settle n = .ok v
      ↔ (∃ annots, n = .prim "None" [] annots ∧ v = .none)
        ∨ (∃ arg a annots, n = .prim "Some" [arg] annots ∧ t.settle arg = .ok a
          ∧ v = .some a) := by
  show (if n.name? = some "None" then _ else if n.name? = some "Some" then _ else _) = _ ↔ _
  constructor
  · intro h
    split at h
    next =>
      obtain ⟨args, hargs, h₁⟩ := bind_eq_ok_iff.1 h
      obtain ⟨hlen, annots, rfl⟩ := constructorArgs_eq_ok_iff.1 hargs
      obtain rfl := List.eq_nil_of_length_eq_zero hlen
      exact .inl ⟨annots, rfl, (pure_eq_ok_iff.1 h₁).symm⟩
    next =>
      split at h
      next =>
        obtain ⟨arg, harg, h₁⟩ := bind_eq_ok_iff.1 h
        obtain ⟨a, ha, h₂⟩ := bind_eq_ok_iff.1 h₁
        obtain ⟨annots, rfl⟩ := onlyArg_eq_ok_iff.1 harg
        exact .inr ⟨arg, a, annots, rfl, ha, (pure_eq_ok_iff.1 h₂).symm⟩
      next => cases h
  · rintro (⟨annots, rfl, rfl⟩ | ⟨arg, a, annots, rfl, ha, rfl⟩)
    · rfl
    · rw [Node.name?, if_neg (by simp), if_pos rfl]
      exact bind_eq_ok_iff.2 ⟨arg, onlyArg_eq_ok_iff.2 ⟨annots, rfl⟩,
        bind_eq_ok_iff.2 ⟨a, ha, rfl⟩⟩

/-- What settles to a list is a list of what settles to its items. -/
theorem settle_list_eq_ok_iff {elem : Ty} :
    (list i elem).settle n = .ok v
      ↔ ∃ items values, n = .seq items ∧ items.mapM elem.settle = .ok values
        ∧ v = .items values := by
  show (sequenceOf "list items" n >>= _) = _ ↔ _
  rw [bind_eq_ok_iff]
  constructor
  · rintro ⟨items, hitems, h⟩
    obtain ⟨values, hvalues, h⟩ := bind_eq_ok_iff.1 h
    exact ⟨items, values, sequenceOf_eq_ok_iff.1 hitems, hvalues, (pure_eq_ok_iff.1 h).symm⟩
  · rintro ⟨items, values, rfl, hvalues, rfl⟩
    exact ⟨items, rfl, bind_eq_ok_iff.2 ⟨values, hvalues, rfl⟩⟩

/-- What settles to a set is a list whose items can be put in order. -/
theorem settle_set_eq_ok_iff {elem : Ty} :
    (set i elem).settle n = .ok v
      ↔ ∃ items values done, n = .seq items ∧ items.mapM elem.settle = .ok values
        ∧ values.foldlM (fun done x => add elem.compare x done) [] = .ok done
        ∧ v = .items done := by
  show (sequenceOf "set items" n >>= _) = _ ↔ _
  rw [bind_eq_ok_iff]
  constructor
  · rintro ⟨items, hitems, h⟩
    obtain ⟨done, hdone, h⟩ := bind_eq_ok_iff.1 h
    obtain ⟨values, hvalues, hdone⟩ := foldlM_bind_eq_ok_iff.1 hdone
    exact ⟨items, values, done, sequenceOf_eq_ok_iff.1 hitems, hvalues, hdone,
      (pure_eq_ok_iff.1 h).symm⟩
  · rintro ⟨items, values, done, rfl, hvalues, hdone, rfl⟩
    exact ⟨items, rfl,
      bind_eq_ok_iff.2 ⟨done, foldlM_bind_eq_ok_iff.2 ⟨values, hvalues, hdone⟩, rfl⟩⟩

/-- The key and the value that an entry writes. -/
def settleEntry (key value : Ty) (n : Node) : Except Error (Val × Val) := do
  let (k, v) ← entry n
  let k ← key.settle k
  let v ← value.settle v
  return (k, v)

theorem settleEntry_eq_ok_iff {key value : Ty} {p : Val × Val} :
    settleEntry key value n = .ok p
      ↔ ∃ k v annots, n = .prim "Elt" [k, v] annots ∧ key.settle k = .ok p.1
        ∧ value.settle v = .ok p.2 := by
  rw [settleEntry, bind_eq_ok_iff]
  constructor
  · rintro ⟨⟨k, v⟩, he, h⟩
    obtain ⟨a, ha, h⟩ := bind_eq_ok_iff.1 h
    obtain ⟨b, hb, h⟩ := bind_eq_ok_iff.1 h
    obtain rfl := pure_eq_ok_iff.1 h
    obtain ⟨annots, rfl⟩ := entry_eq_ok_iff.1 he
    exact ⟨k, v, annots, rfl, ha, hb⟩
  · rintro ⟨k, v, annots, rfl, ha, hb⟩
    exact ⟨(k, v), entry_eq_ok_iff.2 ⟨annots, rfl⟩,
      bind_eq_ok_iff.2 ⟨p.1, ha, bind_eq_ok_iff.2 ⟨p.2, hb, rfl⟩⟩⟩

/-- Entries settle if each does and their keys can be put in order. -/
theorem settleEntries_eq_ok_iff {key value : Ty} {done : List (Val × Val)} :
    settle.settleEntries key.settle value.settle key.compare n = .ok done
      ↔ ∃ items pairs, n = .seq items ∧ items.mapM (settleEntry key value) = .ok pairs
        ∧ pairs.foldlM (put key.compare) [] = .ok done := by
  -- an entry is settled as a whole before it is put into its place
  have hstep : ∀ (made : List (Val × Val)) (item : Node),
      (do
        let (k, v) ← entry item
        let k ← key.settle k
        let v ← value.settle v
        return (← Sorted.insert key.compare k v made).2)
        = settleEntry key value item >>= put key.compare made := by
    intro made item
    rw [settleEntry]
    simp only [bind_assoc, pure_bind]
    rfl
  rw [settle.settleEntries, bind_eq_ok_iff]
  simp only [hstep, foldlM_bind_eq_ok_iff, sequenceOf_eq_ok_iff]
  constructor
  · rintro ⟨items, hn, pairs, h⟩
    exact ⟨items, pairs, hn, h⟩
  · rintro ⟨items, pairs, hn, h⟩
    exact ⟨items, hn, pairs, h⟩

theorem settle_map_eq_ok_iff {key value : Ty} :
    (map i key value).settle n = .ok v
      ↔ ∃ items pairs done, n = .seq items ∧ items.mapM (settleEntry key value) = .ok pairs
        ∧ pairs.foldlM (put key.compare) [] = .ok done ∧ v = .entries none done := by
  show (settle.settleEntries key.settle value.settle key.compare n >>= _) = _ ↔ _
  rw [bind_eq_ok_iff]
  constructor
  · rintro ⟨done, hdone, h⟩
    obtain ⟨items, pairs, hn, hpairs, hdone⟩ := settleEntries_eq_ok_iff.1 hdone
    exact ⟨items, pairs, done, hn, hpairs, hdone, (pure_eq_ok_iff.1 h).symm⟩
  · rintro ⟨items, pairs, done, hn, hpairs, hdone, rfl⟩
    exact ⟨done, settleEntries_eq_ok_iff.2 ⟨items, pairs, hn, hpairs, hdone⟩, rfl⟩

/-- A pointer is a number of 64 bits. -/
theorem pointer_eq_ok_iff {id value : Int} :
    pointer value = .ok id ↔ Decimal.isInt64 id = true ∧ id = value := by
  unfold pointer
  split
  next h =>
    constructor
    · rintro ⟨⟩
      exact ⟨h, rfl⟩
    · rintro ⟨-, rfl⟩
      rfl
  next h =>
    refine ⟨fun h' => (nomatch h'), ?_⟩
    rintro ⟨h', rfl⟩
    exact absurd h' h

/-- What settles to a big map is its pointer or its entries. -/
theorem settle_bigMap_eq_ok_iff {key value : Ty} :
    (bigMap i key value).settle n = .ok v
      ↔ (∃ id, n = .int id ∧ Decimal.isInt64 id = true ∧ v = .entries (some id) [])
        ∨ ∃ items pairs done, n = .seq items ∧ items.mapM (settleEntry key value) = .ok pairs
          ∧ pairs.foldlM (put key.compare) [] = .ok done ∧ v = .entries none done := by
  cases n with
  | int id =>
    -- an integer is a pointer, and cannot be the entries
    show (pointer id >>= _) = _ ↔ _
    rw [bind_eq_ok_iff]
    constructor
    · rintro ⟨id', hid, h⟩
      obtain ⟨hfit, rfl⟩ := pointer_eq_ok_iff.1 hid
      exact .inl ⟨id', rfl, hfit, (pure_eq_ok_iff.1 h).symm⟩
    · rintro (⟨_, ⟨⟩, hfit, rfl⟩ | ⟨_, _, _, h, _⟩)
      · exact ⟨id, pointer_eq_ok_iff.2 ⟨hfit, rfl⟩, rfl⟩
      · cases h
  | seq items =>
    simp only [reduceCtorEq, false_and, exists_false, false_or]
    exact settle_map_eq_ok_iff (i := i)
  | _ =>
    simp only [reduceCtorEq, false_and, exists_false, or_self, iff_false]
    exact nofun

/-- Maps and big maps are settled from their entries alike. -/
theorem settle_entries_eq_ok_iff {ty key value : Ty} {items : List Node}
    (hty : ty.HasEntries key value) :
    ty.settle (.seq items) = .ok v
      ↔ ∃ pairs done, items.mapM (settleEntry key value) = .ok pairs
        ∧ pairs.foldlM (put key.compare) [] = .ok done ∧ v = .entries none done := by
  cases hty with
  | map =>
    rw [settle_map_eq_ok_iff]
    constructor
    · rintro ⟨_, pairs, done, ⟨⟩, h⟩
      exact ⟨pairs, done, h⟩
    · rintro ⟨pairs, done, h⟩
      exact ⟨items, pairs, done, rfl, h⟩
  | bigMap =>
    rw [settle_bigMap_eq_ok_iff]
    constructor
    · rintro (⟨_, ⟨⟩, -⟩ | ⟨_, pairs, done, ⟨⟩, h⟩)
      exact ⟨pairs, done, h⟩
    · rintro ⟨pairs, done, h⟩
      exact .inr ⟨items, pairs, done, rfl, h⟩

/-- An expression that is kept as code. -/
def IsCode (n : Node) : Prop :=
  (∃ items, n = .seq items) ∨ n.name? = some "Lambda_rec"

/-- What settles to a lambda is code, kept as it is. -/
theorem settle_lambda_eq_ok_iff {param result : Ty} :
    (lambda i param result).settle n = .ok v ↔ v = .code n ∧ IsCode n := by
  cases n with
  | seq items =>
    show (Except.ok _ : Except Error Val) = .ok v ↔ _
    simp [IsCode, eq_comm]
  | prim name args annots =>
    show (if some name = some "Lambda_rec" then Except.ok _ else _) = Except.ok v ↔ _
    by_cases h : name = "Lambda_rec" <;> simp [IsCode, Node.name?, h, eq_comm]
  | _ =>
    refine ⟨by rintro ⟨⟩, ?_⟩
    rintro ⟨-, ⟨_, h⟩ | h⟩ <;> cases h

theorem settle_saplingState_eq_ok_iff {memo : Int} :
    (saplingState i memo).settle n = .ok v
      ↔ v = .code n ∧ ((∃ id, n = .int id) ∨ ∃ items, n = .seq items) := by
  cases n with
  | int id | seq items =>
    show (Except.ok _ : Except Error Val) = .ok v ↔ _
    simp [eq_comm]
  | _ =>
    refine ⟨nofun, ?_⟩
    rintro ⟨-, ⟨_, h⟩ | ⟨_, h⟩⟩ <;> cases h

theorem settle_saplingTransaction_eq_ok_iff {deprecated : Bool} {memo : Int} :
    (saplingTransaction i deprecated memo).settle n = .ok v
      ↔ v = .code n ∧ ∃ data, n = .bytes data := by
  show (Literal.accept _ .blob n >>= fun _ => pure (Val.code n)) = _ ↔ _
  rw [bind_eq_ok_iff]
  simp only [Literal.accept_eq_ok_iff, pure_eq_ok_iff]
  constructor
  · rintro ⟨l, ⟨rfl, hl⟩, rfl⟩
    cases l with
    | bytes data => exact ⟨rfl, data, rfl⟩
    | _ => exact absurd hl.isOf (by simp [Literal.isOf])
  · rintro ⟨rfl, data, rfl⟩
    exact ⟨.bytes data, ⟨rfl, rfl, nofun⟩, rfl⟩

theorem settle_constant_eq_ok_iff {hash : String} :
    (constant i hash).settle n = .ok v ↔ v = .code n := by
  show (Except.ok (Val.code n) : Except Error Val) = .ok v ↔ _
  rw [Except.ok.injEq, eq_comm]

end Types

end Ty

end Micheline
