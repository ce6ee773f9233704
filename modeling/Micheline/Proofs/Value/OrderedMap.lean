/-
Micheline/Proofs/Value/OrderedMap.lean

Ordered maps are finite maps.  Keys of a comparable type whose texts decode are ordered
(`OrderedMap.Key`), and what is equal in this order is one key, however it is written: the
keys of the abstract map are the classes of equal keys.  An abstract entry is the key as it
was first written, with the value.

A map is run by calls (`Request`).  The relation `Represents` says that a map and an abstract
one have the same entries; one call keeps it and is answered alike by both
(`Represents.serve`), and so does a run of calls (`Represents.run`).  `range` follows the
order of the classes.

A call that comes to a key that it cannot compare fails, and the map stays as it is.
-/
import Mathlib.Data.Finmap
import Mathlib.Data.Finset.Sort
import Mathlib.Order.Antisymmetrization
import Micheline.Proofs.Value.Comparable
import Micheline.Proofs.Value.Entry
import Micheline.Value.OrderedMap

namespace Micheline.OrderedMap

open Sorted

/-! ### Keys -/

/-- A value of a comparable type whose texts decode. -/
structure Key (ty : Ty) where
  val : Val
  comparable : ty.isComparable = true
  settled : ∃ n, ty.settle n = .ok val
  decodes : ty.Decodes val

namespace Key

variable {ty : Ty}

/-- A key with its type. -/
def typed (k : Key ty) : Typed := ⟨ty, k.val⟩

/-- The comparison of keys. -/
def cmp (a b : Key ty) : Except Error Ordering :=
  a.typed.compare b.typed

/-- The order of keys. -/
def order (a b : Key ty) : Ordering :=
  match cmp a b with
  | .ok o => o
  | .error _ => .eq

theorem isOrder_cmp : IsOrder (cmp : Key ty → Key ty → Except Error Ordering) where
  swap := (Ty.isOrder_compare ty).swap
  trans := (Ty.isOrder_compare ty).trans

/-- All keys are compared. -/
theorem cmp_eq_order (a b : Key ty) : cmp a b = .ok (order a b) := by
  obtain ⟨m, hm⟩ := a.settled
  obtain ⟨n, hn⟩ := b.settled
  have hcomp := Ty.compares a.comparable (Ty.holds_of_settle hm) (Ty.holds_of_settle hn)
  obtain ⟨o, ho⟩ := hcomp.resolve_right fun h => h.1 ⟨a.decodes, b.decodes⟩
  have hcmp : cmp a b = .ok o := ho
  rw [order, hcmp]

theorem order_swap (a b : Key ty) : order b a = (order a b).swap :=
  Except.ok.inj ((cmp_eq_order b a).symm.trans (isOrder_cmp.swap (cmp_eq_order a b)))

theorem order_self (a : Key ty) : order a a = .eq := by
  have h := order_swap a a
  cases ha : order a a <;> simp_all

theorem order_trans {a b c : Key ty} (hab : order a b ≠ .gt) (hbc : order b c ≠ .gt) :
    order a c = (order a b).then (order b c) :=
  Except.ok.inj ((cmp_eq_order a c).symm.trans
    (isOrder_cmp.trans (cmp_eq_order a b) (cmp_eq_order b c) hab hbc))

instance : Preorder (Key ty) where
  le a b := order a b ≠ .gt
  lt a b := order a b = .lt
  le_refl a := by
    rw [order_self]
    nofun
  le_trans a b c hab hbc := by
    show order a c ≠ .gt
    rw [order_trans hab hbc]
    cases h : order a b with
    | lt => nofun
    | eq => exact hbc
    | gt => exact absurd h hab
  lt_iff_le_not_ge a b := by
    rw [order_swap a b]
    cases order a b <;> simp

instance : DecidableLE (Key ty) := fun a b => inferInstanceAs (Decidable (order a b ≠ .gt))

instance : DecidableLT (Key ty) := fun a b => inferInstanceAs (Decidable (order a b = .lt))

instance : @Std.Total (Key ty) (· ≤ ·) where
  total a b := by
    show order a b ≠ .gt ∨ order b a ≠ .gt
    rw [order_swap a b]
    cases order a b <;> simp

end Key

/-- A key up to the way it is written. -/
abbrev Class (ty : Ty) : Type :=
  Antisymmetrization (Key ty) (· ≤ ·)

/-- The class of a key. -/
def Key.cls {ty : Ty} (k : Key ty) : Class ty :=
  toAntisymmetrization (· ≤ ·) k

section Classes

variable {ty : Ty} {a b : Key ty}

/-- The classes of keys are ordered as the keys are. -/
theorem Key.cls_lt_iff : a.cls < b.cls ↔ Key.cmp a b = .ok .lt := by
  rw [Key.cmp_eq_order, Except.ok.injEq]
  rfl

/-- **Two keys are one if they compare as equal.** -/
theorem Key.cls_eq_iff : a.cls = b.cls ↔ isEqual (Key.cmp a b) = true := by
  rw [isEqual_iff, Key.cmp_eq_order, Except.ok.injEq]
  apply Quotient.eq.trans
  show (Key.order a b ≠ .gt ∧ Key.order b a ≠ .gt) ↔ _
  rw [Key.order_swap a b]
  cases Key.order a b <;> simp

end Classes

/-! ### Calls -/

/-- A call of a map. -/
inductive Request (κ σ : Type) where
  | add (key : κ) (value : Typed)
  | get (key : κ)
  | contains (key : κ)
  | remove (key : κ)
  /-- Visits the entries, from a state on, until a visit says that it was the last one. -/
  | range (visit : σ → Typed → Typed → σ × Bool) (start : σ)

namespace Request

variable {κ κ' σ : Type}

/-- A call for other keys. -/
def map (f : κ → κ') : Request κ σ → Request κ' σ
  | .add key value => .add (f key) value
  | .get key => .get (f key)
  | .contains key => .contains (f key)
  | .remove key => .remove (f key)
  | .range visit start => .range visit start

/-- The key that a call is about. -/
def key? : Request κ σ → Option κ
  | .add key _ => some key
  | .get key => some key
  | .contains key => some key
  | .remove key => some key
  | .range _ _ => none

end Request

/-- What a call returns. -/
inductive Answer (σ : Type) where
  /-- The value that was or is at the key. -/
  | value (value : Option Typed)
  /-- Whether the key is there. -/
  | found (found : Bool)
  /-- The state after the last visit. -/
  | visited (state : σ)

section Edit

variable {m : OrderedMap} {e : Error}
  {change : List (Typed × Typed) → Except Error (Option Typed × List (Typed × Typed))}

/-- An edit that succeeds leaves its entries behind. -/
theorem outcome_edit_of_ok {old : Option Typed} {entries : List (Typed × Typed)}
    (h : change m.entries = .ok (old, entries)) :
    (edit change).outcome m = (.ok old, ⟨entries⟩) :=
  Action.outcome_replace_of_ok (bind_eq_ok_iff.2 ⟨_, h, rfl⟩)

theorem outcome_edit_eq_error_iff :
    ((edit change).outcome m).1 = .error e ↔ change m.entries = .error e :=
  Action.outcome_replace_eq_error_iff.trans map_eq_error_iff

/-- **An edit that fails leaves the map as it was.** -/
theorem outcome_edit_of_error (h : ((edit change).outcome m).1 = .error e) :
    ((edit change).outcome m).2 = m := by
  rw [edit, Action.outcome_replace_of_error (Action.outcome_replace_eq_error_iff.1 h)]

end Edit

section Calls

variable {σ : Type}

/-- The answer to a call, and the map after it. -/
def serve (m : OrderedMap) : Request Typed σ → Except Error (Answer σ) × OrderedMap
  | .add key value =>
    let (old, next) := (insert key value).outcome m
    (old.map .value, next)
  | .get key => ((m.get? key).map .value, m)
  | .contains key => ((m.contains key).map .found, m)
  | .remove key =>
    let (old, next) := (erase key).outcome m
    (old.map .value, next)
  | .range visit start => (.ok (.visited (m.range visit start)), m)

/-- The answers to calls, and the map after them. -/
def run (m : OrderedMap) : List (Request Typed σ) → List (Except Error (Answer σ)) × OrderedMap
  | [] => ([], m)
  | request :: requests =>
    let (answer, next) := serve m request
    let (answers, last) := run next requests
    (answer :: answers, last)

end Calls

/-! ### Finite maps -/

/-- A finite map from the classes of keys.  An entry has the key as it was first written. -/
abbrev FiniteMap (ty : Ty) : Type :=
  Finmap fun _ : Class ty => Key ty × Typed

namespace FiniteMap

variable {ty : Ty} {σ : Type}

/-- The entries in the order of their classes. -/
def ascending (s : FiniteMap ty) : List (Key ty × Typed) :=
  s.keys.sort.filterMap s.lookup

/-- The state after visits of entries, one after another, until one was the last one. -/
def visitAll (visit : σ → Typed → Typed → σ × Bool) (start : σ) (pairs : List (Key ty × Typed)) :
    σ :=
  let last := pairs.foldlM (fun state p =>
    match visit state p.1.typed p.2 with
    | (state, true) => Except.ok state
    | (state, false) => Except.error state) start
  match last with
  | .ok state => state
  | .error state => state

/-- The answer to a call, and the finite map after it. -/
def serve (s : FiniteMap ty) : Request (Key ty) σ → Answer σ × FiniteMap ty
  | .add key value =>
    let entry := s.lookup key.cls
    (.value (entry.map (·.2)), s.insert key.cls ((entry.map (·.1)).getD key, value))
  | .get key => (.value ((s.lookup key.cls).map (·.2)), s)
  | .contains key => (.found (s.lookup key.cls).isSome, s)
  | .remove key => (.value ((s.lookup key.cls).map (·.2)), s.erase key.cls)
  | .range visit start => (.visited (visitAll visit start s.ascending), s)

/-- The answers to calls, and the finite map after them. -/
def run (s : FiniteMap ty) : List (Request (Key ty) σ) → List (Answer σ) × FiniteMap ty
  | [] => ([], s)
  | request :: requests =>
    let (answer, next) := serve s request
    let (answers, last) := run next requests
    (answer :: answers, last)

end FiniteMap

/-! ### The relation -/

section Refinement

variable {ty : Ty} {σ : Type} {m : OrderedMap} {s : FiniteMap ty}

/-- Entries with the types of their keys. -/
def typedEntries (pairs : List (Key ty × Typed)) : List (Typed × Typed) :=
  pairs.map fun p => (p.1.typed, p.2)

/-- An ordered map has the entries of a finite one. -/
structure Represents (m : OrderedMap) (s : FiniteMap ty) (pairs : List (Key ty × Typed)) :
    Prop where
  entries : m.entries = typedEntries pairs
  ascending : Ascending Key.cmp (pairs.map (·.1))
  lookup : ∀ k : Key ty, s.lookup k.cls = entryAt? Key.cmp k pairs

theorem cmp_typed (a b : Key ty) : a.typed.compare b.typed = Key.cmp a b := rfl

theorem exists_cmp (key : Key ty) (pairs : List (Key ty × Typed)) :
    ∀ p ∈ pairs, ∃ o, Key.cmp p.1 key = .ok o :=
  fun p _ => ⟨_, Key.cmp_eq_order p.1 key⟩

variable {pairs : List (Key ty × Typed)}

/-- **The entries stand in the order of their classes.** -/
theorem Represents.ascending_eq (h : Represents m s pairs) : s.ascending = pairs := by
  have hself : ∀ k : Key ty, Key.cmp k k = .ok .eq := fun k => by
    rw [Key.cmp_eq_order, Key.order_self]
  have hlookup : ∀ p ∈ pairs, s.lookup p.1.cls = some p := fun p hp => by
    rw [h.lookup, entryAt?_of_mem h.ascending (hself p.1) hp]
  have hlt : (pairs.map fun p => p.1.cls).Pairwise (· < ·) := by
    have hpairs := List.pairwise_map.1 h.ascending
    exact List.pairwise_map.2 (hpairs.imp fun hpq => Key.cls_lt_iff.2 hpq)
  have hkeys : s.keys = (pairs.map fun p => p.1.cls).toFinset := by
    ext c
    rw [Finmap.mem_keys, Finmap.mem_iff, List.mem_toFinset, List.mem_map]
    constructor
    · rintro ⟨p, hp⟩
      obtain ⟨k, rfl⟩ := Quotient.exists_rep c
      have hentry : entryAt? Key.cmp k pairs = some p := (h.lookup k).symm.trans hp
      obtain ⟨hmem, hkey⟩ := of_entryAt?_eq_some hentry
      exact ⟨p, hmem, Key.cls_eq_iff.2 hkey⟩
    · rintro ⟨p, hp, rfl⟩
      exact ⟨p, hlookup p hp⟩
  -- The classes ascend as the entries do, so sorting them gives the order of the entries.
  have hsort : s.keys.sort = pairs.map fun p => p.1.cls := by
    rw [hkeys]
    exact (List.toFinset_sort (· ≤ ·) (hlt.imp fun hpq => hpq.ne)).2
      (hlt.imp fun hpq => hpq.le)
  rw [FiniteMap.ascending, hsort, List.filterMap_map]
  have hsome : ∀ p ∈ pairs, (s.lookup ∘ fun p : Key ty × Typed => p.1.cls) p = some p := hlookup
  rw [List.filterMap_congr hsome, List.filterMap_some]

/-- The order of the keys is that of values with their types. -/
theorem Represents.ascending_keys (h : Represents m s pairs) :
    Ascending Typed.compare m.keys := by
  rw [keys, h.entries, typedEntries, List.map_map]
  have hpairs := List.pairwise_map.1 h.ascending
  exact List.pairwise_map.2 hpairs

/-- Visiting runs through the entries in both representations until it is stopped. -/
theorem visitAll_eq_go (visit : σ → Typed → Typed → σ × Bool) (start : σ)
    (pairs : List (Key ty × Typed)) :
    range.go visit start (typedEntries pairs) = FiniteMap.visitAll visit start pairs := by
  induction pairs generalizing start with
  | nil => rfl
  | cons p pairs ih =>
    rw [typedEntries, List.map_cons, range.go, FiniteMap.visitAll, List.foldlM_cons]
    rcases visit start p.1.typed p.2 with ⟨state, _ | _⟩
    · rfl
    · exact ih state

/-! ### Step lemmas -/

/-- Both maps find the same at a key. -/
theorem Represents.get? (h : Represents m s pairs) (key : Key ty) :
    m.get? key.typed = .ok ((s.lookup key.cls).map (·.2)) := by
  rw [OrderedMap.get?, h.entries, typedEntries, find?_map cmp_typed, h.lookup]
  exact find?_eq Key.isOrder_cmp h.ascending (exists_cmp key pairs)

/-- Adding to both maps. -/
theorem Represents.insert (h : Represents m s pairs) (key : Key ty) (value : Typed) :
    ∃ m' pairs', (OrderedMap.insert key.typed value).outcome m
        = (.ok ((s.lookup key.cls).map (·.2)), m')
      ∧ Represents m' (s.insert key.cls (((s.lookup key.cls).map (·.1)).getD key, value))
        pairs' := by
  obtain ⟨pairs', hinsert, hentry⟩ :=
    insert_eq Key.isOrder_cmp h.ascending (exists_cmp key pairs) value
  refine ⟨⟨typedEntries pairs'⟩, pairs', ?_, rfl, ?_, ?_⟩
  · apply outcome_edit_of_ok
    rw [h.entries, typedEntries, insert_map cmp_typed, hinsert, h.lookup]
    rfl
  · exact Key.isOrder_cmp.ascending_insert hinsert h.ascending
  · intro k
    rw [hentry, h.lookup]
    by_cases hkey : isEqual (Key.cmp key k) = true
    · rw [if_pos hkey, ← Key.cls_eq_iff.2 hkey, Finmap.lookup_insert]
    · have hne : k.cls ≠ key.cls := fun heq => hkey (Key.cls_eq_iff.1 heq.symm)
      rw [if_neg hkey, Finmap.lookup_insert_of_ne _ hne, h.lookup]

/-- Removing from both maps. -/
theorem Represents.erase (h : Represents m s pairs) (key : Key ty) :
    ∃ m' pairs', (OrderedMap.erase key.typed).outcome m
        = (.ok ((s.lookup key.cls).map (·.2)), m')
      ∧ Represents m' (s.erase key.cls) pairs' := by
  obtain ⟨pairs', herase, hentry⟩ := erase_eq Key.isOrder_cmp h.ascending (exists_cmp key pairs)
  refine ⟨⟨typedEntries pairs'⟩, pairs', ?_, rfl, ?_, ?_⟩
  · apply outcome_edit_of_ok
    rw [h.entries, typedEntries, erase_map cmp_typed, herase, h.lookup]
    rfl
  · exact h.ascending.sublist ((sublist_of_erase herase).map _)
  · intro k
    rw [hentry]
    by_cases hkey : isEqual (Key.cmp key k) = true
    · rw [if_pos hkey, ← Key.cls_eq_iff.2 hkey, Finmap.lookup_erase]
    · have hne : k.cls ≠ key.cls := fun heq => hkey (Key.cls_eq_iff.1 heq.symm)
      rw [if_neg hkey, Finmap.lookup_erase_ne hne, h.lookup]

/-- **A call** is answered alike by both maps, and they stay alike. -/
theorem Represents.serve (h : Represents m s pairs) (request : Request (Key ty) σ) :
    (OrderedMap.serve m (request.map Key.typed)).1 = .ok (FiniteMap.serve s request).1
      ∧ ∃ pairs', Represents (OrderedMap.serve m (request.map Key.typed)).2
          (FiniteMap.serve s request).2 pairs' := by
  cases request with
  | add key value =>
    obtain ⟨m', pairs', hinsert, hrep⟩ := h.insert key value
    simp only [Request.map, OrderedMap.serve, hinsert]
    exact ⟨rfl, pairs', hrep⟩
  | get key =>
    simp only [Request.map, OrderedMap.serve, h.get?]
    exact ⟨rfl, pairs, h⟩
  | contains key =>
    simp only [Request.map, OrderedMap.serve, contains, h.get?]
    refine ⟨?_, pairs, h⟩
    show Except.ok (Answer.found ((s.lookup key.cls).map (·.2)).isSome) = _
    rw [Option.isSome_map]
    rfl
  | remove key =>
    obtain ⟨m', pairs', herase, hrep⟩ := h.erase key
    simp only [Request.map, OrderedMap.serve, herase]
    exact ⟨rfl, pairs', hrep⟩
  | range visit start =>
    refine ⟨?_, pairs, h⟩
    show Except.ok (Answer.visited (OrderedMap.range.go visit start m.entries)) = _
    rw [h.entries, visitAll_eq_go, ← h.ascending_eq]
    rfl

/-! ### Runs -/

/-- **Calls one after another.** -/
theorem Represents.run (h : Represents m s pairs) (requests : List (Request (Key ty) σ)) :
    (OrderedMap.run m (requests.map (Request.map Key.typed))).1
        = (FiniteMap.run s requests).1.map .ok
      ∧ ∃ pairs', Represents (OrderedMap.run m (requests.map (Request.map Key.typed))).2
          (FiniteMap.run s requests).2 pairs' := by
  induction requests generalizing m s pairs with
  | nil => exact ⟨rfl, pairs, h⟩
  | cons request requests ih =>
    obtain ⟨hanswer, pairs', hnext⟩ := h.serve request
    obtain ⟨hanswers, hlast⟩ := ih hnext
    refine ⟨?_, hlast⟩
    show (OrderedMap.serve m (request.map Key.typed)).1 :: _ = Except.ok _ :: _
    rw [hanswer]
    exact congrArg _ hanswers

theorem represents_empty : Represents empty (∅ : FiniteMap ty) [] where
  entries := rfl
  ascending := List.Pairwise.nil
  lookup _ := Finmap.lookup_empty _

/-- **A call fails** exactly if it comes to a key that it cannot compare. -/
theorem serve_eq_error_iff {request : Request Typed σ} {e : Error} :
    (OrderedMap.serve m request).1 = .error e
      ↔ ∃ key, request.key? = some key ∧ Stuck Typed.compare key e m.entries := by
  have hkey (key : Typed) : Stuck Typed.compare key e m.entries
      ↔ ∃ k, some key = some k ∧ Stuck Typed.compare k e m.entries := by simp
  -- Each call compares its key with the entries in order, and gets stuck at the same one.
  have hget (key : Typed) : m.get? key = .error e ↔ Stuck Typed.compare key e m.entries :=
    find?_eq_error_iff
  cases request with
  | add key value =>
    have hinsert : ((OrderedMap.insert key value).outcome m).1 = .error e
        ↔ Stuck Typed.compare key e m.entries :=
      outcome_edit_eq_error_iff.trans (insert_eq_error_iff value)
    exact (map_eq_error_iff.trans hinsert).trans (hkey key)
  | get key => exact (map_eq_error_iff.trans (hget key)).trans (hkey key)
  | contains key =>
    have hcontains : m.contains key = .error e ↔ Stuck Typed.compare key e m.entries :=
      map_eq_error_iff.trans (hget key)
    exact (map_eq_error_iff.trans hcontains).trans (hkey key)
  | remove key =>
    have herase : ((OrderedMap.erase key).outcome m).1 = .error e
        ↔ Stuck Typed.compare key e m.entries :=
      outcome_edit_eq_error_iff.trans erase_eq_error_iff
    exact (map_eq_error_iff.trans herase).trans (hkey key)
  | range visit start =>
    constructor
    · rintro ⟨⟩
    · rintro ⟨_, ⟨⟩, _⟩

/-- A call that fails leaves the map as it was. -/
theorem serve_of_error {request : Request Typed σ} {e : Error}
    (h : (OrderedMap.serve m request).1 = .error e) : (OrderedMap.serve m request).2 = m := by
  cases request with
  | add key value | remove key =>
    exact outcome_edit_of_error (map_eq_error_iff.1 h)
  | _ => rfl

end Refinement

/-- **Ordered maps are finite maps.**  Calls from the empty map on are all answered, as a
finite map from the classes of keys answers them; the keys ascend, and the entries are those
of the finite map in the order of the classes.  Calls with other keys fail exactly if they
come to a key that cannot be compared, and then the map stays as it is. -/
theorem refines_finiteMap (ty : Ty) (σ : Type) :
    (∀ requests : List (Request (Key ty) σ),
        (run empty (requests.map (Request.map Key.typed))).1
            = (FiniteMap.run ∅ requests).1.map .ok
          ∧ Ascending Typed.compare (run empty (requests.map (Request.map Key.typed))).2.keys
          ∧ (run empty (requests.map (Request.map Key.typed))).2.entries
            = typedEntries (FiniteMap.run ∅ requests).2.ascending)
      ∧ ∀ (m : OrderedMap) (request : Request Typed σ) (e : Error),
          ((serve m request).1 = .error e
            ↔ ∃ key, request.key? = some key ∧ Stuck Typed.compare key e m.entries)
          ∧ ((serve m request).1 = .error e → (serve m request).2 = m) := by
  refine ⟨fun requests => ?_, fun m request e => ⟨serve_eq_error_iff, serve_of_error⟩⟩
  obtain ⟨hanswers, pairs, hlast⟩ := represents_empty.run requests
  refine ⟨hanswers, hlast.ascending_keys, ?_⟩
  rw [hlast.ascending_eq, hlast.entries]

/-- The same point in time written as text and as seconds, and a text that is none. -/
theorem refines_finiteMap_moment :
    let moment : Ty := .scalar ⟨0, 0, []⟩ .timestamp
    let value (i : Int) : Typed := ⟨.scalar ⟨0, 0, []⟩ .int, .literal (.int i)⟩
    let text : Key moment := ⟨.literal (.string "1970-01-01T00:01:40Z"), rfl,
      ⟨.string "1970-01-01T00:01:40Z", rfl⟩, List.forall_mem_singleton.2 ⟨100, rfl⟩⟩
    let seconds : Key moment := ⟨.literal (.int 100), rfl, ⟨.int 100, rfl⟩,
      List.forall_mem_singleton.2 trivial⟩
    let requests : List (Request (Key moment) Unit) :=
      [.add text (value 1), .add seconds (value 2), .get text]
    let m := (run empty (requests.map (Request.map Key.typed))).2
    let wrong : Request Typed Unit := .remove ⟨moment, .literal (.string "soon")⟩
    (run empty (requests.map (Request.map Key.typed))).1
        = [.ok (.value none), .ok (.value (some (value 1))), .ok (.value (some (value 2)))]
      ∧ m.entries = [(text.typed, value 2)]
      ∧ typedEntries (FiniteMap.run ∅ requests).2.ascending = [(text.typed, value 2)]
      ∧ (∃ e, (serve m wrong).1 = .error e) ∧ (serve m wrong).2 = m := by
  intro moment value text seconds requests m wrong
  have hm : m.entries = [(text.typed, value 2)] := rfl
  obtain ⟨hrun, hfail⟩ := refines_finiteMap moment Unit
  obtain ⟨-, -, hentries⟩ := hrun requests
  have hwrong : ∃ e, (serve m wrong).1 = .error e := ⟨_, rfl⟩
  obtain ⟨e, he⟩ := hwrong
  exact ⟨rfl, hm, hentries.symm.trans hm, ⟨e, he⟩, (hfail m wrong e).2 he⟩

end Micheline.OrderedMap
