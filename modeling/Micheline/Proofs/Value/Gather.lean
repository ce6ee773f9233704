/-
Micheline/Proofs/Value/Gather.lean

What sets and maps are made of, whatever the order in which their entries are written.  Of
the keys that are equal to each other one is there, the one that was written first, and with
it the value that was written last; the keys ascend (`Gathers`, `GathersEntries`).

The argument goes through the entry at a key: in a list that is made by inserting, the entry
at a key is the first one written for it with the value of the last one
(`exists_foldlM_put`).  A set is treated as a map without values.  Where no two keys are equal
the entries are those that were written, so that their order is forgotten
(`foldlM_put_of_perm`).

Main result: what sets, maps and big maps settle to (`Ty.settle_gathers`).
-/
import Mathlib.Data.List.Induction
import Mathlib.Data.List.Pairwise
import Micheline.Proofs.Value.Comparable
import Micheline.Proofs.Value.Entry

namespace Micheline

namespace Sorted

variable {ε κ ν α : Type} {cmp : κ → κ → Except ε Ordering}

/-- All keys can be compared with each other. -/
def AllCompare (cmp : κ → κ → Except ε Ordering) (xs : List κ) : Prop :=
  ∀ a ∈ xs, ∀ b ∈ xs, ∃ o, cmp a b = .ok o

theorem AllCompare.of_perm {xs xs' : List κ} (h : AllCompare cmp xs) (hp : xs.Perm xs') :
    AllCompare cmp xs' :=
  fun a ha b hb => h a (hp.mem_iff.2 ha) b (hp.mem_iff.2 hb)

/-- The elements are those that were written, in ascending order and without those that are
equal to one before them. -/
structure Gathers (cmp : κ → κ → Except ε Ordering) (written done : List κ) : Prop where
  ascending : Ascending cmp done
  /-- Of equal elements exactly one is there. -/
  classes : ∀ x ∈ written, ∃! y, y ∈ done ∧ cmp y x = .ok .eq
  /-- It is the one that was written first. -/
  first : ∀ y ∈ done, ∃ before after, written = before ++ y :: after
    ∧ ∀ x ∈ before, cmp x y ≠ .ok .eq

/-- The entries have the keys that were written, without those that are equal to one before
them, and the values that were written last. -/
structure GathersEntries (cmp : κ → κ → Except ε Ordering) (written done : List (κ × ν)) :
    Prop where
  keys : Gathers cmp (written.map (·.1)) (done.map (·.1))
  /-- After the value no other one was written for an equal key. -/
  last : ∀ q ∈ done, ∃ before k after, written = before ++ (k, q.2) :: after
    ∧ cmp k q.1 = .ok .eq ∧ ∀ p ∈ after, cmp p.1 q.1 ≠ .ok .eq

/-! ### Equal keys -/

/-- In a list in which no two keys are equal, a key determines its entry. -/
theorem IsOrder.eq_of_mem (hc : IsOrder cmp) {key : α → κ} {xs : List α}
    (h : xs.Pairwise fun a b => cmp (key a) (key b) ≠ .ok .eq) {a b : α} (ha : a ∈ xs)
    (hb : b ∈ xs) (hab : cmp (key a) (key b) = .ok .eq) : a = b := by
  have hsymm : Std.Symm fun a b : α => cmp (key a) (key b) ≠ .ok .eq :=
    ⟨fun _ _ hxy hyx => hxy (hc.swap hyx)⟩
  by_contra hne
  exact h.forall ha hb hne hab

/-- No two elements of an ascending list are equal in the order. -/
theorem IsOrder.eq_of_ascending (hc : IsOrder cmp) {xs : List κ} (h : Ascending cmp xs) {a b : κ}
    (ha : a ∈ xs) (hb : b ∈ xs) (hab : cmp a b = .ok .eq) : a = b := by
  have hne : xs.Pairwise fun a b => cmp (id a) (id b) ≠ .ok .eq := h.imp fun hlt heq => by
    cases hlt.symm.trans heq
  exact hc.eq_of_mem hne ha hb hab

/-- An entry at a key has entries before it that are at other keys. -/
theorem entryAt?_eq_some_iff {key : κ} {pairs : List (κ × ν)} {p : κ × ν} :
    entryAt? cmp key pairs = some p ↔ cmp p.1 key = .ok .eq
      ∧ ∃ before after, pairs = before ++ p :: after ∧ ∀ q ∈ before, cmp q.1 key ≠ .ok .eq := by
  rw [entryAt?, List.find?_eq_some_iff_append, isEqual_iff]
  simp only [Bool.not_eq_true', ← Bool.not_eq_true, isEqual_iff, ne_eq]

theorem exists_entryAt? {key : κ} {pairs : List (κ × ν)} {p : κ × ν} (hp : p ∈ pairs)
    (hkey : cmp p.1 key = .ok .eq) : ∃ q, entryAt? cmp key pairs = some q := by
  rw [← Option.isSome_iff_exists, entryAt?, List.find?_isSome]
  exact ⟨p, hp, isEqual_iff.2 hkey⟩

/-! ### Inserting what was written -/

/-- The first of the entries that were written for a key, with the value of the last one. -/
def writtenAt? (cmp : κ → κ → Except ε Ordering) (key : κ) (pairs : List (κ × ν)) :
    Option (κ × ν) := do
  let first ← entryAt? cmp key pairs
  let last ← entryAt? cmp key pairs.reverse
  return (first.1, last.2)

theorem writtenAt?_eq_some_iff {key : κ} {pairs : List (κ × ν)} {q : κ × ν} :
    writtenAt? cmp key pairs = some q
      ↔ ∃ first last, entryAt? cmp key pairs = some first
        ∧ entryAt? cmp key pairs.reverse = some last ∧ (first.1, last.2) = q := by
  simp only [writtenAt?, Option.bind_eq_bind, Option.bind_eq_some_iff, Option.pure_def,
    Option.some.injEq, exists_and_left]

/-- One more entry replaces the value at its key, and leaves the key that was written first. -/
theorem writtenAt?_append_singleton (hc : IsOrder cmp) (key : κ) (pairs : List (κ × ν))
    (p : κ × ν) :
    writtenAt? cmp key (pairs ++ [p])
      = if isEqual (cmp p.1 key) then
          some (((writtenAt? cmp p.1 pairs).map (·.1)).getD p.1, p.2)
        else writtenAt? cmp key pairs := by
  have hfirst : entryAt? cmp key (pairs ++ [p])
      = (entryAt? cmp key pairs).or (entryAt? cmp key [p]) := List.find?_append
  have hlast : entryAt? cmp key (pairs ++ [p]).reverse
      = if isEqual (cmp p.1 key) then some p else entryAt? cmp key pairs.reverse := by
    rw [List.reverse_append]
    exact entryAt?_cons p
  rw [writtenAt?, hfirst, hlast, entryAt?_cons]
  by_cases hp : isEqual (cmp p.1 key)
  · rw [if_pos hp, if_pos hp, if_pos hp, writtenAt?, entryAt?_congr hc (isEqual_iff.1 hp),
      entryAt?_congr hc (isEqual_iff.1 hp)]
    rcases hat : entryAt? cmp key pairs with - | first
    · rfl
    · -- a first entry has a last one
      obtain ⟨hin, heq⟩ := of_entryAt?_eq_some hat
      obtain ⟨last, hlast⟩ := exists_entryAt? (List.mem_reverse.2 hin) (isEqual_iff.1 heq)
      rw [hlast]
      rfl
  · rw [if_neg hp, if_neg hp, if_neg hp, writtenAt?]
    rcases entryAt? cmp key pairs <;> rfl

/-- **The entry at a key**, after entries were inserted one by one. -/
theorem exists_foldlM_put (hc : IsOrder cmp) {pairs : List (κ × ν)}
    (h : AllCompare cmp (pairs.map (·.1))) :
    ∃ done, pairs.foldlM (put cmp) [] = .ok done
      ∧ ∀ key, entryAt? cmp key done = writtenAt? cmp key pairs := by
  induction pairs using List.reverseRecOn with
  | nil => exact ⟨[], rfl, fun _ => rfl⟩
  | append_singleton pairs p ih =>
    rw [List.map_append] at h
    have hpairs : AllCompare cmp (pairs.map (·.1)) := fun a ha b hb =>
      h a (List.mem_append_left _ ha) b (List.mem_append_left _ hb)
    obtain ⟨done, hdone, hentry⟩ := ih hpairs
    obtain ⟨hascending, hmem⟩ := hc.ascending_foldlM_put hdone List.Pairwise.nil
    -- Keys that were put in came from the list, so the next key compares with each of them.
    have hk : ∀ q ∈ done, ∃ o, cmp q.1 p.1 = .ok o := fun q hq =>
      h q.1 (List.mem_append_left _ ((hmem q hq).1.resolve_left List.not_mem_nil)) p.1 (by simp)
    obtain ⟨done', hinsert, hentry'⟩ := insert_eq hc hascending hk p.2
    refine ⟨done', ?_, fun key => ?_⟩
    · rw [List.foldlM_append, hdone]
      show (put cmp done p >>= pure) = _
      rw [put, hinsert]
      rfl
    · rw [hentry', hentry, hentry, writtenAt?_append_singleton hc]

/-- **Inserting gathers.** -/
theorem exists_gathersEntries (hc : IsOrder cmp) {pairs : List (κ × ν)}
    (h : AllCompare cmp (pairs.map (·.1))) :
    ∃ done, pairs.foldlM (put cmp) [] = .ok done ∧ GathersEntries cmp pairs done := by
  obtain ⟨done, hdone, hentry⟩ := exists_foldlM_put hc h
  obtain ⟨hascending, hmem⟩ := hc.ascending_foldlM_put hdone List.Pairwise.nil
  have hself : ∀ k ∈ pairs.map (·.1), cmp k k = .ok .eq := fun k hk => hc.self_eq (h k hk k hk)
  -- every entry is the one at its key
  have hwritten : ∀ q ∈ done, writtenAt? cmp q.1 pairs = some q := by
    intro q hq
    have hkey := (hmem q hq).1.resolve_left List.not_mem_nil
    rw [← hentry, entryAt?_of_mem hascending (hself q.1 hkey) hq]
  refine ⟨done, hdone, ⟨hascending, fun x hx => ?_, fun y hy => ?_⟩, fun q hq => ?_⟩
  · -- what was written for a key has an entry, and two would be in order
    obtain ⟨p, hp, rfl⟩ := List.mem_map.1 hx
    obtain ⟨first, hfirst⟩ := exists_entryAt? hp (hself p.1 hx)
    obtain ⟨last, hlast⟩ := exists_entryAt? (List.mem_reverse.2 hp) (hself p.1 hx)
    have hat : entryAt? cmp p.1 done = some (first.1, last.2) :=
      (hentry p.1).trans (writtenAt?_eq_some_iff.2 ⟨first, last, hfirst, hlast, rfl⟩)
    obtain ⟨hin, heq⟩ := of_entryAt?_eq_some hat
    have hkey : first.1 ∈ done.map (·.1) := List.mem_map.2 ⟨_, hin, rfl⟩
    refine ⟨first.1, ⟨hkey, isEqual_iff.1 heq⟩, ?_⟩
    rintro y ⟨hy, hyx⟩
    have hyfirst : cmp y first.1 = .ok .eq :=
      hc.trans hyx (hc.swap (isEqual_iff.1 heq)) nofun nofun
    exact hc.eq_of_ascending hascending hy hkey hyfirst
  · -- the key
    obtain ⟨q, hq, rfl⟩ := List.mem_map.1 hy
    obtain ⟨first, last, hfirst, -, rfl⟩ := writtenAt?_eq_some_iff.1 (hwritten q hq)
    obtain ⟨-, before, after, rfl, hbefore⟩ := entryAt?_eq_some_iff.1 hfirst
    refine ⟨before.map (·.1), after.map (·.1), by simp, fun x hx => ?_⟩
    obtain ⟨p, hp, rfl⟩ := List.mem_map.1 hx
    exact hbefore p hp
  · -- the value, which was the first one from the end
    obtain ⟨first, last, -, hlast, rfl⟩ := writtenAt?_eq_some_iff.1 (hwritten q hq)
    obtain ⟨hkey, before, after, hpairs, hbefore⟩ := entryAt?_eq_some_iff.1 hlast
    refine ⟨after.reverse, last.1, before.reverse, ?_, hkey, fun p hp => ?_⟩
    · have hrev := congrArg List.reverse hpairs
      simpa using hrev
    · exact hbefore p (List.mem_reverse.1 hp)

/-! ### Any order -/

/-- Where no two keys are equal, the entries are those that were written. -/
theorem GathersEntries.mem_iff (hc : IsOrder cmp) {pairs done : List (κ × ν)}
    (h : GathersEntries cmp pairs done)
    (hne : pairs.Pairwise fun p q => cmp p.1 q.1 ≠ .ok .eq) (q : κ × ν) :
    q ∈ done ↔ q ∈ pairs := by
  have hmem : ∀ q ∈ done, q ∈ pairs := by
    intro q hq
    obtain ⟨before, k, after, hpairs, hkey, -⟩ := h.last q hq
    obtain ⟨before', after', hkeys, -⟩ := h.keys.first q.1 (List.mem_map_of_mem hq)
    have hk : (k, q.2) ∈ pairs := by simp [hpairs]
    obtain ⟨p, hp, hpq⟩ : ∃ p ∈ pairs, p.1 = q.1 :=
      List.mem_map.1 (hkeys ▸ by simp)
    obtain rfl := hc.eq_of_mem hne hk hp (hpq ▸ hkey)
    obtain rfl : k = q.1 := hpq
    exact hp
  refine ⟨hmem q, fun hq => ?_⟩
  obtain ⟨y, ⟨hy, hyq⟩, -⟩ := h.keys.classes q.1 (List.mem_map_of_mem hq)
  obtain ⟨p, hp, rfl⟩ := List.mem_map.1 hy
  exact hc.eq_of_mem hne (hmem p hp) hq hyq ▸ hp

/-- **The order of entries with different keys is forgotten.** -/
theorem foldlM_put_of_perm (hc : IsOrder cmp) {pairs pairs' : List (κ × ν)}
    (h : AllCompare cmp (pairs.map (·.1))) (hp : pairs.Perm pairs')
    (hne : pairs.Pairwise fun p q => cmp p.1 q.1 ≠ .ok .eq) :
    pairs'.foldlM (put cmp) [] = pairs.foldlM (put cmp) [] := by
  have hne' : pairs'.Pairwise fun p q => cmp p.1 q.1 ≠ .ok .eq :=
    hp.pairwise hne fun hxy hyx => hxy (hc.swap hyx)
  obtain ⟨done, hdone, hg⟩ := exists_gathersEntries hc h
  obtain ⟨done', hdone', hg'⟩ := exists_gathersEntries hc (h.of_perm (hp.map _))
  have hmem (q : κ × ν) : q ∈ done' ↔ q ∈ done := by
    rw [hg'.mem_iff hc hne', hg.mem_iff hc hne, hp.mem_iff]
  have hself : ∀ q ∈ done, cmp q.1 q.1 = .ok .eq := fun q hq => by
    have hk := List.mem_map_of_mem (f := (·.1)) ((hg.mem_iff hc hne q).1 hq)
    exact hc.self_eq (h q.1 hk q.1 hk)
  rw [hdone, hdone', hc.eq_of_mem_iff hg'.keys.ascending hg.keys.ascending hself hmem]

/-! ### Sets -/

/-- Elements are added as keys are inserted. -/
theorem map_fst_foldlM_put (done pairs : List (κ × ν)) :
    (pairs.foldlM (put cmp) done).map (List.map (·.1))
      = (pairs.map (·.1)).foldlM (fun done x => add cmp x done) (done.map (·.1)) := by
  induction pairs generalizing done with
  | nil => rfl
  | cons p pairs ih =>
    rw [List.map_cons, List.foldlM_cons, List.foldlM_cons, ← map_fst_insert p.1 p.2, put]
    rcases insert cmp p.1 p.2 done with e | ⟨old, made⟩
    · rfl
    · exact ih made

theorem map_fst_keys (xs : List κ) : (xs.map fun x => (x, ())).map (·.1) = xs := by
  rw [List.map_map]
  exact List.map_id xs

/-- The elements of a set, as keys without values. -/
theorem foldlM_add_eq (xs : List κ) :
    xs.foldlM (fun done x => add cmp x done) []
      = ((xs.map fun x => (x, ())).foldlM (put cmp) []).map (List.map (·.1)) := by
  rw [map_fst_foldlM_put, map_fst_keys]
  rfl

/-- Keys that compare with each other are gathered. -/
theorem exists_gathers (hc : IsOrder cmp) {xs : List κ} (h : AllCompare cmp xs) :
    ∃ done, xs.foldlM (fun done x => add cmp x done) [] = .ok done ∧ Gathers cmp xs done := by
  have hkeys : AllCompare cmp ((xs.map fun x => (x, ())).map (·.1)) := by
    rwa [map_fst_keys]
  obtain ⟨done, hdone, hg⟩ := exists_gathersEntries hc hkeys
  refine ⟨done.map (·.1), ?_, map_fst_keys xs ▸ hg.keys⟩
  rw [foldlM_add_eq, hdone]
  rfl

/-- Adding different keys does not depend on their order. -/
theorem foldlM_add_of_perm (hc : IsOrder cmp) {xs xs' : List κ} (h : AllCompare cmp xs)
    (hp : xs.Perm xs') (hne : xs.Pairwise fun a b => cmp a b ≠ .ok .eq) :
    xs'.foldlM (fun done x => add cmp x done) []
      = xs.foldlM (fun done x => add cmp x done) [] := by
  have hkeys : AllCompare cmp ((xs.map fun x => (x, ())).map (·.1)) := by
    rwa [map_fst_keys]
  rw [foldlM_add_eq, foldlM_add_eq, foldlM_put_of_perm hc hkeys (hp.map _)
    (List.pairwise_map.2 hne)]

end Sorted

/-! ### What is settled -/

namespace Ty

open Sorted

variable {key value : Ty} {i : Info}

/-- Settled keys that decode compare with each other. -/
theorem allCompare_of_settle (hkey : key.isComparable = true) {xs : List Val}
    (h : ∀ x ∈ xs, ∃ n, key.settle n = .ok x) (hd : ∀ x ∈ xs, key.Decodes x) :
    AllCompare key.compare xs := by
  intro a ha b hb
  obtain ⟨m, hm⟩ := h a ha
  obtain ⟨n, hn⟩ := h b hb
  have hcomp := compares hkey (holds_of_settle hm) (holds_of_settle hn)
  exact hcomp.resolve_right fun herror => herror.1 ⟨hd a ha, hd b hb⟩

/-- The settled elements can be compared. -/
theorem allCompare_of_mapM (hkey : key.isComparable = true) {items : List Node}
    {values : List Val} (h : items.mapM key.settle = .ok values)
    (hd : ∀ x ∈ values, key.Decodes x) : AllCompare key.compare values := by
  refine allCompare_of_settle hkey (fun x hx => ?_) hd
  obtain ⟨item, -, hitem⟩ := exists_of_mem_mapM h x hx
  exact ⟨item, hitem⟩

/-- The settled keys can be compared. -/
theorem allCompare_keys_of_mapM (hkey : key.isComparable = true) {items : List Node}
    {pairs : List (Val × Val)} (h : items.mapM (settleEntry key value) = .ok pairs)
    (hd : ∀ p ∈ pairs, key.Decodes p.1) : AllCompare key.compare (pairs.map (·.1)) := by
  refine allCompare_of_settle hkey (List.forall_mem_map.2 fun p hp => ?_)
    (List.forall_mem_map.2 hd)
  obtain ⟨item, -, hitem⟩ := exists_of_mem_mapM h p hp
  obtain ⟨k, v, annots, -, hk, -⟩ := settleEntry_eq_ok_iff.1 hitem
  exact ⟨k, hk⟩

theorem settle_set_of_mapM {items : List Node} {values done : List Val}
    (h : items.mapM key.settle = .ok values)
    (hdone : values.foldlM (fun done x => add key.compare x done) [] = .ok done) :
    (set i key).settle (.seq items) = .ok (.items done) :=
  settle_set_eq_ok_iff.2 ⟨items, values, done, rfl, h, hdone, rfl⟩

/-- **Sets and maps do not depend on the order of their entries.**  Whatever the entries are,
if each of them settles and the keys are comparable and decode, the set or the map is made.
Of equal keys it has one, where the order of the keys puts it: the one that was written first,
in a map with the value that was written last.  Where no two keys are equal, the entries may be
written in any order. -/
theorem settle_gathers (hkey : key.isComparable = true) :
    (∀ (i : Info) (items : List Node) (values : List Val),
        items.mapM key.settle = .ok values → (∀ x ∈ values, key.Decodes x) →
        (∃ done, (set i key).settle (.seq items) = .ok (.items done)
          ∧ Gathers key.compare values done)
        ∧ (values.Pairwise (fun a b => key.compare a b ≠ .ok .eq) →
            ∀ items', items.Perm items' →
              (set i key).settle (.seq items') = (set i key).settle (.seq items)))
      ∧ ∀ (i : Info) (value : Ty) (items : List Node) (pairs : List (Val × Val)),
        items.mapM (settleEntry key value) = .ok pairs → (∀ p ∈ pairs, key.Decodes p.1) →
        (∃ done, (map i key value).settle (.seq items) = .ok (.entries none done)
          ∧ (bigMap i key value).settle (.seq items) = .ok (.entries none done)
          ∧ GathersEntries key.compare pairs done)
        ∧ (pairs.Pairwise (fun p q => key.compare p.1 q.1 ≠ .ok .eq) →
            ∀ items', items.Perm items' →
              (map i key value).settle (.seq items') = (map i key value).settle (.seq items)
              ∧ (bigMap i key value).settle (.seq items')
                = (bigMap i key value).settle (.seq items)) := by
  have hc := isOrder_compare key
  refine ⟨fun i items values h hd => ?_, fun i value items pairs h hd => ?_⟩
  -- Inserting cannot fail once the keys compare with each other, and then its result does not
  -- depend on the order in which different keys come.
  · have hcompare := allCompare_of_mapM hkey h hd
    obtain ⟨done, hdone, hg⟩ := exists_gathers hc hcompare
    have hmade := settle_set_of_mapM (i := i) h hdone
    refine ⟨⟨done, hmade, hg⟩, fun hne items' hp => ?_⟩
    obtain ⟨values', h', hp'⟩ := exists_mapM_of_perm hp h
    have hsame := foldlM_add_of_perm hc hcompare hp' hne
    rw [hmade, settle_set_of_mapM h' (hsame.trans hdone)]
  · have hcompare := allCompare_keys_of_mapM hkey h hd
    obtain ⟨done, hdone, hg⟩ := exists_gathersEntries hc hcompare
    have hmade {ty : Ty} (hty : ty.HasEntries key value) :
        ty.settle (.seq items) = .ok (.entries none done) :=
      (settle_entries_eq_ok_iff hty).2 ⟨pairs, done, h, hdone, rfl⟩
    refine ⟨⟨done, hmade .map, hmade .bigMap, hg⟩, fun hne items' hp => ?_⟩
    obtain ⟨pairs', h', hp'⟩ := exists_mapM_of_perm hp h
    have hsame := foldlM_put_of_perm hc hcompare hp' hne
    have hmade' {ty : Ty} (hty : ty.HasEntries key value) :
        ty.settle (.seq items') = ty.settle (.seq items) := by
      rw [hmade hty]
      exact (settle_entries_eq_ok_iff hty).2 ⟨pairs', done, h', hsame.trans hdone, rfl⟩
    exact ⟨hmade' .map, hmade' .bigMap⟩

/-- The same point in time is written as a text and as a number, with two values.  The text
stays, with the second of them; it may also stand behind a point that is before it. -/
theorem settle_gathers_moments :
    let info : Info := ⟨0, 0, []⟩
    let key : Ty := .scalar info .timestamp
    let value : Ty := .scalar info .nat
    let text : Literal := .string "1970-01-01T00:01:40Z"
    let elt (k v : Literal) : Node := .app "Elt" [k.node, v.node]
    let done : List (Val × Val) := [(.literal (.int 5), .literal (.int 2)),
      (.literal text, .literal (.int 3))]
    (map info key value).settle
        (.seq [elt text (.int 1), elt (.int 5) (.int 2), elt (.int 100) (.int 3)])
        = .ok (.entries none done)
      ∧ GathersEntries key.compare [(.literal text, .literal (.int 1)),
          (.literal (.int 5), .literal (.int 2)), (.literal (.int 100), .literal (.int 3))] done
      ∧ (set info key).settle (.seq [.int 5, text.node])
        = (set info key).settle (.seq [text.node, .int 5]) := by
  intro info key value text elt done
  have htext : key.Decodes (.literal text) := List.forall_mem_singleton.2 ⟨100, rfl⟩
  have hnumber (z : Int) : key.Decodes (.literal (.int z)) := List.forall_mem_singleton.2 trivial
  have hkey : key.isComparable = true := rfl
  obtain ⟨hset, hmap⟩ := settle_gathers hkey
  obtain ⟨⟨done', hmade, -, hg⟩, -⟩ := hmap info value
    [elt text (.int 1), elt (.int 5) (.int 2), elt (.int 100) (.int 3)] _ rfl
    (List.forall_mem_cons.2 ⟨htext, List.forall_mem_cons.2 ⟨hnumber 5,
      List.forall_mem_singleton.2 (hnumber 100)⟩⟩)
  obtain ⟨-, hsame⟩ := hset info [text.node, .int 5] _ rfl
    (List.forall_mem_cons.2 ⟨htext, List.forall_mem_singleton.2 (hnumber 5)⟩)
  obtain rfl : done' = done := Val.entries.inj (Except.ok.inj (hmade.symm.trans rfl)) |>.2
  have hgt : key.compare (.literal text) (.literal (.int 5)) = .ok .gt := rfl
  refine ⟨hmade, hg, hsame (List.pairwise_pair.2 ?_) _ (List.Perm.swap _ _ _)⟩
  rw [hgt]
  nofun

end Ty

end Micheline
