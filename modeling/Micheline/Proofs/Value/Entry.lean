/-
Micheline/Proofs/Value/Entry.lean

What a search in an ascending list of entries finds.  The entry at a key is the one whose
key is equal to it (`entryAt?`).  A search stops at the first key that is not less, and because
the list ascends it misses nothing: `find?`, `insert` and `erase` return what stands at the
key, and the entries at all keys afterwards are told by those before (`insert_eq`,
`erase_eq`).

A search fails exactly if it comes to a key that cannot be compared (`Stuck`); so the entries
after one that succeeds are told without asking which keys can be compared
(`entryAt?_of_insert`, `entryAt?_of_erase`).
-/
import Micheline.Proofs.Value.Sorted

namespace Micheline.Sorted

variable {ε κ κ' ν : Type} {cmp : κ → κ → Except ε Ordering}

/-- Whether keys were compared and are equal. -/
def isEqual : Except ε Ordering → Bool
  | .ok .eq => true
  | _ => false

theorem isEqual_iff {x : Except ε Ordering} : isEqual x = true ↔ x = .ok .eq := by
  rcases x with e | - | - | - <;> simp [isEqual]

/-- Equal keys are equal to the same keys. -/
theorem isEqual_congr (hc : IsOrder cmp) {a b : κ} (hab : cmp a b = .ok .eq) (c : κ) :
    isEqual (cmp a c) = isEqual (cmp b c) := by
  apply Bool.eq_iff_iff.2
  rw [isEqual_iff, isEqual_iff]
  exact ⟨hc.congr hab, hc.congr (hc.swap hab)⟩

theorem isEqual_congr_right (hc : IsOrder cmp) {a b : κ} (hab : cmp a b = .ok .eq) (c : κ) :
    isEqual (cmp c a) = isEqual (cmp c b) := by
  have hswap {x y : κ} (h : cmp x y = .ok .eq) : cmp y x = .ok .eq := hc.swap h
  apply Bool.eq_iff_iff.2
  rw [isEqual_iff, isEqual_iff]
  exact ⟨fun h => hswap (hc.congr hab (hswap h)), fun h => hswap (hc.congr (hswap hab) (hswap h))⟩

/-- The entry whose key is equal to a key. -/
def entryAt? (cmp : κ → κ → Except ε Ordering) (key : κ) (pairs : List (κ × ν)) : Option (κ × ν) :=
  pairs.find? fun p => isEqual (cmp p.1 key)

/-! ### The entry at a key -/

section Entry

variable {key k : κ} {v : ν} {pairs : List (κ × ν)}

theorem entryAt?_cons (p : κ × ν) :
    entryAt? cmp key (p :: pairs)
      = if isEqual (cmp p.1 key) then some p else entryAt? cmp key pairs := by
  rw [entryAt?, List.find?_cons]
  cases isEqual (cmp p.1 key) <;> rfl

/-- The same entry stands at equal keys. -/
theorem entryAt?_congr (hc : IsOrder cmp) {a b : κ} (hab : cmp a b = .ok .eq)
    (pairs : List (κ × ν)) : entryAt? cmp a pairs = entryAt? cmp b pairs := by
  rw [entryAt?, entryAt?]
  congr 1
  exact funext fun p => isEqual_congr_right hc hab p.1

theorem of_entryAt?_eq_some {p : κ × ν} (h : entryAt? cmp key pairs = some p) :
    p ∈ pairs ∧ isEqual (cmp p.1 key) = true := by
  have hkey := List.find?_some h
  exact ⟨List.mem_of_find?_eq_some h, hkey⟩

/-- Where a key is less than all keys, there is no entry at it. -/
theorem entryAt?_eq_none_of_forall_gt (h : ∀ p ∈ pairs, cmp p.1 key = .ok .gt) :
    entryAt? cmp key pairs = none := by
  apply List.find?_eq_none.2
  intro p hp
  simp [h p hp, isEqual]

/-- A key that is not greater than the first one is less than all after it. -/
theorem gt_of_ascending (hc : IsOrder cmp) (hp : Ascending cmp (k :: pairs.map (·.1)))
    {o : Ordering} (ho : cmp k key = .ok o) (hne : o ≠ .lt) :
    ∀ p ∈ pairs, cmp p.1 key = .ok .gt := by
  intro p hmem
  have hlt : cmp k p.1 = .ok .lt := (List.pairwise_cons.1 hp).1 _ (List.mem_map_of_mem hmem)
  have hkey : cmp key k = .ok o.swap := hc.swap ho
  have hswap : o.swap ≠ .gt := by cases o <;> simp_all
  have hthen : cmp key p.1 = .ok (o.swap.then .lt) := hc.trans hkey hlt hswap nofun
  have hlt' : cmp key p.1 = .ok .lt := by
    cases o <;> simp_all
  exact hc.swap hlt'

/-- Nothing stands at a key before the first one. -/
theorem entryAt?_eq_none_of_gt (hc : IsOrder cmp) (hp : Ascending cmp (k :: pairs.map (·.1)))
    (ho : cmp k key = .ok .gt) : entryAt? cmp key ((k, v) :: pairs) = none := by
  apply entryAt?_eq_none_of_forall_gt
  intro p hmem
  rcases List.mem_cons.1 hmem with rfl | hmem
  · exact ho
  · exact gt_of_ascending hc hp ho nofun p hmem

/-- In an ascending list every entry is the one at its key. -/
theorem entryAt?_of_mem (hp : Ascending cmp (pairs.map (·.1))) {p : κ × ν}
    (hself : cmp p.1 p.1 = .ok .eq) (hmem : p ∈ pairs) : entryAt? cmp p.1 pairs = some p := by
  induction pairs with
  | nil => cases hmem
  | cons q pairs ih =>
    obtain ⟨hq, hpairs⟩ := List.pairwise_cons.1 hp
    rw [entryAt?_cons]
    rcases List.mem_cons.1 hmem with rfl | hmem
    · rw [hself]
      rfl
    · rw [hq p.1 (List.mem_map_of_mem hmem)]
      exact ih hpairs hmem

/-! ### Searching -/

/-- **Finding** gives the value of the entry at the key. -/
theorem find?_eq (hc : IsOrder cmp) (hp : Ascending cmp (pairs.map (·.1)))
    (hk : ∀ p ∈ pairs, ∃ o, cmp p.1 key = .ok o) :
    find? cmp key pairs = .ok ((entryAt? cmp key pairs).map (·.2)) := by
  induction pairs with
  | nil => rfl
  | cons p pairs ih =>
    obtain ⟨⟨o, ho⟩, hrest⟩ := List.forall_mem_cons.1 hk
    cases o with
    | lt =>
      rw [find?, entryAt?_cons, ho]
      exact ih (List.pairwise_cons.1 hp).2 hrest
    | eq =>
      rw [find?, entryAt?_cons, ho]
      rfl
    | gt =>
      rw [entryAt?_eq_none_of_gt hc hp ho, find?, ho]
      rfl

/-- **Inserting** returns the value at the key.  Afterwards the key has the new value, with
the key of the entry that was there, and nothing else changed. -/
theorem insert_eq (hc : IsOrder cmp) (hp : Ascending cmp (pairs.map (·.1)))
    (hk : ∀ p ∈ pairs, ∃ o, cmp p.1 key = .ok o) (value : ν) :
    ∃ done, insert cmp key value pairs = .ok ((entryAt? cmp key pairs).map (·.2), done)
      ∧ ∀ key', entryAt? cmp key' done
        = if isEqual (cmp key key') then
            some (((entryAt? cmp key pairs).map (·.1)).getD key, value)
          else entryAt? cmp key' pairs := by
  induction pairs with
  | nil => exact ⟨[(key, value)], rfl, fun key' => entryAt?_cons _⟩
  | cons p pairs ih =>
    obtain ⟨⟨o, ho⟩, hrest⟩ := List.forall_mem_cons.1 hk
    cases o with
    | lt =>
      obtain ⟨done, hdone, hentry⟩ := ih (List.pairwise_cons.1 hp).2 hrest
      refine ⟨p :: done, ?_, fun key' => ?_⟩
      · rw [insert, entryAt?_cons, ho, hdone]
        rfl
      · have hskip : entryAt? cmp key (p :: pairs) = entryAt? cmp key pairs := by
          rw [entryAt?_cons, ho]
          rfl
        rw [hskip, entryAt?_cons, entryAt?_cons, hentry]
        by_cases hkey : isEqual (cmp key key')
        · -- what is equal to the new key is greater than this one
          have hlt : cmp p.1 key' = .ok .lt :=
            hc.trans ho (isEqual_iff.1 hkey) (by decide) (by decide)
          rw [hlt]
          rfl
        · rw [if_neg hkey, if_neg hkey]
    | eq =>
      refine ⟨(p.1, value) :: pairs, ?_, fun key' => ?_⟩
      · rw [insert, entryAt?_cons, ho]
        rfl
      -- The key of the entry that was there stays, and equal keys are found in its place.
      · have hhere : entryAt? cmp key (p :: pairs) = some p := by
          rw [entryAt?_cons, ho]
          rfl
        rw [hhere, entryAt?_cons, entryAt?_cons, isEqual_congr hc ho]
        by_cases hkey : isEqual (cmp key key')
        · rw [if_pos hkey, if_pos hkey]
          rfl
        · rw [if_neg hkey, if_neg hkey, if_neg hkey]
    | gt =>
      refine ⟨(key, value) :: p :: pairs, ?_, fun key' => ?_⟩
      · rw [entryAt?_eq_none_of_gt hc hp ho, insert, ho]
        rfl
      · rw [entryAt?_eq_none_of_gt hc hp ho, entryAt?_cons]
        rfl

/-- **Erasing** returns the value at the key.  Afterwards nothing is there, and nothing else
changed. -/
theorem erase_eq (hc : IsOrder cmp) (hp : Ascending cmp (pairs.map (·.1)))
    (hk : ∀ p ∈ pairs, ∃ o, cmp p.1 key = .ok o) :
    ∃ done, erase cmp key pairs = .ok ((entryAt? cmp key pairs).map (·.2), done)
      ∧ ∀ key', entryAt? cmp key' done
        = if isEqual (cmp key key') then none else entryAt? cmp key' pairs := by
  induction pairs with
  | nil =>
    refine ⟨[], rfl, fun key' => ?_⟩
    cases isEqual (cmp key key') <;> rfl
  | cons p pairs ih =>
    obtain ⟨⟨o, ho⟩, hrest⟩ := List.forall_mem_cons.1 hk
    cases o with
    | lt =>
      obtain ⟨done, hdone, hentry⟩ := ih (List.pairwise_cons.1 hp).2 hrest
      refine ⟨p :: done, ?_, fun key' => ?_⟩
      · rw [erase, entryAt?_cons, ho, hdone]
        rfl
      · rw [entryAt?_cons, entryAt?_cons, hentry]
        by_cases hkey : isEqual (cmp key key')
        · have hlt : cmp p.1 key' = .ok .lt :=
            hc.trans ho (isEqual_iff.1 hkey) (by decide) (by decide)
          rw [if_pos hkey, if_pos hkey, hlt]
          rfl
        · rw [if_neg hkey, if_neg hkey]
    | eq =>
      refine ⟨pairs, ?_, fun key' => ?_⟩
      · rw [erase, entryAt?_cons, ho]
        rfl
      · rw [entryAt?_cons, isEqual_congr hc ho]
        by_cases hkey : isEqual (cmp key key')
        · -- all that is left is greater
          have hthere : cmp p.1 key' = .ok .eq :=
            hc.trans ho (isEqual_iff.1 hkey) (by decide) (by decide)
          rw [if_pos hkey]
          exact entryAt?_eq_none_of_forall_gt (gt_of_ascending hc hp hthere (by decide))
        · rw [if_neg hkey, if_neg hkey]
    | gt =>
      refine ⟨p :: pairs, ?_, fun key' => ?_⟩
      · rw [entryAt?_eq_none_of_gt hc hp ho, erase, ho]
        rfl
      · by_cases hkey : isEqual (cmp key key')
        · have hthere : cmp p.1 key' = .ok .gt := by
            have hlt : cmp key p.1 = .ok .lt := hc.swap ho
            exact hc.swap (hc.congr (isEqual_iff.1 hkey) hlt)
          rw [if_pos hkey]
          exact entryAt?_eq_none_of_gt hc hp hthere
        · rw [if_neg hkey]

end Entry

section FindPair

variable {key : κ} {pairs : List (κ × ν)}

/-- The entry at a key, by a search. -/
def findPair? (cmp : κ → κ → Except ε Ordering) (key : κ) (pairs : List (κ × ν)) :
    Except ε (Option (κ × ν)) :=
  find? cmp key (pairs.map fun p => (p.1, p))

/-- Finding a value is finding its entry. -/
theorem find?_eq_map_findPair? :
    find? cmp key pairs = (findPair? cmp key pairs).map (Option.map (·.2)) := by
  induction pairs with
  | nil => rfl
  | cons p pairs ih =>
    rw [findPair?, List.map_cons, find?, find?]
    rcases cmp p.1 key with e | - | - | -
    · rfl
    · exact ih
    · rfl
    · rfl

/-- What is found is at the key. -/
theorem of_findPair?_eq_some {q : κ × ν} (h : findPair? cmp key pairs = .ok (some q)) :
    q ∈ pairs ∧ cmp q.1 key = .ok .eq := by
  induction pairs with
  | nil => cases h
  | cons p pairs ih =>
    rw [findPair?, List.map_cons, find?, bind_eq_ok_iff] at h
    obtain ⟨o, ho, h⟩ := h
    cases o with
    | lt => exact (ih h).imp_left (List.mem_cons_of_mem p)
    | eq =>
      obtain rfl := Option.some.inj (pure_eq_ok_iff.1 h)
      exact ⟨List.mem_cons_self, ho⟩
    | gt => cases pure_eq_ok_iff.1 h

/-- What is at the key is found. -/
theorem findPair?_of_mem (hc : IsOrder cmp) (hp : Ascending cmp (pairs.map (·.1))) {q : κ × ν}
    (hq : q ∈ pairs) (hkey : cmp q.1 key = .ok .eq) :
    findPair? cmp key pairs = .ok (some q) := by
  induction pairs with
  | nil => cases hq
  | cons p pairs ih =>
    obtain ⟨hlt, hpairs⟩ := List.pairwise_cons.1 hp
    rw [findPair?, List.map_cons, find?]
    rcases List.mem_cons.1 hq with rfl | hq
    · rw [hkey]
      rfl
    · -- what stands before it is less than the key
      have hless : cmp p.1 key = .ok .lt :=
        hc.trans (hlt q.1 (List.mem_map_of_mem hq)) hkey (by decide) (by decide)
      rw [hless]
      exact ih hpairs hq

end FindPair

/-! ### Keys that stand for other keys -/

section Map

variable {cmp' : κ' → κ' → Except ε Ordering} {f : κ → κ'}

theorem find?_map (hf : ∀ a b, cmp' (f a) (f b) = cmp a b) (key : κ) (pairs : List (κ × ν)) :
    find? cmp' (f key) (pairs.map fun p => (f p.1, p.2)) = find? cmp key pairs := by
  induction pairs with
  | nil => rfl
  | cons p pairs ih =>
    rw [List.map_cons, find?, find?, hf, ih]

/-- Inserting commutes with a change of keys that the order does not see. -/
theorem insert_map (hf : ∀ a b, cmp' (f a) (f b) = cmp a b) (key : κ) (value : ν)
    (pairs : List (κ × ν)) :
    insert cmp' (f key) value (pairs.map fun p => (f p.1, p.2))
      = (insert cmp key value pairs).map fun r => (r.1, r.2.map fun p => (f p.1, p.2)) := by
  induction pairs with
  | nil => rfl
  | cons p pairs ih =>
    rw [List.map_cons, insert, insert, hf, ih]
    rcases cmp p.1 key with e | - | - | -
    · rfl
    · rcases insert cmp key value pairs with e | r <;> rfl
    · rfl
    · rfl

/-- Erasing commutes with a change of keys that the order does not see. -/
theorem erase_map (hf : ∀ a b, cmp' (f a) (f b) = cmp a b) (key : κ) (pairs : List (κ × ν)) :
    erase cmp' (f key) (pairs.map fun p => (f p.1, p.2))
      = (erase cmp key pairs).map fun r => (r.1, r.2.map fun p => (f p.1, p.2)) := by
  induction pairs with
  | nil => rfl
  | cons p pairs ih =>
    rw [List.map_cons, erase, erase, hf, ih]
    rcases cmp p.1 key with e | - | - | -
    · rfl
    · rcases erase cmp key pairs with e | r <;> rfl
    · rfl
    · rfl

end Map

/-! ### Searches that fail -/

/-- A search for the key comes to a key that it cannot be compared with. -/
inductive Stuck (cmp : κ → κ → Except ε Ordering) (key : κ) (e : ε) : List (κ × ν) → Prop
  | here {k v pairs} (h : cmp k key = .error e) : Stuck cmp key e ((k, v) :: pairs)
  | later {k v pairs} (h : cmp k key = .ok .lt) (hrest : Stuck cmp key e pairs) :
      Stuck cmp key e ((k, v) :: pairs)

section Stuck

variable {key k : κ} {v : ν} {e : ε} {pairs : List (κ × ν)}

/-- A search is stuck at the first key, or goes past it and is stuck later. -/
theorem stuck_cons_iff : Stuck cmp key e ((k, v) :: pairs)
    ↔ cmp k key = .error e ∨ (cmp k key = .ok .lt ∧ Stuck cmp key e pairs) := by
  constructor
  · rintro (h | ⟨h, hrest⟩)
    · exact .inl h
    · exact .inr ⟨h, hrest⟩
  · rintro (h | ⟨h, hrest⟩)
    · exact .here h
    · exact .later h hrest

/-- A step of a search fails if the comparison fails, or if the rest of the search does. -/
theorem step_eq_error_iff {α : Type} {x : Except ε Ordering} {rest : Except ε α} {same past : α} :
    (do match ← x with
        | .lt => rest
        | .eq => return same
        | .gt => return past) = .error e ↔ x = .error e ∨ (x = .ok .lt ∧ rest = .error e) := by
  rcases x with e' | - | - | -
  · show Except.error e' = .error e ↔ _
    simp
  · show rest = .error e ↔ _
    simp
  · exact ⟨nofun, by simp⟩
  · exact ⟨nofun, by simp⟩

theorem find?_eq_error_iff : find? cmp key pairs = .error e ↔ Stuck cmp key e pairs := by
  induction pairs with
  | nil => exact ⟨nofun, nofun⟩
  | cons p pairs ih =>
    rw [stuck_cons_iff, ← ih]
    exact step_eq_error_iff

/-- Inserting fails exactly where the search for its place is stuck. -/
theorem insert_eq_error_iff (value : ν) :
    insert cmp key value pairs = .error e ↔ Stuck cmp key e pairs := by
  induction pairs with
  | nil => exact ⟨nofun, nofun⟩
  | cons p pairs ih =>
    rw [stuck_cons_iff, ← ih, ← map_eq_error_iff (x := insert cmp key value pairs)]
    exact step_eq_error_iff

/-- Erasing fails exactly where the search is stuck. -/
theorem erase_eq_error_iff : erase cmp key pairs = .error e ↔ Stuck cmp key e pairs := by
  induction pairs with
  | nil => exact ⟨nofun, nofun⟩
  | cons p pairs ih =>
    rw [stuck_cons_iff, ← ih, ← map_eq_error_iff (x := erase cmp key pairs)]
    exact step_eq_error_iff

/-- A search that does not fail shows that the key can be compared with all others: those that
it does not come to are greater than the one at which it stops. -/
theorem exists_compare_of_not_stuck (hc : IsOrder cmp) (hp : Ascending cmp (pairs.map (·.1)))
    (h : ∀ e, ¬Stuck cmp key e pairs) : ∀ p ∈ pairs, ∃ o, cmp p.1 key = .ok o := by
  induction pairs with
  | nil => exact nofun
  | cons q pairs ih =>
    obtain ⟨k, v⟩ := q
    rcases ho : cmp k key with e | o
    · exact absurd (.here ho) (h e)
    · refine List.forall_mem_cons.2 ⟨⟨o, ho⟩, ?_⟩
      by_cases hlt : o = .lt
      · subst hlt
        exact ih (List.pairwise_cons.1 hp).2 fun e hrest => h e (.later ho hrest)
      · exact fun p hmem => ⟨.gt, gt_of_ascending hc hp ho hlt p hmem⟩

/-- **The entries after inserting**, if it succeeds. -/
theorem entryAt?_of_insert (hc : IsOrder cmp) (hp : Ascending cmp (pairs.map (·.1))) {value : ν}
    {old : Option ν} {done : List (κ × ν)} (h : insert cmp key value pairs = .ok (old, done))
    (key' : κ) :
    entryAt? cmp key' done
      = if isEqual (cmp key key') then some (((entryAt? cmp key pairs).map (·.1)).getD key, value)
        else entryAt? cmp key' pairs := by
  have hcompare := exists_compare_of_not_stuck hc hp fun e hstuck => by
    cases h.symm.trans ((insert_eq_error_iff value).2 hstuck)
  obtain ⟨done', hdone, hentry⟩ := insert_eq hc hp hcompare value
  obtain ⟨-, rfl⟩ := Prod.mk.inj (Except.ok.inj (h.symm.trans hdone))
  exact hentry key'

/-- **The entries after erasing**, if it succeeds. -/
theorem entryAt?_of_erase (hc : IsOrder cmp) (hp : Ascending cmp (pairs.map (·.1)))
    {old : Option ν} {done : List (κ × ν)} (h : erase cmp key pairs = .ok (old, done))
    (key' : κ) :
    entryAt? cmp key' done
      = if isEqual (cmp key key') then none else entryAt? cmp key' pairs := by
  have hcompare := exists_compare_of_not_stuck hc hp fun e hstuck => by
    cases h.symm.trans (erase_eq_error_iff.2 hstuck)
  obtain ⟨done', hdone, hentry⟩ := erase_eq hc hp hcompare
  obtain ⟨-, rfl⟩ := Prod.mk.inj (Except.ok.inj (h.symm.trans hdone))
  exact hentry key'

end Stuck

end Micheline.Sorted
