/-
Micheline/Proofs/Value/Writes.lean

Runs of writes to an ascending list of entries.  A write gives a key a value or removes the key
(`write`).  What stands at a key afterwards comes of the writes at that key alone, one after
another (`entryAt?_of_foldlM_write`), and an ascending list is told by what stands at the keys
(`eq_of_entryAt?`).  So writes at different keys commute: only the order of those at equal keys
matters (`foldlM_write_congr`).
-/
import Micheline.Proofs.Value.Entry

namespace Micheline.Sorted

variable {ε κ ν : Type} {cmp : κ → κ → Except ε Ordering}

/-! ### Equal keys -/

/-- **Ascending lists with the same entries at all keys are equal.** -/
theorem eq_of_entryAt? (hc : IsOrder cmp) {ps qs : List (κ × ν)}
    (hp : Ascending cmp (ps.map (·.1))) (hq : Ascending cmp (qs.map (·.1)))
    (hps : ∀ p ∈ ps, cmp p.1 p.1 = .ok .eq) (hqs : ∀ q ∈ qs, cmp q.1 q.1 = .ok .eq)
    (h : ∀ key, entryAt? cmp key ps = entryAt? cmp key qs) : ps = qs := by
  have hsub {as bs : List (κ × ν)} (ha : Ascending cmp (as.map (·.1)))
      (has : ∀ p ∈ as, cmp p.1 p.1 = .ok .eq)
      (hab : ∀ key, entryAt? cmp key as = entryAt? cmp key bs) : as ⊆ bs := by
    intro p hmem
    have hentry := entryAt?_of_mem ha (has p hmem) hmem
    rw [hab] at hentry
    exact (of_entryAt?_eq_some hentry).1
  exact hc.eq_of_mem_iff hp hq hqs fun p =>
    ⟨fun hmem => hsub hp hps h hmem, fun hmem => hsub hq hqs (fun key => (h key).symm) hmem⟩

/-! ### One write -/

/-- A write at a key: its new value, or none if the key is removed. -/
def write (cmp : κ → κ → Except ε Ordering) (pairs : List (κ × ν)) (w : κ × Option ν) :
    Except ε (List (κ × ν)) := do
  match w.2 with
  | some value => return (← insert cmp w.1 value pairs).2
  | none => return (← erase cmp w.1 pairs).2

/-- What a write makes of the entry at its key.  A key that is there stays as it is written. -/
def overwrite (entry : Option (κ × ν)) (w : κ × Option ν) : Option (κ × ν) :=
  w.2.map fun value => ((entry.map (·.1)).getD w.1, value)

section Write

variable {pairs done : List (κ × ν)} {w : κ × Option ν}

/-- A write keeps the keys ascending. -/
theorem ascending_of_write (hc : IsOrder cmp) (hp : Ascending cmp (pairs.map (·.1)))
    (h : write cmp pairs w = .ok done) : Ascending cmp (done.map (·.1)) := by
  rw [write] at h
  split at h
  all_goals
    obtain ⟨⟨old, made⟩, hmade, h⟩ := bind_eq_ok_iff.1 h
    obtain rfl := pure_eq_ok_iff.1 h
  · exact hc.ascending_insert hmade hp
  · exact List.Pairwise.sublist ((sublist_of_erase hmade).map _) hp

/-- A write brings no other key than its own. -/
theorem keys_of_write {P : κ → Prop} (hp : ∀ p ∈ pairs, P p.1) (hw : P w.1)
    (h : write cmp pairs w = .ok done) : ∀ p ∈ done, P p.1 := by
  rw [write] at h
  split at h
  all_goals
    obtain ⟨⟨old, made⟩, hmade, h⟩ := bind_eq_ok_iff.1 h
    obtain rfl := pure_eq_ok_iff.1 h
  · intro p hmem
    rcases (mem_of_insert hmade p hmem).1 with hkey | hkey
    · exact hkey ▸ hw
    · obtain ⟨q, hq, hqp⟩ := List.mem_map.1 hkey
      exact hqp ▸ hp q hq
  · exact fun p hmem => hp p ((sublist_of_erase hmade).subset hmem)

/-- **One write** changes what stands at its key, and nothing else. -/
theorem entryAt?_of_write (hc : IsOrder cmp) (hp : Ascending cmp (pairs.map (·.1)))
    (h : write cmp pairs w = .ok done) (key : κ) :
    entryAt? cmp key done
      = if isEqual (cmp w.1 key) then overwrite (entryAt? cmp key pairs) w
        else entryAt? cmp key pairs := by
  -- Found under the key that is written, then carried over to an equal key.
  have hentry : entryAt? cmp key done
      = if isEqual (cmp w.1 key) then overwrite (entryAt? cmp w.1 pairs) w
        else entryAt? cmp key pairs := by
    rw [write] at h
    split at h
    next value hvalue =>
      obtain ⟨⟨old, made⟩, hmade, h⟩ := bind_eq_ok_iff.1 h
      obtain rfl := pure_eq_ok_iff.1 h
      rw [overwrite, hvalue]
      exact entryAt?_of_insert hc hp hmade key
    next hvalue =>
      obtain ⟨⟨old, made⟩, hmade, h⟩ := bind_eq_ok_iff.1 h
      obtain rfl := pure_eq_ok_iff.1 h
      rw [overwrite, hvalue]
      exact entryAt?_of_erase hc hp hmade key
  rw [hentry]
  split
  next hkey => rw [entryAt?_congr hc (isEqual_iff.1 hkey)]
  next => rfl

/-- A write succeeds if its key can be compared with all that are there. -/
theorem exists_write (hc : IsOrder cmp) (hp : Ascending cmp (pairs.map (·.1)))
    (hk : ∀ p ∈ pairs, ∃ o, cmp p.1 w.1 = .ok o) : ∃ done, write cmp pairs w = .ok done := by
  rw [write]
  split
  next value _ =>
    obtain ⟨done, hdone, -⟩ := insert_eq hc hp hk value
    exact ⟨done, by rw [hdone]; rfl⟩
  next =>
    obtain ⟨done, hdone, -⟩ := erase_eq hc hp hk
    exact ⟨done, by rw [hdone]; rfl⟩

end Write

/-! ### Runs of writes -/

section Run

variable {pairs done : List (κ × ν)} {ws ws' : List (κ × Option ν)}

theorem ascending_of_foldlM_write (hc : IsOrder cmp) (hp : Ascending cmp (pairs.map (·.1)))
    (h : ws.foldlM (write cmp) pairs = .ok done) : Ascending cmp (done.map (·.1)) := by
  induction ws generalizing pairs with
  | nil => exact Except.ok.inj h ▸ hp
  | cons w ws ih =>
    obtain ⟨made, hmade, h⟩ := bind_eq_ok_iff.1 (List.foldlM_cons.symm.trans h)
    exact ih (ascending_of_write hc hp hmade) h

theorem keys_of_foldlM_write {P : κ → Prop} (hp : ∀ p ∈ pairs, P p.1) (hws : ∀ w ∈ ws, P w.1)
    (h : ws.foldlM (write cmp) pairs = .ok done) : ∀ p ∈ done, P p.1 := by
  induction ws generalizing pairs with
  | nil => exact Except.ok.inj h ▸ hp
  | cons w ws ih =>
    obtain ⟨hw, hws⟩ := List.forall_mem_cons.1 hws
    obtain ⟨made, hmade, h⟩ := bind_eq_ok_iff.1 (List.foldlM_cons.symm.trans h)
    exact ih (keys_of_write hp hw hmade) hws h

/-- **Writes one after another.**  What stands at a key comes of the writes at that key, in
order. -/
theorem entryAt?_of_foldlM_write (hc : IsOrder cmp) (hp : Ascending cmp (pairs.map (·.1)))
    (h : ws.foldlM (write cmp) pairs = .ok done) (key : κ) :
    entryAt? cmp key done
      = (ws.filter fun w => isEqual (cmp w.1 key)).foldl overwrite (entryAt? cmp key pairs) := by
  induction ws generalizing pairs with
  | nil =>
    obtain rfl := Except.ok.inj h
    rfl
  | cons w ws ih =>
    obtain ⟨made, hmade, h⟩ := bind_eq_ok_iff.1 (List.foldlM_cons.symm.trans h)
    rw [ih (ascending_of_write hc hp hmade) h, entryAt?_of_write hc hp hmade, List.filter_cons]
    split <;> rfl

/-- Writes succeed if all keys can be compared. -/
theorem exists_foldlM_write (hc : IsOrder cmp) {P : κ → Prop}
    (hP : ∀ a b, P a → P b → ∃ o, cmp a b = .ok o) (hp : Ascending cmp (pairs.map (·.1)))
    (hpairs : ∀ p ∈ pairs, P p.1) (hws : ∀ w ∈ ws, P w.1) :
    ∃ done, ws.foldlM (write cmp) pairs = .ok done := by
  induction ws generalizing pairs with
  | nil => exact ⟨pairs, rfl⟩
  | cons w ws ih =>
    obtain ⟨hw, hws⟩ := List.forall_mem_cons.1 hws
    obtain ⟨made, hmade⟩ := exists_write hc hp fun p hmem => hP p.1 w.1 (hpairs p hmem) hw
    obtain ⟨done, hdone⟩ :=
      ih (ascending_of_write hc hp hmade) (keys_of_write hpairs hw hmade) hws
    exact ⟨done, List.foldlM_cons.trans (bind_eq_ok_iff.2 ⟨made, hmade, hdone⟩)⟩

/-- **Only the order of the writes at equal keys matters**, where all keys can be compared. -/
theorem foldlM_write_congr (hc : IsOrder cmp) {P : κ → Prop}
    (hP : ∀ a b, P a → P b → ∃ o, cmp a b = .ok o) (hp : Ascending cmp (pairs.map (·.1)))
    (hpairs : ∀ p ∈ pairs, P p.1) (hws : ∀ w ∈ ws, P w.1) (hws' : ∀ w ∈ ws', P w.1)
    (h : ∀ key, (ws.filter fun w => isEqual (cmp w.1 key))
      = ws'.filter fun w => isEqual (cmp w.1 key)) :
    ws.foldlM (write cmp) pairs = ws'.foldlM (write cmp) pairs := by
  obtain ⟨done, hdone⟩ := exists_foldlM_write hc hP hp hpairs hws
  obtain ⟨done', hdone'⟩ := exists_foldlM_write hc hP hp hpairs hws'
  have hself {made : List (κ × ν)} (hmade : ∀ p ∈ made, P p.1) :
      ∀ p ∈ made, cmp p.1 p.1 = .ok .eq :=
    fun p hmem => hc.self_eq (hP p.1 p.1 (hmade p hmem) (hmade p hmem))
  have heq : done = done' := by
    refine eq_of_entryAt? hc (ascending_of_foldlM_write hc hp hdone)
      (ascending_of_foldlM_write hc hp hdone') (hself (keys_of_foldlM_write hpairs hws hdone))
      (hself (keys_of_foldlM_write hpairs hws' hdone')) fun key => ?_
    rw [entryAt?_of_foldlM_write hc hp hdone, entryAt?_of_foldlM_write hc hp hdone', h]
  rw [hdone, hdone', heq]

end Run

end Micheline.Sorted
