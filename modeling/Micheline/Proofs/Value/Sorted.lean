/-
Micheline/Proofs/Value/Sorted.lean

Lists in ascending order.  The order may fail to compare two keys, so that its laws speak
only of keys that it does compare (`IsOrder`).  Under these laws adding and inserting keep
lists ascending; for any order, what stands behind everything that is there goes to the end.

The keys of entries behave as the elements of a set (`map_fst_insert`), so that the facts
about keys are those about elements.
-/
import Micheline.Proofs.Except
import Micheline.Value.Sorted

namespace Micheline.Sorted

variable {ε κ ν : Type} {cmp : κ → κ → Except ε Ordering}

/-! ### Orders -/

/-- The laws of an order that may fail: turning two keys around turns the outcome around, and
of three keys that do not descend the first and the last one can be compared. -/
structure IsOrder (cmp : κ → κ → Except ε Ordering) : Prop where
  swap : ∀ {a b o}, cmp a b = .ok o → cmp b a = .ok o.swap
  trans : ∀ {a b c o o'}, cmp a b = .ok o → cmp b c = .ok o' → o ≠ .gt → o' ≠ .gt →
    cmp a c = .ok (o.then o')

/-- Each element is less than all after it. -/
def Ascending (cmp : κ → κ → Except ε Ordering) (xs : List κ) : Prop :=
  xs.Pairwise fun a b => cmp a b = .ok .lt

theorem IsOrder.lt_trans (hc : IsOrder cmp) {a b c : κ} (hab : cmp a b = .ok .lt)
    (hbc : cmp b c = .ok .lt) : cmp a c = .ok .lt :=
  hc.trans hab hbc nofun nofun

/-- The laws of an order say that equals compare alike. -/
theorem IsOrder.congr (hc : IsOrder cmp) {a b c : κ} {o : Ordering} (hab : cmp a b = .ok .eq)
    (hac : cmp a c = .ok o) : cmp b c = .ok o := by
  have hba : cmp b a = .ok .eq := hc.swap hab
  cases o with
  | lt | eq => exact hc.trans hba hac nofun nofun
  | gt =>
    -- the other way round nothing descends
    have hca : cmp c a = .ok .lt := hc.swap hac
    exact hc.swap (hc.trans hca hab nofun nofun)

/-- What can be compared with itself is equal to itself. -/
theorem IsOrder.self_eq (hc : IsOrder cmp) {a : κ} (h : ∃ o, cmp a a = .ok o) :
    cmp a a = .ok .eq := by
  obtain ⟨o, ho⟩ := h
  have hswap := Except.ok.inj (ho.symm.trans (hc.swap ho))
  cases o with
  | eq => exact ho
  | lt | gt => cases hswap

/-- It is enough to look at neighbours. -/
theorem IsOrder.ascending_of_isChain (hc : IsOrder cmp) {xs : List κ}
    (h : xs.IsChain fun a b => cmp a b = .ok .lt) : Ascending cmp xs := by
  have : Trans (fun a b => cmp a b = .ok .lt) (fun a b => cmp a b = .ok .lt)
      (fun a b => cmp a b = .ok .lt) := ⟨hc.lt_trans⟩
  exact List.isChain_iff_pairwise.1 h

/-- Entries with ascending keys that are all found in each other stand side by side. -/
theorem IsOrder.forall₂_of_ascending {ν' : Type} (hc : IsOrder cmp)
    {R : κ × ν → κ × ν' → Prop} {ps : List (κ × ν)} {qs : List (κ × ν')}
    (hp : Ascending cmp (ps.map (·.1))) (hq : Ascending cmp (qs.map (·.1)))
    (hR : ∀ p q, R p q → cmp p.1 q.1 = .ok .eq) (hpq : ∀ p ∈ ps, ∃ q ∈ qs, R p q)
    (hqp : ∀ q ∈ qs, ∃ p ∈ ps, cmp p.1 q.1 = .ok .eq) : List.Forall₂ R ps qs := by
  induction ps generalizing qs with
  | nil =>
    cases qs with
    | nil => exact .nil
    | cons q qs =>
      obtain ⟨p, hmem, -⟩ := hqp q List.mem_cons_self
      cases hmem
  | cons p ps ih =>
    obtain ⟨q, hmem, hpR⟩ := hpq p List.mem_cons_self
    obtain ⟨hps, hp⟩ := List.pairwise_cons.1 hp
    replace hps : ∀ p' ∈ ps, cmp p.1 p'.1 = .ok .lt :=
      fun p' hp' => hps _ (List.mem_map_of_mem hp')
    cases qs with
    | nil => cases hmem
    | cons q' qs =>
      obtain ⟨hqs, hrest⟩ := List.pairwise_cons.1 hq
      replace hqs : ∀ r ∈ qs, cmp q'.1 r.1 = .ok .lt :=
        fun r hr => hqs _ (List.mem_map_of_mem hr)
      -- one of the first entries would be found before the other list begins
      obtain rfl : q = q' := by
        rcases List.mem_cons.1 hmem with h | hmem
        · exact h
        · obtain ⟨p', hp', hkey⟩ := hqp q' List.mem_cons_self
          have hless : cmp p'.1 q.1 = .ok .lt := hc.trans hkey (hqs q hmem) nofun nofun
          rcases List.mem_cons.1 hp' with rfl | hp'
          · cases hless.symm.trans (hR _ _ hpR)
          · cases (hc.lt_trans (hps p' hp') hless).symm.trans (hR _ _ hpR)
      refine .cons hpR (ih hp hrest ?_ ?_)
      · intro p' hp'
        obtain ⟨r, hr, hrR⟩ := hpq p' (List.mem_cons_of_mem p hp')
        rcases List.mem_cons.1 hr with rfl | hr
        · have hlt := hc.congr (hR _ _ hpR) (hps p' hp')
          cases (hc.swap hlt).symm.trans (hR _ _ hrR)
        · exact ⟨r, hr, hrR⟩
      · intro r hr
        obtain ⟨p', hp', hkey⟩ := hqp r (List.mem_cons_of_mem q hr)
        rcases List.mem_cons.1 hp' with rfl | hp'
        · cases (hqs r hr).symm.trans (hc.congr (hR _ _ hpR) hkey)
        · exact ⟨p', hp', hkey⟩

/-- Two ascending lists with the same entries are equal. -/
theorem IsOrder.eq_of_mem_iff (hc : IsOrder cmp) {as bs : List (κ × ν)}
    (ha : Ascending cmp (as.map (·.1))) (hb : Ascending cmp (bs.map (·.1)))
    (hself : ∀ q ∈ bs, cmp q.1 q.1 = .ok .eq) (hmem : ∀ q, q ∈ as ↔ q ∈ bs) : as = bs := by
  have hsame : List.Forall₂ (fun p q => p = q ∧ cmp p.1 q.1 = .ok .eq) as bs :=
    hc.forall₂_of_ascending ha hb (fun _ _ hpq => hpq.2)
      (fun q hq => ⟨q, (hmem q).1 hq, rfl, hself q ((hmem q).1 hq)⟩)
      (fun q hq => ⟨q, (hmem q).2 hq, hself q hq⟩)
  exact List.forall₂_eq_eq_eq ▸ hsame.imp fun _ _ hpq => hpq.1

/-! ### Elements -/

/-- Adding an element brings no other new one. -/
theorem mem_of_add {x : κ} {xs ys : List κ} (h : add cmp x xs = .ok ys) :
    ∀ z ∈ ys, z = x ∨ z ∈ xs := by
  induction xs generalizing ys with
  | nil =>
    obtain rfl := Except.ok.inj h
    simp
  | cons y xs ih =>
    rw [add, bind_eq_ok_iff] at h
    obtain ⟨o, -, h⟩ := h
    intro z hz
    cases o with
    | lt =>
      obtain ⟨rest, hrest, h⟩ := bind_eq_ok_iff.1 h
      obtain rfl := pure_eq_ok_iff.1 h
      rcases List.mem_cons.1 hz with rfl | hz
      · exact .inr List.mem_cons_self
      · exact (ih hrest z hz).imp_right (List.mem_cons_of_mem y)
    | eq =>
      obtain rfl := pure_eq_ok_iff.1 h
      exact .inr hz
    | gt =>
      obtain rfl := pure_eq_ok_iff.1 h
      exact List.mem_cons.1 hz

/-- **Adding keeps the order.** -/
theorem IsOrder.ascending_add (hc : IsOrder cmp) {x : κ} {xs ys : List κ}
    (h : add cmp x xs = .ok ys) (hxs : Ascending cmp xs) : Ascending cmp ys := by
  induction xs generalizing ys with
  | nil =>
    obtain rfl := Except.ok.inj h
    exact List.pairwise_singleton _ _
  | cons y xs ih =>
    obtain ⟨hy, hxs'⟩ := List.pairwise_cons.1 hxs
    rw [add, bind_eq_ok_iff] at h
    obtain ⟨o, ho, h⟩ := h
    cases o with
    | lt =>
      -- the head stays less than what is there and than what came in
      obtain ⟨rest, hrest, h⟩ := bind_eq_ok_iff.1 h
      obtain rfl := pure_eq_ok_iff.1 h
      refine List.pairwise_cons.2 ⟨fun z hz => ?_, ih hrest hxs'⟩
      rcases mem_of_add hrest z hz with rfl | hz
      · exact ho
      · exact hy z hz
    | eq =>
      obtain rfl := pure_eq_ok_iff.1 h
      exact hxs
    | gt =>
      -- the new element is less than the head, and so than all after it
      obtain rfl := pure_eq_ok_iff.1 h
      have hxy : cmp x y = .ok .lt := hc.swap ho
      refine List.pairwise_cons.2 ⟨fun z hz => ?_, hxs⟩
      rcases List.mem_cons.1 hz with rfl | hz
      · exact hxy
      · exact hc.lt_trans hxy (hy z hz)

/-- What is greater than everything that is there goes to the end. -/
theorem add_of_forall_lt {x : κ} {xs : List κ} (h : ∀ y ∈ xs, cmp y x = .ok .lt) :
    add cmp x xs = .ok (xs ++ [x]) := by
  induction xs with
  | nil => rfl
  | cons y xs ih =>
    obtain ⟨hy, hxs⟩ := List.forall_mem_cons.1 h
    rw [add, hy]
    show (add cmp x xs >>= fun rest => pure (y :: rest)) = _
    rw [ih hxs]
    rfl

/-- Elements that ascend are put one behind the other. -/
theorem foldlM_add_append {done xs : List κ} (h : Ascending cmp (done ++ xs)) :
    xs.foldlM (fun done x => add cmp x done) done = .ok (done ++ xs) := by
  induction xs generalizing done with
  | nil => rw [List.foldlM_nil, List.append_nil]; rfl
  | cons x xs ih =>
    have hx : ∀ y ∈ done, cmp y x = .ok .lt := fun y hy =>
      (List.pairwise_append.1 h).2.2 y hy x List.mem_cons_self
    have happ : done ++ x :: xs = (done ++ [x]) ++ xs := by simp
    rw [happ] at h ⊢
    rw [List.foldlM_cons, add_of_forall_lt hx]
    exact ih h

/-- Adding the elements of an ascending list in order gives the list. -/
theorem foldlM_add_of_ascending {xs : List κ} (h : Ascending cmp xs) :
    xs.foldlM (fun done x => add cmp x done) [] = .ok xs :=
  foldlM_add_append (show Ascending cmp ([] ++ xs) from h)

/-- A set that is made by adding. -/
theorem IsOrder.ascending_foldlM_add (hc : IsOrder cmp) {done xs ys : List κ}
    (h : xs.foldlM (fun done x => add cmp x done) done = .ok ys) (hdone : Ascending cmp done) :
    Ascending cmp ys ∧ ∀ z ∈ ys, z ∈ done ∨ z ∈ xs := by
  induction xs generalizing done with
  | nil =>
    obtain rfl := Except.ok.inj h
    exact ⟨hdone, fun z hz => .inl hz⟩
  | cons x xs ih =>
    rw [List.foldlM_cons, bind_eq_ok_iff] at h
    obtain ⟨done', hadd, h⟩ := h
    obtain ⟨hys, hmem⟩ := ih h (hc.ascending_add hadd hdone)
    refine ⟨hys, fun z hz => ?_⟩
    rcases hmem z hz with hz | hz
    · rcases mem_of_add hadd z hz with rfl | hz
      · exact .inr List.mem_cons_self
      · exact .inl hz
    · exact .inr (List.mem_cons_of_mem x hz)

/-! ### Entries -/

/-- Inserting treats the keys as adding treats elements. -/
theorem map_fst_insert (key : κ) (value : ν) (pairs : List (κ × ν)) :
    (insert cmp key value pairs).map (fun r => r.2.map (·.1)) = add cmp key (pairs.map (·.1)) := by
  induction pairs with
  | nil => rfl
  | cons p pairs ih =>
    obtain ⟨k, v⟩ := p
    rw [insert, List.map_cons, add, ← ih]
    rcases cmp k key with e | - | - | -
    · rfl
    · show ((insert cmp key value pairs >>= fun r => pure (r.1, (k, v) :: r.2)) : Except ε _).map _
        = (Except.map _ _ >>= _)
      rcases insert cmp key value pairs with e | ⟨old, rest⟩ <;> rfl
    · rfl
    · rfl

/-- Inserting an entry brings no other new key and no other new value. -/
theorem mem_of_insert {key : κ} {value : ν} {old : Option ν} {pairs done : List (κ × ν)}
    (h : insert cmp key value pairs = .ok (old, done)) :
    ∀ p ∈ done, (p.1 = key ∨ p.1 ∈ pairs.map (·.1)) ∧ (p.2 = value ∨ p.2 ∈ pairs.map (·.2)) := by
  induction pairs generalizing old done with
  | nil =>
    obtain ⟨-, rfl⟩ := Prod.mk.inj (Except.ok.inj h)
    simp
  | cons q pairs ih =>
    obtain ⟨k, v⟩ := q
    rw [insert, bind_eq_ok_iff] at h
    obtain ⟨o, -, h⟩ := h
    cases o with
    | lt =>
      obtain ⟨⟨old', rest⟩, hrest, h⟩ := bind_eq_ok_iff.1 h
      obtain ⟨-, rfl⟩ := Prod.mk.inj (pure_eq_ok_iff.1 h)
      rintro p hp
      rcases List.mem_cons.1 hp with rfl | hp
      · simp
      · obtain ⟨hk, hv⟩ := ih hrest p hp
        exact ⟨hk.imp_right (List.mem_cons_of_mem k), hv.imp_right (List.mem_cons_of_mem v)⟩
    | eq =>
      -- the value is replaced and the key stays
      obtain ⟨-, rfl⟩ := Prod.mk.inj (pure_eq_ok_iff.1 h)
      rintro p hp
      rcases List.mem_cons.1 hp with rfl | hp
      · simp
      · exact ⟨.inr (List.mem_cons_of_mem k (List.mem_map_of_mem hp)),
          .inr (List.mem_cons_of_mem v (List.mem_map_of_mem hp))⟩
    | gt =>
      obtain ⟨-, rfl⟩ := Prod.mk.inj (pure_eq_ok_iff.1 h)
      rintro p hp
      rcases List.mem_cons.1 hp with rfl | hp
      · simp
      · exact ⟨.inr (List.mem_map_of_mem hp), .inr (List.mem_map_of_mem hp)⟩

/-- **Inserting keeps the order.** -/
theorem IsOrder.ascending_insert (hc : IsOrder cmp) {key : κ} {value : ν} {old : Option ν}
    {pairs done : List (κ × ν)} (h : insert cmp key value pairs = .ok (old, done))
    (hp : Ascending cmp (pairs.map (·.1))) : Ascending cmp (done.map (·.1)) := by
  have hadd : (insert cmp key value pairs).map _ = _ := map_fst_insert key value pairs
  rw [h] at hadd
  exact hc.ascending_add hadd.symm hp

/-- Erasing takes away only. -/
theorem sublist_of_erase {key : κ} {old : Option ν} {pairs done : List (κ × ν)}
    (h : erase cmp key pairs = .ok (old, done)) : done.Sublist pairs := by
  induction pairs generalizing old done with
  | nil =>
    obtain ⟨-, rfl⟩ := Prod.mk.inj (Except.ok.inj h)
    exact List.Sublist.refl _
  | cons q pairs ih =>
    obtain ⟨k, v⟩ := q
    rw [erase, bind_eq_ok_iff] at h
    obtain ⟨o, -, h⟩ := h
    cases o with
    | lt =>
      obtain ⟨⟨old', rest⟩, hrest, h⟩ := bind_eq_ok_iff.1 h
      obtain ⟨-, rfl⟩ := Prod.mk.inj (pure_eq_ok_iff.1 h)
      exact (ih hrest).cons_cons _
    | eq =>
      obtain ⟨-, rfl⟩ := Prod.mk.inj (pure_eq_ok_iff.1 h)
      exact List.sublist_cons_self _ _
    | gt =>
      obtain ⟨-, rfl⟩ := Prod.mk.inj (pure_eq_ok_iff.1 h)
      exact List.Sublist.refl _

theorem insert_of_forall_lt {key : κ} {value : ν} {pairs : List (κ × ν)}
    (h : ∀ k ∈ pairs.map (·.1), cmp k key = .ok .lt) :
    insert cmp key value pairs = .ok (none, pairs ++ [(key, value)]) := by
  induction pairs with
  | nil => rfl
  | cons p pairs ih =>
    obtain ⟨k, v⟩ := p
    obtain ⟨hk, hrest⟩ := List.forall_mem_cons.1 h
    rw [insert, hk]
    show (insert cmp key value pairs >>= fun r => pure (r.1, (k, v) :: r.2)) = _
    rw [ih hrest]
    rfl

/-- Takes an entry into a list of entries. -/
def put (cmp : κ → κ → Except ε Ordering) (done : List (κ × ν)) (p : κ × ν) :
    Except ε (List (κ × ν)) := do
  return (← insert cmp p.1 p.2 done).2

/-- Entries whose keys ascend are put one behind the other. -/
theorem foldlM_put_append {done pairs : List (κ × ν)}
    (h : Ascending cmp ((done ++ pairs).map (·.1))) :
    pairs.foldlM (put cmp) done = .ok (done ++ pairs) := by
  induction pairs generalizing done with
  | nil => rw [List.foldlM_nil, List.append_nil]; rfl
  | cons p pairs ih =>
    have hp : ∀ k ∈ done.map (·.1), cmp k p.1 = .ok .lt := by
      rw [List.map_append] at h
      exact fun k hk => (List.pairwise_append.1 h).2.2 k hk p.1 List.mem_cons_self
    have happ : done ++ p :: pairs = (done ++ [p]) ++ pairs := by simp
    rw [happ] at h ⊢
    rw [List.foldlM_cons, put, insert_of_forall_lt hp]
    exact ih h

/-- Inserting entries with ascending keys in order gives the list of them. -/
theorem foldlM_put_of_ascending {pairs : List (κ × ν)} (h : Ascending cmp (pairs.map (·.1))) :
    pairs.foldlM (put cmp) [] = .ok pairs :=
  foldlM_put_append (show Ascending cmp (([] ++ pairs).map Prod.fst) from h)

/-- A map that is made by inserting. -/
theorem IsOrder.ascending_foldlM_put (hc : IsOrder cmp) {done pairs made : List (κ × ν)}
    (h : pairs.foldlM (put cmp) done = .ok made) (hdone : Ascending cmp (done.map (·.1))) :
    Ascending cmp (made.map (·.1)) ∧ ∀ p ∈ made,
      (p.1 ∈ done.map (·.1) ∨ p.1 ∈ pairs.map (·.1))
        ∧ (p.2 ∈ done.map (·.2) ∨ p.2 ∈ pairs.map (·.2)) := by
  induction pairs generalizing done with
  | nil =>
    obtain rfl := Except.ok.inj h
    exact ⟨hdone, fun p hp => ⟨.inl (List.mem_map_of_mem hp), .inl (List.mem_map_of_mem hp)⟩⟩
  | cons q pairs ih =>
    rw [List.foldlM_cons, bind_eq_ok_iff] at h
    obtain ⟨done', hput, h⟩ := h
    obtain ⟨⟨old, rest⟩, hins, hput⟩ := bind_eq_ok_iff.1 hput
    obtain rfl := pure_eq_ok_iff.1 hput
    -- Key and value are followed apart: an insertion may keep a key and change its value.
    obtain ⟨hmade, hmem⟩ := ih h (hc.ascending_insert hins hdone)
    refine ⟨hmade, fun p hp => ?_⟩
    obtain ⟨hk, hv⟩ := hmem p hp
    constructor
    · rcases hk with hk | hk
      · obtain ⟨r, hr, hrk⟩ := List.mem_map.1 hk
        rcases (mem_of_insert hins r hr).1 with h | h
        · exact .inr (by simp [← hrk, h])
        · exact .inl (hrk ▸ h)
      · exact .inr (List.mem_cons_of_mem _ hk)
    · rcases hv with hv | hv
      · obtain ⟨r, hr, hrv⟩ := List.mem_map.1 hv
        rcases (mem_of_insert hins r hr).2 with h | h
        · exact .inr (by simp [← hrv, h])
        · exact .inl (hrv ▸ h)
      · exact .inr (List.mem_cons_of_mem _ hv)

/-- What holds of all keys and of all values holds of those that a map is made of. -/
theorem IsOrder.forall_mem_of_foldlM_put (hc : IsOrder cmp) {P : κ → Prop} {Q : ν → Prop}
    {pairs made : List (κ × ν)} (h : pairs.foldlM (put cmp) [] = .ok made)
    (hpairs : ∀ p ∈ pairs, P p.1 ∧ Q p.2) : ∀ p ∈ made, P p.1 ∧ Q p.2 := by
  obtain ⟨-, hmem⟩ := hc.ascending_foldlM_put h List.Pairwise.nil
  intro p hp
  obtain ⟨hk, hv⟩ := hmem p hp
  obtain ⟨q, hq, hqk⟩ := List.mem_map.1 (hk.resolve_left List.not_mem_nil)
  obtain ⟨r, hr, hrv⟩ := List.mem_map.1 (hv.resolve_left List.not_mem_nil)
  exact ⟨hqk ▸ (hpairs q hq).1, hrv ▸ (hpairs r hr).2⟩

end Micheline.Sorted
