/-
Micheline/Proofs/Value/Batches.lean

Batches of updates.  Updates of a value are updates of its big maps, put together under
constructors, side by side and along lists.  What is kept by these ways of putting steps
together (`IsCompositional`) follows for a value if it is so for its big maps
(`IsCompositional.enrich`), by one induction for all such properties.

In one big map an update settles what it brings in and writes it (`Ty.applyUpdate_eq`).  So a
batch may be put in another order as writes may be: if all keys can be compared, only the order
of the updates for one key matters (`Ty.foldlM_applyUpdate_of_perm`).
-/
import Micheline.Proofs.Value.Comparable
import Micheline.Proofs.Value.Updates

namespace Micheline

open Sorted

/-! ### Counted steps -/

section Counted

variable {ε α β : Type}

/-- Two steps one after another have the results of a third one, with the sum of the counts. -/
def InTurn (f g h : α → Except ε (α × Nat)) (a : α) : Prop :=
  ∀ c n, h a = .ok (c, n) ↔ ∃ b m m', f a = .ok (b, m) ∧ g b = .ok (c, m') ∧ n = m + m'

/-- Steps that count nothing, the second one of which changes nothing. -/
theorem inTurn_still {f g h : α → Except ε (α × Nat)} {a b : α} (hf : f a = .ok (b, 0))
    (hg : g b = .ok (b, 0)) (hh : h a = .ok (b, 0)) : InTurn f g h a := by
  intro c n
  rw [hh, hf]
  constructor
  · intro hc
    obtain ⟨rfl, rfl⟩ := Prod.mk.inj (Except.ok.inj hc)
    exact ⟨b, 0, 0, rfl, hg, rfl⟩
  · rintro ⟨b', m, m', hb, hc, rfl⟩
    obtain ⟨rfl, rfl⟩ := Prod.mk.inj (Except.ok.inj hb)
    obtain ⟨rfl, rfl⟩ := Prod.mk.inj (Except.ok.inj (hg.symm.trans hc))
    rfl

/-- Steps that have no result. -/
theorem inTurn_of_fails {f g h : α → Except ε (α × Nat)} {a : α} (hf : ∀ d, f a ≠ .ok d)
    (hh : ∀ d, h a ≠ .ok d) : InTurn f g h a := by
  intro c n
  constructor
  · intro hc
    exact absurd hc (hh _)
  · rintro ⟨b, m, m', hb, -⟩
    exact absurd hb (hf _)

/-- The step is another one under a constructor. -/
def Under (w : α → β) (f : α → Except ε (α × Nat)) (f' : β → Except ε (β × Nat)) : Prop :=
  ∀ a b n, f' (w a) = .ok (b, n) ↔ ∃ a', f a = .ok (a', n) ∧ b = w a'

theorem Under.of_return {w : α → β} {f : α → Except ε (α × Nat)} {f' : β → Except ε (β × Nat)}
    (h : ∀ a, f' (w a) = do
      let (a', n) ← f a
      return (w a', n)) : Under w f f' := by
  intro a b n
  rw [h, bind_eq_ok_iff]
  constructor
  · rintro ⟨⟨a', n'⟩, ha, hb⟩
    obtain ⟨rfl, rfl⟩ := Prod.mk.inj (pure_eq_ok_iff.1 hb)
    exact ⟨a', ha, rfl⟩
  · rintro ⟨a', ha, rfl⟩
    exact ⟨(a', n), ha, rfl⟩

/-- Steps in turn under a constructor. -/
theorem InTurn.under {w : α → β} {f g h : α → Except ε (α × Nat)}
    {f' g' h' : β → Except ε (β × Nat)} {a : α} (hturn : InTurn f g h a) (hf : Under w f f')
    (hg : Under w g g') (hh : Under w h h') : InTurn f' g' h' (w a) := by
  intro c n
  rw [hh]
  constructor
  · rintro ⟨c', hc, rfl⟩
    obtain ⟨b, m, m', hb, hbc, rfl⟩ := (hturn c' n).1 hc
    exact ⟨w b, m, m', (hf a _ _).2 ⟨b, hb, rfl⟩, (hg b _ _).2 ⟨c', hbc, rfl⟩, rfl⟩
  · rintro ⟨b, m, m', hb, hc, rfl⟩
    obtain ⟨b', hb', rfl⟩ := (hf a _ _).1 hb
    obtain ⟨c', hc', rfl⟩ := (hg b' _ _).1 hc
    exact ⟨c', (hturn c' _).2 ⟨b', m, m', hb', hc', rfl⟩, rfl⟩

/-- Steps with the same results under a constructor. -/
theorem Under.congr {w : α → β} {f g : α → Except ε (α × Nat)} {f' g' : β → Except ε (β × Nat)}
    {a : α} (hf : Under w f f') (hg : Under w g g') (h : ∀ d, f a = .ok d ↔ g a = .ok d)
    (d : β × Nat) : f' (w a) = .ok d ↔ g' (w a) = .ok d := by
  obtain ⟨b, n⟩ := d
  rw [hf, hg]
  simp only [h]

/-- A step under a constructor succeeds if the step does. -/
theorem Under.exists {w : α → β} {f : α → Except ε (α × Nat)} {f' : β → Except ε (β × Nat)}
    {a : α} (hf : Under w f f') (h : ∃ d, f a = .ok d) : ∃ d, f' (w a) = .ok d := by
  obtain ⟨⟨a', n⟩, ha⟩ := h
  exact ⟨(w a', n), (hf a _ n).2 ⟨a', ha, rfl⟩⟩

/-- A step for each of two values, with the sum of the counts. -/
def both (f : α → Except ε (α × Nat)) (g : β → Except ε (β × Nat)) (p : α × β) :
    Except ε ((α × β) × Nat) := do
  let (a, m) ← f p.1
  let (b, m') ← g p.2
  return ((a, b), m + m')

section Both

variable {f g h : α → Except ε (α × Nat)} {f' g' h' : β → Except ε (β × Nat)} {a : α} {b : β}

/-- Two steps beside each other succeed if each does; their counts are added. -/
theorem both_eq_ok_iff {c : α × β} {n : Nat} :
    both f f' (a, b) = .ok (c, n)
      ↔ ∃ m m', f a = .ok (c.1, m) ∧ f' b = .ok (c.2, m') ∧ n = m + m' := by
  rw [both, bind_eq_ok_iff]
  constructor
  · rintro ⟨⟨a', m⟩, ha, h⟩
    obtain ⟨⟨b', m'⟩, hb, h⟩ := bind_eq_ok_iff.1 h
    obtain ⟨rfl, rfl⟩ := Prod.mk.inj (pure_eq_ok_iff.1 h)
    exact ⟨m, m', ha, hb, rfl⟩
  · rintro ⟨m, m', ha, hb, rfl⟩
    exact ⟨(c.1, m), ha, bind_eq_ok_iff.2 ⟨(c.2, m'), hb, rfl⟩⟩

/-- Steps in turn for each of two values are steps in turn for both. -/
theorem InTurn.both (ha : InTurn f g h a) (hb : InTurn f' g' h' b) :
    InTurn (both f f') (both g g') (both h h') (a, b) := by
  intro c n
  rw [both_eq_ok_iff]
  constructor
  · rintro ⟨m, m', hc, hd, rfl⟩
    obtain ⟨a', k, k', hfa, hga, rfl⟩ := (ha c.1 m).1 hc
    obtain ⟨b', j, j', hfb, hgb, rfl⟩ := (hb c.2 m').1 hd
    exact ⟨(a', b'), k + j, k' + j', both_eq_ok_iff.2 ⟨k, j, hfa, hfb, rfl⟩,
      both_eq_ok_iff.2 ⟨k', j', hga, hgb, rfl⟩, by omega⟩
  · rintro ⟨⟨a', b'⟩, m, m', hf, hg, rfl⟩
    obtain ⟨k, j, hfa, hfb, rfl⟩ := both_eq_ok_iff.1 hf
    obtain ⟨k', j', hga, hgb, rfl⟩ := both_eq_ok_iff.1 hg
    exact ⟨k + k', j + j', (ha c.1 _).2 ⟨a', k, k', hfa, hga, rfl⟩,
      (hb c.2 _).2 ⟨b', j, j', hfb, hgb, rfl⟩, by omega⟩

theorem both_congr (ha : ∀ d, f a = .ok d ↔ g a = .ok d) (hb : ∀ d, f' b = .ok d ↔ g' b = .ok d)
    (d : (α × β) × Nat) : both f f' (a, b) = .ok d ↔ both g g' (a, b) = .ok d := by
  obtain ⟨c, n⟩ := d
  rw [both_eq_ok_iff, both_eq_ok_iff]
  simp only [ha, hb]

theorem exists_both (ha : ∃ d, f a = .ok d) (hb : ∃ d, f' b = .ok d) :
    ∃ d, both f f' (a, b) = .ok d := by
  obtain ⟨⟨a', m⟩, ha⟩ := ha
  obtain ⟨⟨b', m'⟩, hb⟩ := hb
  exact ⟨((a', b'), m + m'), both_eq_ok_iff.2 ⟨m, m', ha, hb, rfl⟩⟩

theorem Under.of_both {γ : Type} {w : α × β → γ} {F : γ → Except ε (γ × Nat)}
    (h : ∀ a b, F (w (a, b)) = do
      let (a', m) ← f a
      let (b', m') ← f' b
      return (w (a', b'), m + m')) : Under w (Micheline.both f f') F := by
  refine .of_return fun ⟨a, b⟩ => ?_
  rw [h, Micheline.both]
  rcases f a with e | ⟨a', m⟩
  · rfl
  · show (f' b >>= _) = ((f' b >>= _) >>= _)
    rcases f' b with e | ⟨b', m'⟩ <;> rfl

end Both

/-- A step for each item of a list, with the sum of the counts. -/
def tally (f : α → Except ε (α × Nat)) (as : List α) : Except ε (List α × Nat) := do
  let done ← as.mapM f
  return (done.map (·.1), Ty.total (done.map (·.2)))

/-- A list is taken in turn from its head. -/
theorem under_cons {f : α → Except ε (α × Nat)} :
    Under (fun p : α × List α => p.1 :: p.2) (both f (tally f)) (tally f) := by
  refine .of_both fun a as => ?_
  rw [tally, tally, List.mapM_cons]
  rcases f a with e | d
  · rfl
  · show ((as.mapM f >>= _) >>= _) = ((as.mapM f >>= _) >>= _)
    rcases as.mapM f with e | done <;> rfl

/-- A step that is made for a list, with the sum of the counts, under a constructor. -/
theorem Under.of_tally {w : List α → β} {f : α → Except ε (α × Nat)}
    {f' : β → Except ε (β × Nat)}
    (h : ∀ as, f' (w as) = do
      let done ← as.mapM f
      return (w (done.map (·.1)), Ty.total (done.map (·.2)))) : Under w (tally f) f' := by
  refine .of_return fun as => ?_
  rw [h, tally]
  cases as.mapM f <;> rfl

end Counted

namespace Ty

variable {updates us us' : List BigMapUpdate} {i : Info} {l r t key value : Ty}

/-! ### Updates of a value -/

theorem under_pair {s : Comb} :
    Under (fun p => Val.pair p.1 p.2 s) (both (l.enrich updates) (r.enrich updates))
      ((pair i l r).enrich updates) :=
  .of_both fun _ _ => rfl

theorem under_val (side : Side) :
    Under side.val ((side.pick l r).enrich updates) ((or i l r).enrich updates) := by
  cases side <;> exact .of_return fun _ => rfl

theorem under_some : Under Val.some (t.enrich updates) ((option i t).enrich updates) :=
  .of_return fun _ => rfl

theorem under_items {ty : Ty} (hty : ty.HasItems t) :
    Under Val.items (tally (t.enrich updates)) (ty.enrich updates) := by
  cases hty <;> exact .of_tally fun _ => rfl

theorem under_map {pointer : Option Int} :
    Under (Val.entries pointer) (tally (enrichEntry updates value))
      ((map i key value).enrich updates) :=
  .of_tally fun _ => rfl

theorem under_entry {k : Val} :
    Under (Prod.mk k) (value.enrich updates) (enrichEntry updates value) :=
  .of_return fun _ => rfl

end Ty

/-! ### Properties that are kept -/

/-- Updates of something, and how many of them there were for it. -/
abbrev CountedStep (α : Type) := List BigMapUpdate → α → Except Error (α × Nat)

/-- A property of updates that is kept when they are put together. -/
structure IsCompositional (P : ∀ α : Type, CountedStep α → α → Prop) : Prop where
  /-- It holds where nothing is updated. -/
  still {α : Type} {F : CountedStep α} {a b : α} (ha : ∀ us, F us a = .ok (b, 0))
    (hb : ∀ us, F us b = .ok (b, 0)) : P α F a
  under {α β : Type} {w : α → β} {F : CountedStep α} {F' : CountedStep β} {a : α}
    (hw : ∀ us, Under w (F us) (F' us)) (h : P α F a) : P β F' (w a)
  both {α β : Type} {F : CountedStep α} {G : CountedStep β} {a : α} {b : β} (ha : P α F a)
    (hb : P β G b) : P (α × β) (fun us => both (F us) (G us)) (a, b)

section Compositional

variable {P : ∀ α : Type, CountedStep α → α → Prop} {us us' : List BigMapUpdate}

/-- What holds of the steps along a list holds of the run. -/
theorem IsCompositional.tally (hP : IsCompositional P) {α : Type} {F : CountedStep α}
    {as : List α} (h : ∀ a ∈ as, P α F a) : P (List α) (fun us => tally (F us)) as := by
  induction as with
  | nil => exact hP.still (fun _ => rfl) fun _ => rfl
  | cons a as ih =>
    obtain ⟨ha, has⟩ := List.forall_mem_cons.1 h
    exact hP.under (a := (a, as)) (fun _ => under_cons) (hP.both ha (ih has))

/-- **What is kept holds of a value** if it holds of the big maps in it. -/
theorem IsCompositional.enrich (hP : IsCompositional P) {ty : Ty} {v : Val}
    (h : ∀ b ∈ ty.bigMaps v, P Val (fun us => b.ty.enrich us) b.val) :
    P Val (fun us => ty.enrich us) v := by
  induction ty generalizing v with
  | bigMap i key value =>
    cases v with
    | entries pointer pairs =>
      cases pointer with
      | none => exact hP.still (fun _ => rfl) fun _ => rfl
      | some pointer => exact h _ List.mem_cons_self
    | _ => exact hP.still (fun _ => rfl) fun _ => rfl
  | pair i l r ihl ihr =>
    cases v with
    | pair a b s =>
      obtain ⟨hl, hr⟩ := List.forall_mem_append.1 h
      exact hP.under (a := (a, b)) (fun _ => Ty.under_pair) (hP.both (ihl hl) (ihr hr))
    | _ => exact hP.still (fun _ => rfl) fun _ => rfl
  | or i l r ihl ihr =>
    cases v with
    | left a => exact hP.under (fun _ => Ty.under_val .left) (ihl h)
    | right b => exact hP.under (fun _ => Ty.under_val .right) (ihr h)
    | _ => exact hP.still (fun _ => rfl) fun _ => rfl
  | option i t ih =>
    cases v with
    | some a => exact hP.under (fun _ => Ty.under_some) (ih h)
    | _ => exact hP.still (fun _ => rfl) fun _ => rfl
  | list i t ih | set i t ih =>
    cases v with
    | items values =>
      refine hP.under (fun _ => Ty.under_items (by constructor)) (hP.tally fun v hv => ?_)
      exact ih fun b hb => h b (List.mem_flatMap.2 ⟨v, hv, hb⟩)
    | _ => exact hP.still (fun _ => rfl) fun _ => rfl
  | map i key value _ ih =>
    cases v with
    | entries pointer pairs =>
      refine hP.under (fun _ => Ty.under_map) (hP.tally fun p hp => ?_)
      exact hP.under (a := p.2) (fun _ => Ty.under_entry)
        (ih fun b hb => h b (List.mem_flatMap.2 ⟨p, hp, hb⟩))
    | _ => exact hP.still (fun _ => rfl) fun _ => rfl
  | ticket i content paired _ ih => exact ih h
  | _ => exact hP.still (fun _ => rfl) fun _ => rfl

/-- That two batches one after the other are as one is kept. -/
theorem isCompositional_inTurn (us us' : List BigMapUpdate) :
    IsCompositional fun _ F a => InTurn (F us) (F us') (F (us ++ us')) a where
  still ha hb := inTurn_still (ha us) (hb us') (ha (us ++ us'))
  under hw h := h.under (hw us) (hw us') (hw (us ++ us'))
  both ha hb := ha.both hb

/-- That two batches have the same results is kept. -/
theorem isCompositional_same (us us' : List BigMapUpdate) :
    IsCompositional fun _ F a => ∀ d, F us a = .ok d ↔ F us' a = .ok d where
  still ha _ d := by rw [ha us, ha us']
  under hw h d := (hw us).congr (hw us') h d
  both ha hb d := both_congr ha hb d

/-- That a batch succeeds is kept. -/
theorem isCompositional_succeeds (us : List BigMapUpdate) :
    IsCompositional fun _ F a => ∃ d, F us a = .ok d where
  still ha _ := ⟨_, ha us⟩
  under hw h := (hw us).exists h
  both ha hb := exists_both ha hb

end Compositional

namespace Ty

variable {us us' : List BigMapUpdate} {key value : Ty}

/-! ### Batches in another order -/

/-- Updates are applied by settling all of them and writing one after another. -/
theorem foldlM_applyUpdate_iff {pairs done : List (Val × Val)} :
    us.foldlM (applyUpdate key value) pairs = .ok done
      ↔ ∃ ws, us.mapM (settleUpdate key value) = .ok ws
        ∧ ws.foldlM (write key.compare) pairs = .ok done := by
  rw [← foldlM_bind_eq_ok_iff]
  simp only [← applyUpdate_eq]

/-- The updates for a key, settled, are the writes at that key. -/
theorem mapM_filter_isFor {ws : List (Val × Option Val)}
    (h : us.mapM (settleUpdate key value) = .ok ws) (k : Val) :
    (us.filter (key.isFor k)).mapM (settleUpdate key value)
      = .ok (ws.filter fun w => isEqual (key.compare w.1 k)) := by
  refine mapM_eq_ok_iff.2 (List.rel_filter ?_ (mapM_eq_ok_iff.1 h))
  intro u w huw
  show key.isFor k u = true ↔ isEqual (key.compare w.1 k) = true
  rw [isFor_of_settleUpdate huw]

/-- The updates for each key of the first list stand in the same order in the second one. -/
def KeepsOrder (key : Ty) (us us' : List BigMapUpdate) : Prop :=
  ∀ u ∈ us, ∀ k, key.settleBytes u.key = .ok k → us.filter (key.isFor k) = us'.filter (key.isFor k)

/-- Settled updates whose order was kept are writes of which the order at each key was kept. -/
theorem filter_eq_of_keepsOrder {ws ws' : List (Val × Option Val)} (horder : KeepsOrder key us us')
    (hws : us.mapM (settleUpdate key value) = .ok ws)
    (hws' : us'.mapM (settleUpdate key value) = .ok ws') (hperm : ws.Perm ws') (k : Val) :
    (ws.filter fun w => isEqual (key.compare w.1 k))
      = ws'.filter fun w => isEqual (key.compare w.1 k) := by
  by_cases hex : ∃ w ∈ ws, isEqual (key.compare w.1 k) = true
  · obtain ⟨w, hw, hwk⟩ := hex
    obtain ⟨u, hu, huw⟩ := exists_of_mem_mapM hws w hw
    have hkeys := horder u hu w.1 (settleBytes_of_settleUpdate huw)
    have hwrites := mapM_filter_isFor hws w.1
    rw [hkeys, mapM_filter_isFor hws' w.1] at hwrites
    -- what is equal to the key of the write is equal to the other key
    simp only [isEqual_congr_right (isOrder_compare key) (isEqual_iff.1 hwk)] at hwrites
    exact (Except.ok.inj hwrites).symm
  · -- there is no write at the key
    have hnone : ∀ w ∈ ws, ¬isEqual (key.compare w.1 k) = true := fun w hw h => hex ⟨w, hw, h⟩
    rw [List.filter_eq_nil_iff.2 hnone,
      List.filter_eq_nil_iff.2 fun w hw => hnone w (hperm.symm.subset hw)]

/-- A key that the type holds and that decodes. -/
def IsKey (key : Ty) (k : Val) : Prop :=
  Holds true key k ∧ key.Decodes k

/-- Keys that decode can be compared. -/
theorem IsKey.exists_compare {a b : Val} (hkey : key.isComparable = true) (ha : key.IsKey a)
    (hb : key.IsKey b) : ∃ o, key.compare a b = .ok o :=
  (compares hkey ha.1 hb.1).resolve_right fun hstuck => hstuck.1 ⟨ha.2, hb.2⟩

/-- Settled updates have keys that decode, if those of the updates do. -/
theorem isKey_of_mem_mapM {ws : List (Val × Option Val)}
    (hus : ∀ u ∈ us, ∀ k, key.settleBytes u.key = .ok k → key.Decodes k)
    (hws : us.mapM (settleUpdate key value) = .ok ws) : ∀ w ∈ ws, key.IsKey w.1 := by
  intro w hw
  obtain ⟨u, hu, huw⟩ := exists_of_mem_mapM hws w hw
  have hsettled := settleBytes_of_settleUpdate huw
  exact ⟨holds_of_settleBytes hsettled, hus u hu w.1 hsettled⟩

section Update

variable {pairs done : List (Val × Val)} (hkey : key.isComparable = true)
  (hp : HoldsEntries true key value pairs) (hpairs : ∀ p ∈ pairs, key.Decodes p.1)
  (hus : ∀ u ∈ us, ∀ k, key.settleBytes u.key = .ok k → key.Decodes k)

include hkey hp hpairs hus

/-- Updates of one big map succeed if they bring in values of its types. -/
theorem exists_foldlM_applyUpdate (h : ∀ u ∈ us, ∃ w, settleUpdate key value u = .ok w) :
    ∃ done, us.foldlM (applyUpdate key value) pairs = .ok done := by
  obtain ⟨ws, hws⟩ := exists_mapM h
  obtain ⟨done, hdone⟩ := exists_foldlM_write (isOrder_compare key)
    (fun _ _ => IsKey.exists_compare hkey) hp.ascending
    (fun p hmem => ⟨hp.keys p hmem, hpairs p hmem⟩) (isKey_of_mem_mapM hus hws)
  exact ⟨done, foldlM_applyUpdate_iff.2 ⟨ws, hws, hdone⟩⟩

/-- **Updates of one big map in another order** bring about the same entries, if all keys decode
and the order of the updates for each key is kept. -/
theorem foldlM_applyUpdate_of_perm (hperm : us.Perm us') (horder : KeepsOrder key us us')
    (h : us.foldlM (applyUpdate key value) pairs = .ok done) :
    us'.foldlM (applyUpdate key value) pairs = .ok done := by
  obtain ⟨ws, hws, hdone⟩ := foldlM_applyUpdate_iff.1 h
  obtain ⟨ws', hws', hpermws⟩ := exists_mapM_of_perm hperm hws
  have hkeys := isKey_of_mem_mapM hus hws
  refine foldlM_applyUpdate_iff.2 ⟨ws', hws', ?_⟩
  rw [← foldlM_write_congr (isOrder_compare key) (fun _ _ => IsKey.exists_compare hkey)
    hp.ascending (fun p hmem => ⟨hp.keys p hmem, hpairs p hmem⟩) hkeys
    (fun w hw => hkeys w (hpermws.symm.subset hw))
    (filter_eq_of_keepsOrder horder hws hws' hpermws)]
  exact hdone

end Update

theorem KeepsOrder.symm (h : KeepsOrder key us us') (hperm : us.Perm us') :
    KeepsOrder key us' us :=
  fun u hu k hk => (h u (hperm.mem_iff.2 hu) k hk).symm

end Ty

/-! ### Batches for a big map -/

namespace Typed

variable {us us' : List BigMapUpdate} {b : Typed}

/-- The updates for each key of a big map stand in the same order in two lists. -/
def KeepsOrder (us us' : List BigMapUpdate) : Typed → Prop
  | ⟨.bigMap _ key _, .entries (some pointer) _⟩ =>
    key.KeepsOrder (us.filter fun u => u.pointer == pointer)
      (us'.filter fun u => u.pointer == pointer)
  | _ => True

/-- The keys of a big map are of a comparable type; those that are there decode, and so do those
that updates of it bring in. -/
def KeysDecode (us : List BigMapUpdate) : Typed → Prop
  | ⟨.bigMap _ key _, .entries (some pointer) pairs⟩ =>
    key.isComparable = true ∧ (∀ p ∈ pairs, key.Decodes p.1)
      ∧ ∀ u ∈ us, u.pointer = pointer → ∀ k, key.settleBytes u.key = .ok k → key.Decodes k
  | _ => True

/-- The bytes that updates of a big map bring in are of its types. -/
def UpdatesSettle (us : List BigMapUpdate) : Typed → Prop
  | ⟨.bigMap _ key value, .entries (some pointer) _⟩ =>
    ∀ u ∈ us, u.pointer = pointer → (∃ k, key.settleBytes u.key = .ok k)
      ∧ ∀ data, u.value = some data → ∃ v, value.settleBytes data = .ok v
  | _ => True

theorem KeepsOrder.symm (h : b.KeepsOrder us us') (hperm : us.Perm us') :
    b.KeepsOrder us' us := by
  rw [KeepsOrder.eq_def] at h ⊢
  split
  next => exact Ty.KeepsOrder.symm h (hperm.filter _)
  next => trivial

/-- Whether keys decode does not depend on the order of the updates. -/
theorem KeysDecode.of_perm (h : b.KeysDecode us) (hperm : us.Perm us') : b.KeysDecode us' := by
  rw [KeysDecode.eq_def] at h ⊢
  split
  next => exact ⟨h.1, h.2.1, fun u hu => h.2.2 u (hperm.mem_iff.2 hu)⟩
  next => trivial

/-- **Two batches for a big map** one after the other do what they do as one. -/
theorem inTurn_enrich (us us' : List BigMapUpdate) (hb : b.pointer?.isSome = true) :
    InTurn (b.ty.enrich us) (b.ty.enrich us') (b.ty.enrich (us ++ us')) b.val := by
  obtain ⟨i, key, value, pointer, pairs, rfl⟩ := exists_of_pointer? hb
  intro v n
  rw [Ty.enrich_bigMap_iff, List.filter_append, List.length_append]
  constructor
  · rintro ⟨done, hdone, rfl, rfl⟩
    rw [List.foldlM_append, bind_eq_ok_iff] at hdone
    obtain ⟨made, hmade, hdone⟩ := hdone
    exact ⟨.entries (some pointer) made, _, _, Ty.enrich_bigMap_iff.2 ⟨made, hmade, rfl, rfl⟩,
      Ty.enrich_bigMap_iff.2 ⟨done, hdone, rfl, rfl⟩, rfl⟩
  · rintro ⟨b, m, m', hb, hv, rfl⟩
    obtain ⟨made, hmade, rfl, rfl⟩ := Ty.enrich_bigMap_iff.1 hb
    obtain ⟨done, hdone, rfl, rfl⟩ := Ty.enrich_bigMap_iff.1 hv
    exact ⟨done, by rw [List.foldlM_append, hmade]; exact hdone, rfl, rfl⟩

/-- **A batch for a big map in another order.** -/
theorem enrich_of_perm (hb : b.ty.Holds true b.val) (hpointer : b.pointer?.isSome = true)
    (hkeys : b.KeysDecode us) (hperm : us.Perm us') (horder : b.KeepsOrder us us') {d : Val × Nat}
    (h : b.ty.enrich us b.val = .ok d) : b.ty.enrich us' b.val = .ok d := by
  obtain ⟨i, key, value, pointer, pairs, rfl⟩ := exists_of_pointer? hpointer
  obtain ⟨hkey, hpairs, hus⟩ := hkeys
  obtain ⟨done, hdone, hv, hn⟩ := Ty.enrich_bigMap_iff.1 h
  have hchosen := hperm.filter fun u => u.pointer == pointer
  refine Ty.enrich_bigMap_iff.2 ⟨done, ?_, hv, hn.trans hchosen.length_eq⟩
  refine Ty.foldlM_applyUpdate_of_perm hkey (Ty.holdsEntries_of_bigMap hb) hpairs ?_ hchosen horder
    hdone
  intro u hu
  obtain ⟨hu, hup⟩ := List.mem_filter.1 hu
  exact hus u hu (eq_of_beq hup)

/-- A batch for a big map succeeds if what it brings in is of its types. -/
theorem exists_enrich (hb : b.ty.Holds true b.val) (hpointer : b.pointer?.isSome = true)
    (hkeys : b.KeysDecode us) (hsettle : b.UpdatesSettle us) :
    ∃ d, b.ty.enrich us b.val = .ok d := by
  obtain ⟨i, key, value, pointer, pairs, rfl⟩ := exists_of_pointer? hpointer
  obtain ⟨hkey, hpairs, hus⟩ := hkeys
  have hchosen : ∀ u ∈ us.filter fun u => u.pointer == pointer, u ∈ us ∧ u.pointer = pointer :=
    fun u hu => (List.mem_filter.1 hu).imp_right eq_of_beq
  obtain ⟨done, hdone⟩ := Ty.exists_foldlM_applyUpdate hkey (Ty.holdsEntries_of_bigMap hb) hpairs
    (fun u hu => hus u (hchosen u hu).1 (hchosen u hu).2) fun u hu =>
    Ty.exists_settleUpdate_iff.2 (hsettle u (hchosen u hu).1 (hchosen u hu).2)
  exact ⟨_, Ty.enrich_bigMap_iff.2 ⟨done, hdone, rfl, rfl⟩⟩

end Typed

end Micheline
