/-
Micheline/Proofs/Value/Enrich.lean

Values after updates of the big maps in them.  The updates settle what they bring in, so that
the type still holds the value (`Ty.holds_of_enrich`); and they touch nothing that the order
looks at (`Ty.ranksAs_enrich`), so that sets of such values stay ascending.
-/
import Micheline.Proofs.Value.Rank
import Micheline.Proofs.Value.Settled
import Micheline.Value.BigMap

namespace Micheline.Ty

open Sorted

/-! ### Updates of one big map -/

theorem holds_of_settleBytes {ty : Ty} {data : Bytes} {v : Val}
    (h : ty.settleBytes data = .ok v) : Holds true ty v := by
  obtain ⟨n, -, h⟩ := bind_eq_ok_iff.1 h
  exact (holds_of_settle h).mono

/-- Inserting keeps a big map well formed. -/
theorem holdsEntries_insert {key value : Ty} {k v : Val} {old : Option Val}
    {pairs done : List (Val × Val)} (hp : HoldsEntries true key value pairs) (hk : Holds true key k)
    (hv : Holds true value v) (h : Sorted.insert key.compare k v pairs = .ok (old, done)) :
    HoldsEntries true key value done where
  keys p hpd := by
    rcases (mem_of_insert h p hpd).1 with rfl | hmem
    · exact hk
    · obtain ⟨q, hq, hqp⟩ := List.mem_map.1 hmem
      exact hqp ▸ hp.keys q hq
  values p hpd := by
    rcases (mem_of_insert h p hpd).2 with rfl | hmem
    · exact hv
    · obtain ⟨q, hq, hqp⟩ := List.mem_map.1 hmem
      exact hqp ▸ hp.values q hq
  ascending := (isOrder_compare key).ascending_insert h hp.ascending

/-- Erasing keeps a big map well formed. -/
theorem holdsEntries_erase {key value : Ty} {k : Val} {old : Option Val}
    {pairs done : List (Val × Val)} (hp : HoldsEntries true key value pairs)
    (h : Sorted.erase key.compare k pairs = .ok (old, done)) :
    HoldsEntries true key value done where
  keys p hpd := hp.keys p ((sublist_of_erase h).subset hpd)
  values p hpd := hp.values p ((sublist_of_erase h).subset hpd)
  ascending := List.Pairwise.sublist ((sublist_of_erase h).map _) hp.ascending

/-- **One update.** -/
theorem holdsEntries_applyUpdate {key value : Ty} {u : BigMapUpdate}
    {pairs done : List (Val × Val)} (hp : HoldsEntries true key value pairs)
    (h : applyUpdate key value pairs u = .ok done) : HoldsEntries true key value done := by
  rw [applyUpdate, bind_eq_ok_iff] at h
  obtain ⟨k, hk, h⟩ := h
  split at h
  next data _ =>
    obtain ⟨v, hv, h⟩ := bind_eq_ok_iff.1 h
    obtain ⟨⟨old, made⟩, hins, h⟩ := bind_eq_ok_iff.1 h
    obtain rfl := pure_eq_ok_iff.1 h
    exact holdsEntries_insert hp (holds_of_settleBytes hk) (holds_of_settleBytes hv) hins
  next =>
    obtain ⟨⟨old, made⟩, hdel, h⟩ := bind_eq_ok_iff.1 h
    obtain rfl := pure_eq_ok_iff.1 h
    exact holdsEntries_erase hp hdel

theorem holdsEntries_foldlM {key value : Ty} {updates : List BigMapUpdate}
    {pairs done : List (Val × Val)} (hp : HoldsEntries true key value pairs)
    (h : updates.foldlM (applyUpdate key value) pairs = .ok done) :
    HoldsEntries true key value done := by
  induction updates generalizing pairs with
  | nil => exact Except.ok.inj h ▸ hp
  | cons u updates ih =>
    rw [List.foldlM_cons, bind_eq_ok_iff] at h
    obtain ⟨made, hmade, h⟩ := h
    exact ih (holdsEntries_applyUpdate hp hmade) h

/-- A big map with a pointer takes the updates for that pointer, and counts them. -/
theorem enrich_bigMap_iff {i : Info} {key value : Ty} {updates : List BigMapUpdate} {pointer : Int}
    {pairs : List (Val × Val)} {v : Val} {n : Nat} :
    (bigMap i key value).enrich updates (.entries (some pointer) pairs) = .ok (v, n)
      ↔ ∃ done, (updates.filter fun u => u.pointer == pointer).foldlM (applyUpdate key value) pairs
          = .ok done
        ∧ v = .entries (some pointer) done
        ∧ n = (updates.filter fun u => u.pointer == pointer).length := by
  constructor
  · intro h
    obtain ⟨done, hdone, h⟩ := bind_eq_ok_iff.1 h
    obtain ⟨rfl, rfl⟩ := Prod.mk.inj (pure_eq_ok_iff.1 h)
    exact ⟨done, hdone, rfl, rfl⟩
  · rintro ⟨done, hdone, rfl, rfl⟩
    exact bind_eq_ok_iff.2 ⟨done, hdone, rfl⟩

/-- A big map with a pointer after updates. -/
theorem holds_bigMap_of_enrich {i : Info} {key value : Ty} {updates : List BigMapUpdate}
    {id : Int} {pairs : List (Val × Val)} {v' : Val} {count : Nat}
    (hid : Decimal.isInt64 id = true) (hp : HoldsEntries true key value pairs)
    (h : (bigMap i key value).enrich updates (.entries (some id) pairs) = .ok (v', count)) :
    Holds true (.bigMap i key value) v' := by
  obtain ⟨done, hdone, rfl, -⟩ := enrich_bigMap_iff.1 h
  have hd := holdsEntries_foldlM hp hdone
  exact .loaded rfl hid hd.keys hd.values hd.ascending

/-! ### Updates of a value -/

section Updates

variable {updates : List BigMapUpdate}

/-- **Updates keep the rank.** -/
theorem ranksAs_enrich {ty : Ty} {v v' : Val} {count : Nat} (hv : Holds true ty v)
    (h : ty.enrich updates v = .ok (v', count)) : ty.RanksAs v v' := by
  induction hv generalizing v' count with
  | pair _ _ _ iha ihb =>
    obtain ⟨⟨a', m⟩, ha, h⟩ := bind_eq_ok_iff.1 h
    obtain ⟨⟨b', n⟩, hb, h⟩ := bind_eq_ok_iff.1 h
    obtain ⟨rfl, -⟩ := Prod.mk.inj (pure_eq_ok_iff.1 h)
    exact ranksAs_pair (iha ha) (ihb hb)
  | left _ ih =>
    obtain ⟨⟨a', m⟩, ha, h⟩ := bind_eq_ok_iff.1 h
    obtain ⟨rfl, -⟩ := Prod.mk.inj (pure_eq_ok_iff.1 h)
    exact ranksAs_val .left (ih ha)
  | right _ ih =>
    obtain ⟨⟨b', m⟩, hb, h⟩ := bind_eq_ok_iff.1 h
    obtain ⟨rfl, -⟩ := Prod.mk.inj (pure_eq_ok_iff.1 h)
    exact ranksAs_val .right (ih hb)
  | some _ ih =>
    obtain ⟨⟨a', m⟩, ha, h⟩ := bind_eq_ok_iff.1 h
    obtain ⟨rfl, -⟩ := Prod.mk.inj (pure_eq_ok_iff.1 h)
    exact ranksAs_some (ih ha)
  | unit | bool | scalar _ | contract _ | none =>
    obtain ⟨rfl, -⟩ := Prod.mk.inj (Except.ok.inj h)
    exact .refl _ _
  -- the other types have no order
  | _ => exact fun _ => ⟨rfl, rfl⟩

/-- The items of a list or set after updates. -/
theorem exists_of_mem_enrichItems {elem : Ty} {values : List Val} {done : List (Val × Nat)}
    (h : values.mapM (elem.enrich updates) = .ok done) :
    ∀ v ∈ done.map (·.1), ∃ u ∈ values, ∃ count, elem.enrich updates u = .ok (v, count) := by
  intro v hv
  obtain ⟨d, hd, rfl⟩ := List.mem_map.1 hv
  obtain ⟨u, hu, hud⟩ := exists_of_mem_mapM h d hd
  exact ⟨u, hu, d.2, hud⟩

/-- An entry of a map after updates; its key stays. -/
def enrichEntry (updates : List BigMapUpdate) (value : Ty) (p : Val × Val) :
    Except Error ((Val × Val) × Nat) := do
  let (v, count) ← value.enrich updates p.2
  return ((p.1, v), count)

/-- An entry keeps its key; its value is updated. -/
theorem enrichEntry_eq_ok_iff {value : Ty} {p : Val × Val} {d : (Val × Val) × Nat} :
    enrichEntry updates value p = .ok d
      ↔ d.1.1 = p.1 ∧ value.enrich updates p.2 = .ok (d.1.2, d.2) := by
  rw [enrichEntry, bind_eq_ok_iff]
  constructor
  · rintro ⟨⟨v, count⟩, hv, h⟩
    obtain rfl := pure_eq_ok_iff.1 h
    exact ⟨rfl, hv⟩
  · rintro ⟨hk, hv⟩
    obtain ⟨⟨k, v⟩, count⟩ := d
    obtain rfl := hk
    exact ⟨(v, count), hv, rfl⟩

theorem map_fst_of_enrichEntry {value : Ty} {pairs : List (Val × Val)}
    {done : List ((Val × Val) × Nat)}
    (h : pairs.mapM (enrichEntry updates value) = .ok done) :
    (done.map (·.1)).map (·.1) = pairs.map (·.1) := by
  have hkeys : List.Forall₂ (fun p d => p.1 = d.1.1) pairs done :=
    forall₂_of_mapM h fun p _ d hd => (enrichEntry_eq_ok_iff.1 hd).1.symm
  clear h
  induction hkeys with
  | nil => rfl
  | cons hk _ ih =>
    rw [List.map_cons, List.map_cons, List.map_cons, ih, hk]

/-- **A type holds its values after updates.** -/
theorem holds_of_enrich {ty : Ty} {v v' : Val} {count : Nat} (hv : Holds true ty v)
    (h : ty.enrich updates v = .ok (v', count)) : Holds true ty v' := by
  induction hv generalizing v' count with
  | pair _ _ hcomb iha ihb =>
    obtain ⟨⟨a', m⟩, ha, h⟩ := bind_eq_ok_iff.1 h
    obtain ⟨⟨b', n⟩, hb, h⟩ := bind_eq_ok_iff.1 h
    obtain ⟨rfl, -⟩ := Prod.mk.inj (pure_eq_ok_iff.1 h)
    exact .pair (iha ha) (ihb hb) hcomb
  | left _ ih =>
    obtain ⟨⟨a', m⟩, ha, h⟩ := bind_eq_ok_iff.1 h
    obtain ⟨rfl, -⟩ := Prod.mk.inj (pure_eq_ok_iff.1 h)
    exact .left (ih ha)
  | right _ ih =>
    obtain ⟨⟨b', m⟩, hb, h⟩ := bind_eq_ok_iff.1 h
    obtain ⟨rfl, -⟩ := Prod.mk.inj (pure_eq_ok_iff.1 h)
    exact .right (ih hb)
  | some _ ih =>
    obtain ⟨⟨a', m⟩, ha, h⟩ := bind_eq_ok_iff.1 h
    obtain ⟨rfl, -⟩ := Prod.mk.inj (pure_eq_ok_iff.1 h)
    exact .some (ih ha)
  | list _ ih =>
    obtain ⟨done, hdone, h⟩ := bind_eq_ok_iff.1 h
    obtain ⟨rfl, -⟩ := Prod.mk.inj (pure_eq_ok_iff.1 h)
    refine .list fun v hv => ?_
    obtain ⟨u, hu, m, huv⟩ := exists_of_mem_enrichItems hdone v hv
    exact ih u hu huv
  | set hheld hs ih =>
    obtain ⟨done, hdone, h⟩ := bind_eq_ok_iff.1 h
    obtain ⟨rfl, -⟩ := Prod.mk.inj (pure_eq_ok_iff.1 h)
    -- elements are not added again after updates; they ascend because they keep their rank
    refine .set (fun v hv => ?_) (ascending_of_ranksAs ?_ hs)
    · obtain ⟨u, hu, m, huv⟩ := exists_of_mem_enrichItems hdone v hv
      exact ih u hu huv
    · rw [List.forall₂_map_right_iff]
      exact forall₂_of_mapM hdone fun u hu d hud => ranksAs_enrich (hheld u hu) hud
  | @map i key value pairs hkeys _ hs _ ihv =>
    -- the step of the map is the one that has a name here
    have h : (pairs.mapM (enrichEntry updates value) >>= _) = Except.ok (v', count) := h
    obtain ⟨done, hdone, h⟩ := bind_eq_ok_iff.1 h
    obtain ⟨rfl, -⟩ := Prod.mk.inj (pure_eq_ok_iff.1 h)
    have hmem : ∀ p ∈ done.map (·.1), Holds true key p.1 ∧ Holds true value p.2 := by
      intro p hp
      obtain ⟨d, hd, rfl⟩ := List.mem_map.1 hp
      obtain ⟨q, hq, hqd⟩ := exists_of_mem_mapM hdone d hd
      obtain ⟨hk, hv⟩ := enrichEntry_eq_ok_iff.1 hqd
      exact ⟨hk ▸ hkeys q hq, ihv q hq hv⟩
    refine .map (fun p hp => (hmem p hp).1) (fun p hp => (hmem p hp).2) ?_
    rw [map_fst_of_enrichEntry hdone]
    exact hs
  | pointer hid => exact holds_bigMap_of_enrich hid (holdsEntries_nil _ _ _) h
  | loaded _ hid hk hv hs => exact holds_bigMap_of_enrich hid ⟨hk, hv, hs⟩ h
  | ticket _ ih => exact .ticket (ih h)
  | _ =>
    -- the other values have no big map with a pointer in them
    obtain ⟨rfl, -⟩ := Prod.mk.inj (Except.ok.inj h)
    constructor <;> assumption

end Updates

end Micheline.Ty
