/-
Micheline/Proofs/Value/Updates.lean

What updates of big maps make of a value.  For each key the last update that is for it counts
(`lastUpdate?`): its value stands at the key afterwards, or nothing if it removes the key.  A
key without an update keeps its entry (`Overwritten`).

The big maps of a value are listed from left to right (`bigMaps`), but for those in keys and
in other big maps, which are not looked into (`mem_bigMaps_iff`).  Updates reach each of them
and nothing else (`Enriched`): what is left of the value without their entries stays, and so
do the pointers.
-/
import Mathlib.Data.List.Induction
import Micheline.Proofs.Value.Enrich
import Micheline.Proofs.Value.Parts
import Micheline.Proofs.Value.Writes

namespace Micheline

open Sorted

namespace Ty

/-! ### The last update for a key -/

/-- Whether an update is for a key. -/
def isFor (key : Ty) (k : Val) (u : BigMapUpdate) : Bool :=
  match key.settleBytes u.key with
  | .ok k' => isEqual (key.compare k' k)
  | .error _ => false

/-- The last of the updates for a key of the big map behind a pointer. -/
def lastUpdate? (key : Ty) (pointer : Int) (k : Val) (updates : List BigMapUpdate) :
    Option BigMapUpdate :=
  updates.reverse.find? fun u => u.pointer == pointer && key.isFor k u

/-- How the entry at a key came about: by the update that was the last one for the key or, if
there was none, by the entry before. -/
def Overwritten (key value : Ty) (k : Val) (before after : List (Val × Val)) :
    Option BigMapUpdate → Prop
  | none => entryAt? key.compare k after = entryAt? key.compare k before
  | some u =>
    match u.value with
    | some data => ∃ v, value.settleBytes data = .ok v
        ∧ (entryAt? key.compare k after).map (·.2) = some v
    | none => entryAt? key.compare k after = none

section Update

variable {key value : Ty} {updates : List BigMapUpdate} {pairs done : List (Val × Val)}

/-- What an update brings in: its key and its new value, if it has one. -/
def settleUpdate (key value : Ty) (u : BigMapUpdate) : Except Error (Val × Option Val) := do
  let k ← key.settleBytes u.key
  match u.value with
  | some data => return (k, some (← value.settleBytes data))
  | none => return (k, none)

/-- **An update settles what it brings in and writes it.** -/
theorem applyUpdate_eq (u : BigMapUpdate) :
    applyUpdate key value pairs u = settleUpdate key value u >>= write key.compare pairs := by
  rw [applyUpdate, settleUpdate]
  cases key.settleBytes u.key with
  | error e => rfl
  | ok k =>
    cases u.value with
    | none => rfl
    | some data => cases hv : value.settleBytes data <;> simp [hv] <;> rfl

theorem settleBytes_of_settleUpdate {u : BigMapUpdate} {w : Val × Option Val}
    (h : settleUpdate key value u = .ok w) : key.settleBytes u.key = .ok w.1 := by
  obtain ⟨k, hk, h⟩ := bind_eq_ok_iff.1 h
  rw [hk]
  split at h
  next data _ =>
    obtain ⟨v, -, h⟩ := bind_eq_ok_iff.1 h
    rw [← pure_eq_ok_iff.1 h]
  next => rw [← pure_eq_ok_iff.1 h]

theorem isFor_of_settleUpdate {u : BigMapUpdate} {w : Val × Option Val}
    (h : settleUpdate key value u = .ok w) (k : Val) :
    key.isFor k u = isEqual (key.compare w.1 k) := by
  rw [isFor, settleBytes_of_settleUpdate h]

/-- An update settles exactly if its key does, and its value if it has one. -/
theorem exists_settleUpdate_iff {u : BigMapUpdate} :
    (∃ w, settleUpdate key value u = .ok w)
      ↔ (∃ k, key.settleBytes u.key = .ok k)
        ∧ ∀ data, u.value = some data → ∃ v, value.settleBytes data = .ok v := by
  constructor
  · rintro ⟨w, hw⟩
    refine ⟨⟨w.1, settleBytes_of_settleUpdate hw⟩, fun data hdata => ?_⟩
    obtain ⟨k, -, hw⟩ := bind_eq_ok_iff.1 hw
    rw [hdata] at hw
    obtain ⟨v, hv, -⟩ := bind_eq_ok_iff.1 hw
    exact ⟨v, hv⟩
  · rintro ⟨⟨k, hk⟩, hvalue⟩
    cases hdata : u.value with
    | none => exact ⟨(k, none), by rw [settleUpdate, hk, hdata]; rfl⟩
    | some data =>
      obtain ⟨v, hv⟩ := hvalue data hdata
      refine ⟨(k, some v), ?_⟩
      rw [settleUpdate, hk, hdata]
      show (do return (k, some (← value.settleBytes data))) = _
      rw [hv]
      rfl

/-- What an update brings in overwrites what stands at its key. -/
theorem overwritten_of_settleUpdate {u : BigMapUpdate} {w : Val × Option Val} {k : Val}
    (hw : settleUpdate key value u = .ok w)
    (h : entryAt? key.compare k done = overwrite (entryAt? key.compare k pairs) w) :
    Overwritten key value k pairs done (some u) := by
  obtain ⟨k', -, hw⟩ := bind_eq_ok_iff.1 hw
  rw [Overwritten]
  split at hw
  next data _ =>
    obtain ⟨v, hv, hw⟩ := bind_eq_ok_iff.1 hw
    obtain rfl := pure_eq_ok_iff.1 hw
    exact ⟨v, hv, by rw [h]; rfl⟩
  next =>
    obtain rfl := pure_eq_ok_iff.1 hw
    exact h

/-- **One update** overwrites what stands at its key. -/
theorem overwritten_applyUpdate {u : BigMapUpdate} (hp : Ascending key.compare (pairs.map (·.1)))
    (h : applyUpdate key value pairs u = .ok done) (k : Val) :
    Overwritten key value k pairs done (if key.isFor k u then some u else none) := by
  rw [applyUpdate_eq, bind_eq_ok_iff] at h
  obtain ⟨w, hw, hdone⟩ := h
  have hentry := entryAt?_of_write (isOrder_compare key) hp hdone k
  rw [isFor_of_settleUpdate hw]
  split
  next hkey =>
    rw [if_pos hkey] at hentry
    exact overwritten_of_settleUpdate hw hentry
  next hkey =>
    rw [if_neg hkey] at hentry
    exact hentry

/-- An update that is not for the key leaves what stands there. -/
theorem Overwritten.trans_none {k : Val} {made : List (Val × Val)} {u? : Option BigMapUpdate}
    (h : Overwritten key value k pairs made u?) (hnone : Overwritten key value k made done none) :
    Overwritten key value k pairs done u? := by
  have hentry : entryAt? key.compare k done = entryAt? key.compare k made := hnone
  rcases u? with - | u
  · exact hentry.trans h
  · rw [Overwritten] at h ⊢
    rwa [hentry]

/-- **Updates one after another**: the last one for a key overwrites what stands at it. -/
theorem overwritten_foldlM (hp : HoldsEntries true key value pairs)
    (h : updates.foldlM (applyUpdate key value) pairs = .ok done) (k : Val) :
    Overwritten key value k pairs done (updates.reverse.find? (key.isFor k)) := by
  -- From the end: the last update for the key decides, and the ones before it do not matter.
  induction updates using List.reverseRecOn generalizing done with
  | nil =>
    obtain rfl := Except.ok.inj h
    rfl
  | append_singleton updates u ih =>
    rw [List.foldlM_append, bind_eq_ok_iff] at h
    obtain ⟨made, hmade, h⟩ := h
    rw [List.foldlM_cons, bind_eq_ok_iff] at h
    obtain ⟨done', hdone, h⟩ := h
    obtain rfl := Except.ok.inj h
    have hlast := overwritten_applyUpdate (holdsEntries_foldlM hp hmade).ascending hdone k
    rw [List.reverse_append, List.reverse_singleton, List.singleton_append, List.find?_cons]
    cases hfor : key.isFor k u with
    | true =>
      rw [hfor] at hlast
      exact hlast
    | false =>
      rw [hfor] at hlast
      exact (ih hmade).trans_none hlast

end Update

/-! ### The big maps of a value -/

/-- The big maps with a pointer in a value, from left to right.  Keys and what is in big maps
are not looked into. -/
def bigMaps : Ty → Val → List Typed
  | .bigMap i key value, .entries (some pointer) pairs =>
    [⟨.bigMap i key value, .entries (some pointer) pairs⟩]
  | .pair _ left right, .pair a b _ => bigMaps left a ++ bigMaps right b
  | .or _ left _, .left a => bigMaps left a
  | .or _ _ right, .right b => bigMaps right b
  | .option _ inner, .some a => bigMaps inner a
  | .list _ elem, .items values => values.flatMap (bigMaps elem)
  | .set _ elem, .items values => values.flatMap (bigMaps elem)
  | .map _ _ value, .entries _ pairs => pairs.flatMap fun p => bigMaps value p.2
  | .ticket _ _ paired, v => bigMaps paired v
  | _, _ => []

/-- A value with nothing in these big maps. -/
def unloaded : Ty → Val → Val
  | .bigMap _ _ _, .entries (some pointer) _ => .entries (some pointer) []
  | .pair _ left right, .pair a b comb => .pair (unloaded left a) (unloaded right b) comb
  | .or _ left _, .left a => .left (unloaded left a)
  | .or _ _ right, .right b => .right (unloaded right b)
  | .option _ inner, .some a => .some (unloaded inner a)
  | .list _ elem, .items values => .items (values.map (unloaded elem))
  | .set _ elem, .items values => .items (values.map (unloaded elem))
  | .map _ _ value, .entries pointer pairs =>
    .entries pointer (pairs.map fun p => (p.1, unloaded value p.2))
  | .ticket _ _ paired, v => unloaded paired v
  | _, v => v

end Ty

namespace Typed

/-- The pointer of a big map that has one. -/
def pointer? : Typed → Option Int
  | ⟨.bigMap _ _ _, .entries pointer _⟩ => pointer
  | _ => none

/-- The values right under a value but for keys and for what is in a big map. -/
def openParts : Typed → List Typed
  | ⟨.map _ _ value, .entries _ pairs⟩ => pairs.map fun p => ⟨value, p.2⟩
  | ⟨.bigMap _ _ _, _⟩ => []
  | t => t.parts

/-- A part at any depth that stands in no key and in no big map, or the whole. -/
def IsOpenPart (p t : Typed) : Prop :=
  Relation.ReflTransGen (fun whole part => part ∈ whole.openParts) t p

theorem IsOpenPart.of_mem {b p t : Typed} (hp : p ∈ t.openParts) (h : b.IsOpenPart p) :
    b.IsOpenPart t :=
  Relation.ReflTransGen.head hp h

/-- Open parts are parts: all but keys and the entries of big maps. -/
theorem mem_parts_of_mem_openParts {p t : Typed} (h : p ∈ t.openParts) : p ∈ t.parts := by
  rw [openParts.eq_def] at h
  split at h
  next =>
    obtain ⟨q, hq, rfl⟩ := List.mem_map.1 h
    exact List.mem_flatMap.2 ⟨q, hq, List.mem_cons_of_mem _ List.mem_cons_self⟩
  next => cases h
  next => exact h

theorem IsOpenPart.isPart {p t : Typed} (h : p.IsOpenPart t) : p.IsPart t :=
  Relation.ReflTransGen.mono (fun _ _ => mem_parts_of_mem_openParts) t p h

/-- A big map that has a pointer. -/
theorem exists_of_pointer? {b : Typed} (h : b.pointer?.isSome = true) :
    ∃ i key value pointer pairs, b = ⟨.bigMap i key value, .entries (some pointer) pairs⟩ := by
  obtain ⟨ty, v⟩ := b
  cases ty with
  | bigMap i key value =>
    cases v with
    | entries pointer pairs =>
      obtain ⟨pointer, rfl⟩ := Option.isSome_iff_exists.1 h
      exact ⟨i, key, value, pointer, pairs, rfl⟩
    | _ => cases h
  | _ => cases h

end Typed

namespace Ty

theorem mem_bigMaps_of_pointer? {b : Typed} (h : b.pointer?.isSome = true) :
    b ∈ b.ty.bigMaps b.val := by
  obtain ⟨i, key, value, pointer, pairs, rfl⟩ := Typed.exists_of_pointer? h
  exact List.mem_singleton_self _

/-- The big maps of a part are big maps of the whole. -/
theorem mem_bigMaps_of_mem_openParts {b p t : Typed} (hp : p ∈ t.openParts)
    (h : b ∈ p.ty.bigMaps p.val) : b ∈ t.ty.bigMaps t.val := by
  obtain ⟨ty, v⟩ := t
  cases ty with
  | pair i left right =>
    cases v with
    | pair x y comb =>
      rcases List.mem_pair.1 hp with rfl | rfl
      · exact List.mem_append_left _ h
      · exact List.mem_append_right _ h
    | _ => cases hp
  | or i left right =>
    cases v with
    | left x =>
      obtain rfl := List.mem_singleton.1 hp
      exact h
    | right y =>
      obtain rfl := List.mem_singleton.1 hp
      exact h
    | _ => cases hp
  | option i inner =>
    cases v with
    | some x =>
      obtain rfl := List.mem_singleton.1 hp
      exact h
    | _ => cases hp
  | list i elem | set i elem =>
    cases v with
    | items values =>
      obtain ⟨v, hv, rfl⟩ := List.mem_map.1 hp
      exact List.mem_flatMap.2 ⟨v, hv, h⟩
    | _ => cases hp
  | map i key value =>
    cases v with
    | entries pointer pairs =>
      obtain ⟨q, hq, rfl⟩ := List.mem_map.1 hp
      exact List.mem_flatMap.2 ⟨q, hq, h⟩
    | _ => cases hp
  | ticket i content paired =>
    obtain rfl := List.mem_singleton.1 hp
    exact h
  | _ => cases hp

/-- The big maps that are listed have pointers and are open parts. -/
theorem isOpenPart_of_mem_bigMaps {ty : Ty} {v : Val} {b : Typed} (h : b ∈ ty.bigMaps v) :
    b.pointer?.isSome = true ∧ b.IsOpenPart ⟨ty, v⟩ := by
  -- Keys hold no big maps, and a big map's own entries are not looked at.
  induction ty generalizing v with
  | bigMap i key value =>
    cases v with
    | entries pointer pairs =>
      rcases pointer with - | pointer
      · cases h
      · obtain rfl := List.mem_singleton.1 h
        exact ⟨rfl, .refl⟩
    | _ => cases h
  | pair i left right ihl ihr =>
    cases v with
    | pair x y comb =>
      rcases List.mem_append.1 h with h | h
      · exact (ihl h).imp_right (.of_mem List.mem_cons_self)
      · exact (ihr h).imp_right (.of_mem (List.mem_cons_of_mem _ List.mem_cons_self))
    | _ => cases h
  | or i left right ihl ihr =>
    cases v with
    | left x => exact (ihl h).imp_right (.of_mem List.mem_cons_self)
    | right y => exact (ihr h).imp_right (.of_mem List.mem_cons_self)
    | _ => cases h
  | option i inner ih =>
    cases v with
    | some x => exact (ih h).imp_right (.of_mem List.mem_cons_self)
    | _ => cases h
  | list i elem ih | set i elem ih =>
    cases v with
    | items values =>
      obtain ⟨v, hv, h⟩ := List.mem_flatMap.1 h
      exact (ih h).imp_right (.of_mem (List.mem_map_of_mem hv))
    | _ => cases h
  | map i key value _ ih =>
    cases v with
    | entries pointer pairs =>
      obtain ⟨q, hq, h⟩ := List.mem_flatMap.1 h
      exact (ih h).imp_right (.of_mem (List.mem_map.2 ⟨q, hq, rfl⟩))
    | _ => cases h
  | ticket i content paired _ ih => exact (ih h).imp_right (.of_mem List.mem_cons_self)
  | _ => cases h

/-- **The big maps that are listed** are all those with a pointer but for the ones that stand in
a key or in a big map. -/
theorem mem_bigMaps_iff {ty : Ty} {v : Val} {b : Typed} :
    b ∈ ty.bigMaps v ↔ b.pointer?.isSome = true ∧ b.IsOpenPart ⟨ty, v⟩ := by
  refine ⟨isOpenPart_of_mem_bigMaps, fun ⟨hpointer, hpart⟩ => ?_⟩
  have h : ∀ t : Typed, b.IsOpenPart t → b ∈ t.ty.bigMaps t.val := fun t ht => by
    induction ht using Relation.ReflTransGen.head_induction_on with
    | refl => exact mem_bigMaps_of_pointer? hpointer
    | head hp _ ih => exact mem_bigMaps_of_mem_openParts hp ih
  exact h _ hpart

/-- The big maps in a value that is held are held. -/
theorem holds_of_mem_bigMaps {ty : Ty} {v : Val} {b : Typed} (hv : ty.Holds true v)
    (hb : b ∈ ty.bigMaps v) : b.ty.Holds true b.val :=
  Typed.holds_of_isPart hv (isOpenPart_of_mem_bigMaps hb).2.isPart

/-- The pointers are those of the big maps that are listed. -/
theorem pointers_eq (ty : Ty) (v : Val) :
    ty.pointers v = (ty.bigMaps v).filterMap (·.pointer?) := by
  induction ty generalizing v with
  | bigMap i key value =>
    cases v with
    | entries pointer pairs => cases pointer <;> rfl
    | _ => rfl
  | pair i left right ihl ihr =>
    cases v with
    | pair x y comb => rw [pointers, bigMaps, List.filterMap_append, ihl, ihr]
    | _ => rfl
  | or i left right ihl ihr =>
    cases v with
    | left x => exact ihl x
    | right y => exact ihr y
    | _ => rfl
  | option i inner ih =>
    cases v with
    | some x => exact ih x
    | _ => rfl
  | list i elem ih | set i elem ih =>
    cases v with
    | items values =>
      rw [pointers, bigMaps, List.filterMap_flatMap]
      exact List.flatMap_congr fun v _ => ih v
    | _ => rfl
  | map i key value _ ih =>
    cases v with
    | entries pointer pairs =>
      rw [pointers, bigMaps, List.filterMap_flatMap]
      exact List.flatMap_congr fun p _ => ih p.2
    | _ => rfl
  | ticket i content paired _ ih => exact ih v
  | _ => rfl

/-! ### Updates of a value -/

/-- A big map with a pointer before and after updates: the keys ascend, and each has what the
last update for it says. -/
inductive IsUpdated (updates : List BigMapUpdate) : Typed → Typed → Prop
  | intro {i key value pointer pairs done} (ascending : Ascending key.compare (done.map (·.1)))
      (entries : ∀ k,
        Overwritten key value k pairs done (key.lastUpdate? pointer k updates)) :
      IsUpdated updates ⟨.bigMap i key value, .entries (some pointer) pairs⟩
        ⟨.bigMap i key value, .entries (some pointer) done⟩

/-- How many updates there are for each of several big maps, all in all. -/
def updateCount (updates : List BigMapUpdate) (pointers : List Int) : Nat :=
  total (pointers.map fun pointer => updates.countP fun u => u.pointer == pointer)

/-- What updates make of a value: each of its big maps is updated, nothing else changes, and
the updates of all big maps are counted. -/
structure Enriched (updates : List BigMapUpdate) (ty : Ty) (v v' : Val) (count : Nat) : Prop where
  bigMaps : List.Forall₂ (IsUpdated updates) (ty.bigMaps v) (ty.bigMaps v')
  unloaded : ty.unloaded v' = ty.unloaded v
  count : count = updateCount updates (ty.pointers v)

section Enriched

variable {updates : List BigMapUpdate}

theorem total_append (as bs : List Nat) : total (as ++ bs) = total as + total bs := by
  induction as with
  | nil => exact (Nat.zero_add _).symm
  | cons a as ih =>
    show a + total (as ++ bs) = a + total as + total bs
    rw [ih, Nat.add_assoc]

theorem updateCount_append (ps qs : List Int) :
    updateCount updates (ps ++ qs) = updateCount updates ps + updateCount updates qs := by
  rw [updateCount, List.map_append, total_append]
  rfl

theorem IsUpdated.pointer?_eq {b b' : Typed} (h : IsUpdated updates b b') :
    b'.pointer? = b.pointer? := by
  cases h
  rfl

/-- Updates keep the pointers. -/
theorem filterMap_pointer?_eq {bs bs' : List Typed} (h : List.Forall₂ (IsUpdated updates) bs bs') :
    bs'.filterMap (·.pointer?) = bs.filterMap (·.pointer?) := by
  induction h with
  | nil => rfl
  | cons hb _ ih => rw [List.filterMap_cons, List.filterMap_cons, hb.pointer?_eq, ih]

/-- A value without big maps. -/
theorem Enriched.refl {ty : Ty} {v : Val} (hmaps : ty.bigMaps v = []) :
    Enriched updates ty v v 0 where
  bigMaps := hmaps ▸ .nil
  unloaded := rfl
  count := by
    rw [pointers_eq, hmaps]
    rfl

/-- **A big map with a pointer.** -/
theorem enriched_bigMap {i : Info} {key value : Ty} {pointer : Int} {pairs : List (Val × Val)}
    {v' : Val} {count : Nat} (hp : HoldsEntries true key value pairs)
    (h : (bigMap i key value).enrich updates (.entries (some pointer) pairs) = .ok (v', count)) :
    Enriched updates (.bigMap i key value) (.entries (some pointer) pairs) v' count := by
  obtain ⟨done, hdone, rfl, rfl⟩ := enrich_bigMap_iff.1 h
  refine ⟨.cons (.intro (holdsEntries_foldlM hp hdone).ascending fun k => ?_) .nil, rfl, ?_⟩
  · have hover := overwritten_foldlM hp hdone k
    rw [lastUpdate?]
    simpa only [← List.filter_reverse, List.find?_filter, Bool.decide_and, Bool.decide_eq_true]
      using hover
  · exact List.countP_eq_length_filter.symm

/-- The parts of a collection, each after updates. -/
theorem enriched_all {α β : Type} {ty : Ty} {f : α → Val} {g : β → Val} {n : β → Nat}
    {as : List α} {bs : List β}
    (h : List.Forall₂ (fun a b => Enriched updates ty (f a) (g b) (n b)) as bs) :
    List.Forall₂ (IsUpdated updates) (as.flatMap fun a => ty.bigMaps (f a))
        (bs.flatMap fun b => ty.bigMaps (g b))
      ∧ bs.map (fun b => ty.unloaded (g b)) = as.map (fun a => ty.unloaded (f a))
      ∧ total (bs.map n) = updateCount updates (as.flatMap fun a => ty.pointers (f a)) := by
  induction h with
  | nil => exact ⟨.nil, rfl, rfl⟩
  | @cons a b as bs hab _ ih =>
    obtain ⟨hmaps, hrest, hcount⟩ := ih
    refine ⟨List.rel_append hab.bigMaps hmaps, ?_, ?_⟩
    · rw [List.map_cons, List.map_cons, hab.unloaded, hrest]
    · rw [List.flatMap_cons, updateCount_append, ← hcount, ← hab.count]
      rfl

/-- Items are updated one by one, and their counts are added. -/
theorem enriched_items {elem : Ty} {values : List Val} {done : List (Val × Nat)}
    (h : ∀ v ∈ values, ∀ d, elem.enrich updates v = .ok d → Enriched updates elem v d.1 d.2)
    (hdone : values.mapM (elem.enrich updates) = .ok done) :
    List.Forall₂ (IsUpdated updates) (values.flatMap elem.bigMaps)
        ((done.map (·.1)).flatMap elem.bigMaps)
      ∧ (done.map (·.1)).map elem.unloaded = values.map elem.unloaded
      ∧ total (done.map (·.2)) = updateCount updates (values.flatMap elem.pointers) := by
  rw [List.flatMap_map, List.map_map]
  exact enriched_all (f := id) (forall₂_of_mapM hdone h)

theorem map_entries_eq {f : Val → Val} {ps qs : List (Val × Val)}
    (hkeys : qs.map (·.1) = ps.map (·.1))
    (hvalues : qs.map (fun p => f p.2) = ps.map fun p => f p.2) :
    qs.map (fun p => (p.1, f p.2)) = ps.map fun p => (p.1, f p.2) := by
  rw [← List.zip_map', ← List.zip_map', hkeys, hvalues]

/-- **Updates reach the big maps of a value and nothing else.** -/
theorem enriched_of_enrich {ty : Ty} {v v' : Val} {count : Nat} (hv : Holds true ty v)
    (h : ty.enrich updates v = .ok (v', count)) : Enriched updates ty v v' count := by
  induction hv generalizing v' count with
  | pair _ _ _ iha ihb =>
    obtain ⟨⟨a', m⟩, ha, h⟩ := bind_eq_ok_iff.1 h
    obtain ⟨⟨b', n⟩, hb, h⟩ := bind_eq_ok_iff.1 h
    obtain ⟨rfl, rfl⟩ := Prod.mk.inj (pure_eq_ok_iff.1 h)
    have hea := iha ha
    have heb := ihb hb
    refine ⟨List.rel_append hea.bigMaps heb.bigMaps, ?_, ?_⟩
    · rw [Ty.unloaded, hea.unloaded, heb.unloaded]
      rfl
    · rw [Ty.pointers, updateCount_append, ← hea.count, ← heb.count]
  | left _ ih =>
    obtain ⟨⟨a', m⟩, ha, h⟩ := bind_eq_ok_iff.1 h
    obtain ⟨rfl, rfl⟩ := Prod.mk.inj (pure_eq_ok_iff.1 h)
    exact ⟨(ih ha).bigMaps, congrArg Val.left (ih ha).unloaded, (ih ha).count⟩
  | right _ ih =>
    obtain ⟨⟨b', m⟩, hb, h⟩ := bind_eq_ok_iff.1 h
    obtain ⟨rfl, rfl⟩ := Prod.mk.inj (pure_eq_ok_iff.1 h)
    exact ⟨(ih hb).bigMaps, congrArg Val.right (ih hb).unloaded, (ih hb).count⟩
  | some _ ih =>
    obtain ⟨⟨a', m⟩, ha, h⟩ := bind_eq_ok_iff.1 h
    obtain ⟨rfl, rfl⟩ := Prod.mk.inj (pure_eq_ok_iff.1 h)
    exact ⟨(ih ha).bigMaps, congrArg Val.some (ih ha).unloaded, (ih ha).count⟩
  | list _ ih | set _ _ ih =>
    obtain ⟨done, hdone, h⟩ := bind_eq_ok_iff.1 h
    obtain ⟨rfl, rfl⟩ := Prod.mk.inj (pure_eq_ok_iff.1 h)
    obtain ⟨hmaps, hrest, hcount⟩ := enriched_items (fun v hv d hd => ih v hv hd) hdone
    exact ⟨hmaps, congrArg Val.items hrest, hcount⟩
  | @map i key value pairs _ _ _ _ ihv =>
    -- the step of the map is the one that has a name
    have h : (pairs.mapM (enrichEntry updates value) >>= _) = Except.ok (v', count) := h
    obtain ⟨done, hdone, h⟩ := bind_eq_ok_iff.1 h
    obtain ⟨rfl, rfl⟩ := Prod.mk.inj (pure_eq_ok_iff.1 h)
    have hall : List.Forall₂ (fun p d => Enriched updates value p.2 d.1.2 d.2) pairs done :=
      forall₂_of_mapM hdone fun p hp d hd => ihv p hp (enrichEntry_eq_ok_iff.1 hd).2
    obtain ⟨hmaps, hrest, hcount⟩ := enriched_all hall
    refine ⟨?_, ?_, hcount⟩
    · show List.Forall₂ _ (pairs.flatMap _) ((done.map (·.1)).flatMap _)
      rw [List.flatMap_map]
      exact hmaps
    · have hkeys := map_fst_of_enrichEntry hdone
      have hvalues : (done.map (·.1)).map (fun p => value.unloaded p.2)
          = pairs.map fun p => value.unloaded p.2 := by
        rw [List.map_map]
        exact hrest
      exact congrArg (Val.entries _) (map_entries_eq hkeys hvalues)
  | pointer _ => exact enriched_bigMap (holdsEntries_nil _ _ _) h
  | loaded _ _ hk hv hs => exact enriched_bigMap ⟨hk, hv, hs⟩ h
  | ticket _ ih => exact ⟨(ih h).bigMaps, (ih h).unloaded, (ih h).count⟩
  | _ =>
    -- the other values have no big map with a pointer in them
    obtain ⟨rfl, rfl⟩ := Prod.mk.inj (Except.ok.inj h)
    exact .refl rfl

end Enriched

end Ty

end Micheline
