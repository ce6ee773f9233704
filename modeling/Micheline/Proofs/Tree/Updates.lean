/-
Micheline/Proofs/Tree/Updates.lean

Updates of the big maps of a tree.  Of the updates for one pointer and one key the last one
counts; what no update is for stays, and the updates of each big map are counted
(`enrich_last_update`).

A big map that stands in another one is not reached (`enrich_last_update_nested`).
-/
import Micheline.Proofs.Tree.Reachable
import Micheline.Proofs.Value.Updates

namespace Micheline.Tree

/-- The big maps with a pointer in the values, from left to right, but for those in keys and in
other big maps. -/
def bigMaps (t : Tree) : List Typed :=
  t.current.flatMap fun r => r.ty.bigMaps r.val

/-- A tree with nothing in these big maps. -/
def unloaded (t : Tree) : Tree :=
  { t with values := t.values.map (List.zipWith Ty.unloaded t.roots) }

variable {t t' : Tree} {updates : List BigMapUpdate} {count : Nat}

/-- The big maps of a tree are those with a pointer that no key and no other big map holds. -/
theorem mem_bigMaps_iff {b : Typed} :
    b ∈ t.bigMaps ↔ b.pointer?.isSome = true ∧ ∃ r ∈ t.current, b.IsOpenPart r := by
  rw [bigMaps, List.mem_flatMap]
  constructor
  · rintro ⟨r, hr, hb⟩
    obtain ⟨hpointer, hpart⟩ := Ty.mem_bigMaps_iff.1 hb
    exact ⟨hpointer, r, hr, hpart⟩
  · rintro ⟨hpointer, r, hr, hpart⟩
    exact ⟨r, hr, Ty.mem_bigMaps_iff.2 ⟨hpointer, hpart⟩⟩

theorem pointers_eq (t : Tree) : t.pointers = t.bigMaps.filterMap (·.pointer?) := by
  rw [pointers, bigMaps, List.filterMap_flatMap]
  exact List.flatMap_congr fun r _ => Ty.pointers_eq r.ty r.val

/-- The roots after updates. -/
theorem updated_of_mapM_enrich {roots : List Ty} {values : List Val} {done : List (Val × Nat)}
    (hheld : List.Forall₂ (Ty.Holds true) roots values)
    (h : (List.zipWith Typed.mk roots values).mapM (fun r => r.ty.enrich updates r.val)
      = .ok done) :
    List.Forall₂ (Ty.IsUpdated updates)
        ((List.zipWith Typed.mk roots values).flatMap fun r => r.ty.bigMaps r.val)
        ((List.zipWith Typed.mk roots (done.map (·.1))).flatMap fun r => r.ty.bigMaps r.val)
      ∧ List.zipWith Ty.unloaded roots (done.map (·.1)) = List.zipWith Ty.unloaded roots values
      ∧ Ty.total (done.map (·.2)) = Ty.updateCount updates
        ((List.zipWith Typed.mk roots values).flatMap fun r => r.ty.pointers r.val) := by
  induction hheld generalizing done with
  | nil =>
    obtain rfl := Except.ok.inj h
    exact ⟨.nil, rfl, rfl⟩
  | cons hv _ ih =>
    rw [List.zipWith_cons_cons, List.mapM_cons, bind_eq_ok_iff] at h
    obtain ⟨⟨v', n⟩, hv', h⟩ := h
    obtain ⟨rest, hrest, h⟩ := bind_eq_ok_iff.1 h
    obtain rfl := pure_eq_ok_iff.1 h
    have hroot := Ty.enriched_of_enrich hv hv'
    obtain ⟨hmaps, hunloaded, hcount⟩ := ih hrest
    refine ⟨List.rel_append hroot.bigMaps hmaps, ?_, ?_⟩
    · rw [List.map_cons, List.zipWith_cons_cons, List.zipWith_cons_cons, hroot.unloaded, hunloaded]
    · rw [List.zipWith_cons_cons, List.flatMap_cons, Ty.updateCount_append, ← hcount,
        ← hroot.count]
      rfl

/-- **The last update for a key counts.**  The big maps of a tree with values are all those with a
pointer that stand in no key and in no other big map.  When updates succeed, each of them has
the entries that the last update for each key says, its keys ascend, and all else in the tree
is as it was, pointers included; the updates of each big map are counted.  When they fail, the
tree is as it was. -/
theorem enrich_last_update (ht : t.IsFilled) (updates : List BigMapUpdate) :
    (∀ b, b ∈ t.bigMaps ↔ b.pointer?.isSome = true ∧ ∃ r ∈ t.current, b.IsOpenPart r)
      ∧ (∀ t' count, t.enrich updates = .ok (t', count) →
        List.Forall₂ (Ty.IsUpdated updates) t.bigMaps t'.bigMaps
          ∧ t'.unloaded = t.unloaded
          ∧ t'.pointers = t.pointers
          ∧ count = Ty.updateCount updates t.pointers)
      ∧ ∀ e, t.enrich updates = .error e → t.step (.enrich updates) = t := by
  refine ⟨fun b => mem_bigMaps_iff, fun t' count h => ?_, fun e h => ?_⟩
  -- The pointers are read off the big maps, so that they stay follows from the first part.
  · obtain ⟨values, hvalues, hheld⟩ := ht.holds
    obtain ⟨roots, hroots, h⟩ := bind_eq_ok_iff.1 h
    rw [settled_eq hvalues] at hroots
    obtain rfl := Except.ok.inj hroots
    obtain ⟨done, hdone, h⟩ := bind_eq_ok_iff.1 h
    obtain ⟨rfl, rfl⟩ := Prod.mk.inj (pure_eq_ok_iff.1 h)
    obtain ⟨hmaps, hunloaded, hcount⟩ := updated_of_mapM_enrich hheld hdone
    rw [← current_eq hvalues] at hmaps hcount
    have hmaps : List.Forall₂ (Ty.IsUpdated updates) t.bigMaps
        (bigMaps { t with values := some (done.map (·.1)) }) := hmaps
    refine ⟨hmaps, ?_, ?_, hcount⟩
    · simp only [unloaded, hvalues, Option.map_some, hunloaded]
    · rw [pointers_eq, pointers_eq]
      exact Ty.filterMap_pointer?_eq hmaps
  · exact congrArg Prod.snd (outcome_enriching_of_error h)

/-- A key is written twice and another one is removed again; an update for another pointer is not
counted. -/
theorem enrich_last_update_twice :
    let nat : Ty := .scalar ⟨1, 1, []⟩ .nat
    let ty : Ty := .bigMap ⟨0, 0, []⟩ nat nat
    let t : Tree := ⟨[ty], some [.entries (some 7) []]⟩
    let pairs : List (Val × Val) := [(.literal (.int 1), .literal (.int 11))]
    let t' : Tree := ⟨[ty], some [.entries (some 7) pairs]⟩
    let updates : List BigMapUpdate := [⟨7, [0, 1], some [0, 10]⟩, ⟨7, [0, 2], some [0, 5]⟩,
      ⟨8, [0, 3], some [0, 3]⟩, ⟨7, [0, 1], some [0, 11]⟩, ⟨7, [0, 2], none⟩]
    t.IsFilled ∧ t.enrich updates = .ok (t', 4)
      ∧ List.Forall₂ (Ty.IsUpdated updates) t.bigMaps t'.bigMaps
      ∧ t'.unloaded = t.unloaded ∧ t'.pointers = t.pointers
      ∧ 4 = Ty.updateCount updates t.pointers := by
  intro nat ty t pairs t' updates
  have hsettle : Tree.settle ⟨[ty], none⟩ [.int 7] = .ok t := rfl
  have ht : t.IsFilled := .settle hsettle
  have henrich : t.enrich updates = .ok (t', 4) := rfl
  exact ⟨ht, henrich, (enrich_last_update ht updates).2.1 t' 4 henrich⟩

/-- A big map in a big map keeps its entries, though there is an update for its pointer: the last
one for the key 1 brings in a value, and there is nothing at the key afterwards. -/
theorem enrich_last_update_nested :
    let nat : Ty := .scalar ⟨3, 2, []⟩ .nat
    let inner : Ty := .bigMap ⟨2, 1, []⟩ nat nat
    let ty : Ty := .bigMap ⟨0, 0, []⟩ nat inner
    let v : Val := .entries none [(.literal (.int 0), .entries (some 5) [])]
    let t : Tree := ⟨[ty], some [v]⟩
    let u : BigMapUpdate := ⟨5, [0, 1], some [0, 10]⟩
    t.IsFilled ∧ t.enrich [u] = .ok (t, 0)
      ∧ (Typed.mk inner (.entries (some 5) [])).IsPart ⟨ty, v⟩
      ∧ nat.lastUpdate? 5 (.literal (.int 1)) [u] = some u
      ∧ Sorted.entryAt? nat.compare (.literal (.int 1)) ([] : List (Val × Val)) = none
      ∧ ¬Ty.Overwritten nat nat (.literal (.int 1)) [] []
        (nat.lastUpdate? 5 (.literal (.int 1)) [u]) := by
  intro nat inner ty v t u
  have hsettle : Tree.settle ⟨[ty], none⟩ [.seq [.app "Elt" [.int 0, .int 5]]] = .ok t := rfl
  have hlast : nat.lastUpdate? 5 (.literal (.int 1)) [u] = some u := rfl
  refine ⟨.settle hsettle, rfl, ?_, hlast, rfl, ?_⟩
  · exact Relation.ReflTransGen.single (List.mem_cons_of_mem _ List.mem_cons_self)
  · rw [hlast]
    rintro ⟨_, -, h⟩
    cases h

end Micheline.Tree
