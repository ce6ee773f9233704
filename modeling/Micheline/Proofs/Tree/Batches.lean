/-
Micheline/Proofs/Tree/Batches.lean

Batches of updates of the big maps of a tree.  A batch may be cut into two that are taken one
after the other, and it may be put in another order as long as the updates for each key stay in
theirs (`Tree.enrich_batches`).

Cutting takes no hypothesis.  Another order needs keys that can be compared: which updates are
for one key is told by comparing, and so is where an entry stands.  Then nothing but bytes that
are not of the types can make a batch fail.
-/
import Micheline.Proofs.Tree.Updates
import Micheline.Proofs.Value.Batches

namespace Micheline

namespace Tree

variable {updates us us' : List BigMapUpdate}

/-! ### The values of the roots -/

/-- The values of roots after updates, and how many of the updates were for one of them. -/
def enrichRoots (updates : List BigMapUpdate) (roots : List Ty) (values : List Val) :
    Except Error (List Val × Nat) := do
  let done ← (List.zipWith Typed.mk roots values).mapM fun r => r.ty.enrich updates r.val
  return (done.map (·.1), Ty.total (done.map (·.2)))

/-- Updates of roots are those of the first and those of the others. -/
theorem under_root {root : Ty} {roots : List Ty} :
    Under (fun p => p.1 :: p.2) (both (root.enrich updates) (enrichRoots updates roots))
      (enrichRoots updates (root :: roots)) := by
  refine .of_both fun v values => ?_
  rw [enrichRoots, enrichRoots, List.zipWith_cons_cons, List.mapM_cons]
  generalize (List.zipWith Typed.mk roots values).mapM
    (fun r => r.ty.enrich updates r.val) = rest
  rcases root.enrich updates v with e | d
  · rfl
  · rcases rest with e | done <;> rfl

/-- Updates of a tree are those of its roots, with the types around them. -/
theorem under_values {roots : List Ty} :
    Under (fun values => Tree.mk roots (some values)) (enrichRoots updates roots)
      (enrich updates) := by
  refine .of_return fun values => ?_
  rw [enrich, settled_eq rfl, enrichRoots]
  show ((List.zipWith Typed.mk roots values).mapM (fun r => r.ty.enrich updates r.val) >>= _) = _
  generalize (List.zipWith Typed.mk roots values).mapM
    (fun r => r.ty.enrich updates r.val) = done?
  rcases done? with e | done <;> rfl

end Tree

/-- What is kept holds of the values of roots if it holds of the big maps in them. -/
theorem IsCompositional.enrichRoots {P : ∀ α : Type, CountedStep α → α → Prop}
    (hP : IsCompositional P) {roots : List Ty} {values : List Val}
    (h : ∀ b ∈ (List.zipWith Typed.mk roots values).flatMap fun r => r.ty.bigMaps r.val,
      P Val (fun us => b.ty.enrich us) b.val) :
    P (List Val) (fun us => Tree.enrichRoots us roots) values := by
  induction roots generalizing values with
  | nil => exact hP.still (fun _ => rfl) fun _ => rfl
  | cons root roots ih =>
    cases values with
    | nil => exact hP.still (fun _ => rfl) fun _ => rfl
    | cons v values =>
      obtain ⟨hroot, hroots⟩ := List.forall_mem_append.1 h
      exact hP.under (a := (v, values)) (fun _ => Tree.under_root)
        (hP.both (hP.enrich hroot) (ih hroots))

namespace Tree

/-- **What is kept holds of a tree with values** if it holds of the big maps in it. -/
theorem of_bigMaps {P : ∀ α : Type, CountedStep α → α → Prop} (hP : IsCompositional P) {t : Tree}
    (ht : ∃ values, t.values = some values)
    (h : ∀ b ∈ t.bigMaps, P Val (fun us => b.ty.enrich us) b.val) : P Tree enrich t := by
  obtain ⟨roots, values⟩ := t
  obtain ⟨values, rfl⟩ := ht
  exact hP.under (a := values) (fun _ => under_values) (hP.enrichRoots h)

variable {t : Tree}

/-- Two batches one after the other do what they do as one. -/
theorem inTurn_enrich (us us' : List BigMapUpdate) (t : Tree) :
    InTurn (enrich us) (enrich us') (enrich (us ++ us')) t := by
  cases hvalues : t.values with
  | some values =>
    exact of_bigMaps (isCompositional_inTurn us us') ⟨values, hvalues⟩ fun b hb =>
      Typed.inTurn_enrich us us' (mem_bigMaps_iff.1 hb).1
  | none =>
    -- a tree without values takes no updates
    have hfail (us : List BigMapUpdate) (d : Tree × Nat) : t.enrich us ≠ .ok d := by
      rw [enrich, settled, isSettled, hvalues]
      intro h
      cases h
    exact inTurn_of_fails (hfail us) (hfail (us ++ us'))

theorem Holds.of_mem_bigMaps (ht : t.Holds true) {b : Typed} (hb : b ∈ t.bigMaps) :
    b.ty.Holds true b.val := by
  obtain ⟨r, hr, hb⟩ := List.mem_flatMap.1 hb
  exact Ty.holds_of_mem_bigMaps (ht.forall_current.2 r hr) hb

/-- A batch in another order. -/
theorem enrich_of_perm (ht : t.Holds true) (hkeys : ∀ b ∈ t.bigMaps, b.KeysDecode us)
    (hperm : us.Perm us') (horder : ∀ b ∈ t.bigMaps, b.KeepsOrder us us') (d : Tree × Nat) :
    t.enrich us = .ok d ↔ t.enrich us' = .ok d := by
  refine of_bigMaps (isCompositional_same us us') (ht.imp fun _ h => h.1) (fun b hb d => ?_) d
  have hheld := ht.of_mem_bigMaps hb
  have hpointer := (mem_bigMaps_iff.1 hb).1
  exact ⟨Typed.enrich_of_perm hheld hpointer (hkeys b hb) hperm (horder b hb),
    Typed.enrich_of_perm hheld hpointer ((hkeys b hb).of_perm hperm) hperm.symm
      ((horder b hb).symm hperm)⟩

/-- The count is that of the updates for the pointers in the tree. -/
theorem count_of_enrich (ht : t.Holds true) {t' : Tree} {count : Nat}
    (h : t.enrich updates = .ok (t', count)) : count = Ty.updateCount updates t.pointers := by
  obtain ⟨values, hvalues, hheld⟩ := ht
  obtain ⟨roots, hroots, h⟩ := bind_eq_ok_iff.1 h
  rw [settled_eq hvalues] at hroots
  obtain rfl := Except.ok.inj hroots
  obtain ⟨done, hdone, h⟩ := bind_eq_ok_iff.1 h
  obtain ⟨-, rfl⟩ := Prod.mk.inj (pure_eq_ok_iff.1 h)
  rw [pointers, current_eq hvalues]
  exact (updated_of_mapM_enrich hheld hdone).2.2

/-- A batch succeeds if what it brings in is of the types. -/
theorem exists_enrich (ht : t.Holds true) (hkeys : ∀ b ∈ t.bigMaps, b.KeysDecode us)
    (hsettle : ∀ b ∈ t.bigMaps, b.UpdatesSettle us) :
    ∃ t', t.enrich us = .ok (t', Ty.updateCount us t.pointers) := by
  obtain ⟨⟨t', count⟩, h⟩ :=
    of_bigMaps (isCompositional_succeeds us) (ht.imp fun _ h => h.1) fun b hb =>
      Typed.exists_enrich (ht.of_mem_bigMaps hb) (mem_bigMaps_iff.1 hb).1 (hkeys b hb)
        (hsettle b hb)
  exact ⟨t', count_of_enrich ht h ▸ h⟩

/-- **Batches of updates.**  A batch that is cut into two succeeds exactly if the two succeed one
after the other; then the tree is the same at the end, and the counts add up.  Where all keys
are of comparable types and decode, a batch of values of the types succeeds, and a batch in
another order makes the same tree with the same count, if for each big map the updates for one
key stay in their order. -/
theorem enrich_batches :
    (∀ (t t' : Tree) (us us' : List BigMapUpdate) (count : Nat),
      t.enrich (us ++ us') = .ok (t', count)
        ↔ ∃ u m m', t.enrich us = .ok (u, m) ∧ u.enrich us' = .ok (t', m') ∧ count = m + m')
      ∧ ∀ (t : Tree) (us : List BigMapUpdate), t.IsFilled → (∀ b ∈ t.bigMaps, b.KeysDecode us) →
        ((∀ b ∈ t.bigMaps, b.UpdatesSettle us) →
          ∃ t', t.enrich us = .ok (t', Ty.updateCount us t.pointers))
        ∧ ∀ us', us.Perm us' → (∀ b ∈ t.bigMaps, b.KeepsOrder us us') →
          ∀ t' count, t.enrich us = .ok (t', count) ↔ t.enrich us' = .ok (t', count) :=
  ⟨fun t t' us us' count => inTurn_enrich us us' t t' count, fun _ _ ht hkeys =>
    ⟨exists_enrich ht.holds hkeys, fun _ hperm horder t' count =>
      enrich_of_perm ht.holds hkeys hperm horder (t', count)⟩⟩

/-- The same point in time is written as a text and then as a number.  The removal of another one
may stand between them or before both. -/
theorem enrich_batches_moments :
    let key : Ty := .scalar ⟨1, 1, []⟩ .timestamp
    let ty : Ty := .bigMap ⟨0, 0, []⟩ key (.scalar ⟨2, 1, []⟩ .nat)
    let t : Tree := ⟨[ty], some [.entries (some 7) [(.literal (.int 5), .literal (.int 1))]]⟩
    let t' : Tree :=
      ⟨[ty], some [.entries (some 7) [(.literal (.string "100"), .literal (.int 3))]]⟩
    let text : BigMapUpdate := ⟨7, [1, 0, 0, 0, 3, 49, 48, 48], some [0, 2]⟩
    let number : BigMapUpdate := ⟨7, [0, 164, 1], some [0, 3]⟩
    let other : BigMapUpdate := ⟨7, [0, 5], none⟩
    t.IsFilled ∧ (∀ b ∈ t.bigMaps, b.KeysDecode [text, other, number])
      ∧ (∀ b ∈ t.bigMaps, b.UpdatesSettle [text, other, number])
      ∧ (∀ b ∈ t.bigMaps, b.KeepsOrder [text, other, number] [other, text, number])
      ∧ (∃ u, t.enrich [text, other, number] = .ok (u, 3))
      ∧ t.enrich [other, text, number] = .ok (t', 3)
      ∧ ∃ u m m', t.enrich [text] = .ok (u, m) ∧ u.enrich [other, number] = .ok (t', m')
        ∧ 3 = m + m' := by
  intro key ty t t' text number other
  have hempty : Tree.settle ⟨[ty], none⟩ [.int 7]
      = .ok ⟨[ty], some [.entries (some 7) []]⟩ := rfl
  have hloaded : Tree.enrich [⟨7, [0, 5], some [0, 1]⟩] ⟨[ty], some [.entries (some 7) []]⟩
      = .ok (t, 1) := rfl
  have ht : t.IsFilled := .enrich (.settle hempty) hloaded
  have htext : key.settleBytes text.key = .ok (.literal (.string "100")) := rfl
  have hnumber : key.settleBytes number.key = .ok (.literal (.int 100)) := rfl
  have hother : key.settleBytes other.key = .ok (.literal (.int 5)) := rfl
  have hkeys : ∀ b ∈ t.bigMaps, b.KeysDecode [text, other, number] := by
    have hdecodes (z : Int) : key.Decodes (.literal (.int z)) :=
      List.forall_mem_singleton.2 trivial
    refine List.forall_mem_singleton.2 ⟨rfl, List.forall_mem_singleton.2 (hdecodes 5), ?_⟩
    simp only [List.forall_mem_cons, htext, hother, hnumber, Except.ok.injEq]
    refine ⟨?_, ?_, ?_, nofun⟩ <;> rintro - k rfl
    · exact List.forall_mem_singleton.2 ⟨100, rfl⟩
    · exact hdecodes 5
    · exact hdecodes 100
  have hsettle : ∀ b ∈ t.bigMaps, b.UpdatesSettle [text, other, number] := by
    refine List.forall_mem_singleton.2 (List.forall_mem_cons.2 ⟨fun _ => ⟨⟨_, htext⟩, ?_⟩,
      List.forall_mem_cons.2 ⟨fun _ => ⟨⟨_, hother⟩, nofun⟩,
        List.forall_mem_singleton.2 fun _ => ⟨⟨_, hnumber⟩, ?_⟩⟩⟩)
    · rintro _ ⟨⟩
      exact ⟨.literal (.int 2), rfl⟩
    · rintro _ ⟨⟩
      exact ⟨.literal (.int 3), rfl⟩
  have horder : ∀ b ∈ t.bigMaps, b.KeepsOrder [text, other, number] [other, text, number] := by
    refine List.forall_mem_singleton.2 ?_
    show key.KeepsOrder [text, other, number] [other, text, number]
    simp only [Ty.KeepsOrder, List.forall_mem_cons, htext, hother, hnumber, Except.ok.injEq]
    refine ⟨?_, ?_, ?_, nofun⟩ <;> rintro k rfl <;> rfl
  obtain ⟨hcut, hbatch⟩ := enrich_batches
  obtain ⟨hsucceeds, hreorder⟩ := hbatch t [text, other, number] ht hkeys
  have hdone : t.enrich [text, other, number] = .ok (t', 3) := rfl
  exact ⟨ht, hkeys, hsettle, horder, hsucceeds hsettle,
    (hreorder _ (.swap other text [number]) horder t' 3).1 hdone,
    (hcut t t' [text] [other, number] 3).1 hdone⟩

end Tree

end Micheline
