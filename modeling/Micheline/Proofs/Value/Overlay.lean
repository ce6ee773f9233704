/-
Micheline/Proofs/Value/Overlay.lean

A presentation beside an earlier value is that of the value that is there now, with marks on
it and with what is gone put in (`Ty.diff_overlay`).  Without what is gone and without marks
it is the presentation of the value; what is gone is a child of the presentation of the
earlier value at the same place; and beside itself a value is presented without any mark, as
far as its keys and elements can be compared with themselves.
-/
import Micheline.Proofs.Value.Gone
import Micheline.Proofs.Value.Self

namespace Micheline.Ty

/-- **A presentation beside an earlier value lies over that of the value.**  Without the
children that are marked as deleted and without marks it is the presentation of the value.
The earlier value can be presented too, and every child that is marked as deleted, at any
depth, is without its marks a child of the node at the corresponding place there.  And if
everything that is kept in order can be compared with itself, a value that can be presented
is presented beside itself in the same way, without any change. -/
theorem diff_overlay {ty : Ty} {a b : Val} (ha : ty.Holds true a) (hb : ty.Holds true b) :
    (∀ m, ty.diff a ty b = .ok m →
      ty.present a = .ok m.current
        ∧ ∃ p, ty.present b = .ok p ∧ ∀ path m' c, m.at? path = some m' → c ∈ m'.children →
          c.change = some .delete →
            ∃ path' p', Corresponds m p ⟨ty, a⟩ ⟨ty, b⟩ path path' ∧ p.at? path' = some p'
              ∧ c.unmarked ∈ p'.children)
      ∧ ((∀ t : Typed, t.IsPart ⟨ty, a⟩ → t.SelfCompares) → ∀ p, ty.present a = .ok p →
        ty.diff a ty a = .ok p ∧ p.hasChanges = false) := by
  constructor
  · intro m hm
    refine ⟨(present_of_diff ha hb hm).1, ?_⟩
    obtain ⟨p, hp⟩ := exists_present_of_diff ha hb hm
    exact ⟨p, hp, fun path m' c hm' hc hdelete => exists_of_deleted ha hb hm hp hm' hc hdelete⟩
  · intro hself p hp
    exact ⟨diff_self ha hself hp, Presentation.hasChanges_of_isPlain p (isPlain_of_present ha hp)⟩

/-- A map that changed the value at 1, lost the key 2 and got the key 3. -/
theorem diff_overlay_map :
    let int : Ty := .scalar ⟨0, 0, []⟩ .int
    let ty : Ty := .map ⟨0, 0, []⟩ int int
    let entry (k v : Int) : Val × Val := (.literal (.int k), .literal (.int v))
    let a : Val := .entries none [entry 1 10, entry 3 30]
    let b : Val := .entries none [entry 1 11, entry 2 20]
    ∃ m p updated created gone, ty.diff a ty b = .ok m ∧ m.children = [updated, created, gone]
      ∧ updated.change = some .update ∧ created.change = some .create
      ∧ gone.change = some .delete ∧ ty.present a = .ok m.current ∧ ty.present b = .ok p
      ∧ gone.unmarked ∈ p.children ∧ ty.diff a ty a = .ok m.current
      ∧ m.current.hasChanges = false := by
  intro int ty entry a b
  have ha : ty.Holds true a := by
    have hsettle : ty.settle (.seq [.app "Elt" [.int 1, .int 10], .app "Elt" [.int 3, .int 30]])
        = .ok a := rfl
    exact (holds_of_settle hsettle).mono
  have hb : ty.Holds true b := by
    have hsettle : ty.settle (.seq [.app "Elt" [.int 1, .int 11], .app "Elt" [.int 2, .int 20]])
        = .ok b := rfl
    exact (holds_of_settle hsettle).mono
  have hself : ∀ t : Typed, t.IsPart ⟨ty, a⟩ → t.SelfCompares := by
    -- A map of numbers: it and the numbers in it are all its parts.
    intro t ht
    rcases Relation.ReflTransGen.cases_head ht with rfl | ⟨x, hx, ht⟩
    · intro p hp
      rcases List.mem_pair.1 hp with rfl | rfl <;> exact ⟨.eq, rfl⟩
    · -- keys and values have no parts
      obtain ⟨k, rfl⟩ : ∃ k, x = ⟨int, .literal (.int k)⟩ := by
        rcases List.mem_cons.1 hx with rfl | hx
        · exact ⟨_, rfl⟩
        rcases List.mem_cons.1 hx with rfl | hx
        · exact ⟨_, rfl⟩
        rcases List.mem_pair.1 hx with rfl | rfl <;> exact ⟨_, rfl⟩
      rcases Relation.ReflTransGen.cases_head ht with rfl | ⟨y, hy, -⟩
      · trivial
      · cases hy
  have hchanged : int.diff (.literal (.int 10)) int (.literal (.int 11)) = .ok
      { Presentation.ofTy int "int" with
        value := some (.str "10"), change := some .update, before := some (.str "11") } := by
    rw [diff_of_isLeaf rfl]
    rfl
  have hslots : ty.slots a b = .ok [
      .both (entryPiece int int (entry 1 10)) (entryPiece int int (entry 1 11)),
      .fresh (entryPiece int int (entry 3 30)), .gone (entryPiece int int (entry 2 20))] := rfl
  let node (name value : String) : Presentation :=
    { prim := "int", kind := "int", name := some name, value := some (.str value) }
  have hm : ty.diff a ty b = .ok { Presentation.ofTy ty "map" with
      children := [{ node "1" "10" with change := some .update, before := some (.str "11") },
        { node "3" "30" with change := some .create },
        { node "2" "20" with change := some .delete }] } := by
    refine (diff_eq_ok_iff ha hb).2 ⟨_, _, _, rfl, hslots, ?_, rfl⟩
    rw [List.mapM_cons]
    have hchild : Slot.child (.both (entryPiece int int (entry 1 10))
        (entryPiece int int (entry 1 11)))
          = .ok { node "1" "10" with change := some .update, before := some (.str "11") } :=
      bind_eq_ok_iff.2 ⟨_, hchanged, rfl⟩
    rw [hchild]
    rfl
  obtain ⟨hover, hbeside⟩ := diff_overlay ha hb
  obtain ⟨hcurrent, p, hp, hgone⟩ := hover _ hm
  obtain ⟨hsame, hnone⟩ := hbeside hself _ hcurrent
  obtain ⟨path', p', hplace, hp', hmem⟩ := hgone [] _ _ rfl
    (List.mem_cons_of_mem _ (List.mem_cons_of_mem _ List.mem_cons_self)) rfl
  obtain rfl := hplace.eq_nil
  obtain rfl := Option.some.inj hp'
  exact ⟨_, p, _, _, _, hm, rfl, rfl, rfl, rfl, hcurrent, hp, hmem, hsame, hnone⟩

end Micheline.Ty
