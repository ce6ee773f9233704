/-
Micheline/Proofs/Pairing.lean

Two lists whose elements pair up (`PairsUp`): one of them can be brought into an order in which
each of its elements is related to the one at the same place in the other.

Relations that compose do so between lists too, and elements that are made of others pair up as
those do.
-/
import Mathlib.Data.List.Perm.Basic

namespace Micheline

/-- The elements of two lists pair up, whatever their order. -/
def PairsUp {α β : Type} (R : α → β → Prop) (xs : List α) (ys : List β) : Prop :=
  ∃ zs : List β, zs.Perm ys ∧ List.Forall₂ R xs zs

namespace PairsUp

variable {α β γ : Type} {R : α → β → Prop} {xs xs' : List α} {ys ys' : List β}

theorem of_forall₂ (h : List.Forall₂ R xs ys) : PairsUp R xs ys :=
  ⟨ys, .refl ys, h⟩

theorem of_perm {S : α → α → Prop} (hS : ∀ x, S x x) (h : xs.Perm xs') : PairsUp S xs xs' :=
  ⟨xs, h, List.forall₂_same.2 fun x _ => hS x⟩

theorem singleton_iff {x : α} {y : β} : PairsUp R [x] [y] ↔ R x y := by
  constructor
  · rintro ⟨zs, hperm, hzs⟩
    obtain rfl := List.perm_singleton.1 hperm
    exact (List.forall₂_cons.1 hzs).1
  · exact fun h => of_forall₂ (.cons h .nil)

theorem nil_left_iff : PairsUp R [] ys ↔ ys = [] := by
  constructor
  · rintro ⟨zs, hperm, hzs⟩
    obtain rfl := List.forall₂_nil_left_iff.1 hzs
    exact List.nil_perm.1 hperm
  · rintro rfl
    exact of_forall₂ .nil

theorem append (h : PairsUp R xs ys) (h' : PairsUp R xs' ys') :
    PairsUp R (xs ++ xs') (ys ++ ys') := by
  obtain ⟨zs, hperm, hzs⟩ := h
  obtain ⟨zs', hperm', hzs'⟩ := h'
  exact ⟨zs ++ zs', hperm.append hperm', List.rel_append hzs hzs'⟩

/-- The order of the first list does not matter either. -/
theorem perm_left (hperm : xs.Perm xs') (h : PairsUp R xs' ys) : PairsUp R xs ys := by
  obtain ⟨zs, hzs, h⟩ := h
  obtain ⟨ws, hws, hperm'⟩ := List.perm_comp_forall₂ hperm h
  exact ⟨ws, hperm'.trans hzs, hws⟩

/-- A pairing is one for every relation that holds of its pairs. -/
theorem mono {S : α → β → Prop} (h : PairsUp R xs ys) (hRS : ∀ x ∈ xs, ∀ y ∈ ys, R x y → S x y) :
    PairsUp S xs ys := by
  obtain ⟨zs, hperm, hzs⟩ := h
  refine ⟨zs, hperm, List.forall₂_iff_zip.2 ⟨hzs.length_eq, fun {x z} hmem => ?_⟩⟩
  obtain ⟨hx, hz⟩ := List.of_mem_zip hmem
  exact hRS x hx z (hperm.mem_iff.1 hz) (List.forall₂_zip hzs hmem)

/-- Pairings compose: who has a partner has that partner's partner. -/
theorem comp {S : β → γ → Prop} {T : α → γ → Prop} {zs : List γ}
    (hRST : ∀ x y z, R x y → S y z → T x z) (h : PairsUp R xs ys) (h' : PairsUp S ys zs) :
    PairsUp T xs zs := by
  obtain ⟨us, hus, h⟩ := h
  obtain ⟨vs, hvs, h'⟩ := perm_left hus h'
  refine ⟨vs, hvs, ?_⟩
  clear hus hvs
  induction h generalizing vs with
  | nil =>
    cases h'
    exact .nil
  | cons hxy _ ih =>
    obtain ⟨z, zs, hyz, hzs, rfl⟩ := List.forall₂_cons_left_iff.1 h'
    exact .cons (hRST _ _ _ hxy hyz) (ih _ hzs)

/-- Elements that are made of others pair up as those do. -/
theorem map_iff {δ : Type} {f : γ → α} {g : δ → β} {cs : List γ} {ds : List δ} :
    PairsUp R (cs.map f) (ds.map g) ↔ PairsUp (fun c d => R (f c) (g d)) cs ds := by
  constructor
  · rintro ⟨zs, hperm, hzs⟩
    -- the order that the images have, the elements can have too
    have hmade : List.Forall₂ (fun z d => z = g d) (ds.map g) ds :=
      List.forall₂_map_left_iff.2 (List.forall₂_same.2 fun _ _ => rfl)
    obtain ⟨es, hes, hperm'⟩ := List.perm_comp_forall₂ hperm hmade
    obtain rfl : es.map g = zs := by
      rw [← List.forall₂_eq_eq_eq, List.forall₂_map_left_iff]
      exact (hes.imp fun _ _ h => h.symm).flip
    exact ⟨es, hperm', List.forall₂_map_right_iff.1 (List.forall₂_map_left_iff.1 hzs)⟩
  · rintro ⟨es, hperm, hes⟩
    exact ⟨es.map g, hperm.map g, List.forall₂_map_left_iff.2 (List.forall₂_map_right_iff.2 hes)⟩

end PairsUp

end Micheline
