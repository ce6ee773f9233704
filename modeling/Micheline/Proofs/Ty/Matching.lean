/-
Micheline/Proofs/Ty/Matching.lean

Which types fit each other.  Two types fit if what writes the one, without annotations, can be
rearranged into what writes the other (`Ty.fits_iff_rearranged`): the ends of choices stand in
another order or are grouped in another way, at any number of places.

Ends are matched greedily, each with the first that is left.  Such a search can take an end that
another one needs, but never in a way that matters: whatever fits the two ends that compete for
it fits both or none of the others they fit (`foldlM_removeFirst?_eq_nil_iff`).  That is so because
fitting is an equivalence on the ends, which are smaller than the choice.
-/
import Micheline.Proofs.Ty.Written
import Micheline.Ty.Matching

namespace Micheline.Ty

open Node (Rearranged)

/-! ### The greedy search -/

section Search

variable {α β : Type}

/-- What was removed fulfils the condition, and the others remain. -/
theorem exists_of_removeFirst? {p : β → Bool} {ys rest : List β}
    (h : removeFirst? p ys = some rest) : ∃ y, p y = true ∧ ys.Perm (y :: rest) := by
  induction ys generalizing rest with
  | nil => cases h
  | cons y ys ih =>
    rw [removeFirst?] at h
    split at h
    next hy =>
      obtain rfl := Option.some.inj h
      exact ⟨y, hy, .refl _⟩
    next =>
      obtain ⟨more, hmore, rfl⟩ := Option.map_eq_some_iff.1 h
      obtain ⟨z, hz, hperm⟩ := ih hmore
      exact ⟨z, hz, (hperm.cons y).trans (.swap z y more)⟩

theorem exists_removeFirst? {p : β → Bool} {ys : List β} {y : β} (hy : y ∈ ys) (h : p y = true) :
    ∃ rest, removeFirst? p ys = some rest := by
  induction ys with
  | nil => cases hy
  | cons z ys ih =>
    rw [removeFirst?]
    split
    next => exact ⟨ys, rfl⟩
    next hz =>
      have hmem : y ∈ ys := (List.mem_cons.1 hy).resolve_left fun heq => hz (heq ▸ h)
      obtain ⟨rest, hrest⟩ := ih hmem
      exact ⟨z :: rest, by rw [hrest, Option.map_some]⟩

/-- A partner can be replaced by another one that all who have it can take. -/
theorem forall₂_exchange {R : α → β → Prop} {xs : List α} {us vs : List β} {y z : β}
    (hcross : ∀ x ∈ xs, R x y → R x z) (h : List.Forall₂ R xs (us ++ y :: vs)) :
    List.Forall₂ R xs (us ++ z :: vs) := by
  induction us generalizing xs with
  | nil =>
    obtain ⟨x, xs, hx, hxs, rfl⟩ := List.forall₂_cons_right_iff.1 h
    exact .cons (hcross x List.mem_cons_self hx) hxs
  | cons u us ih =>
    obtain ⟨x, xs, hx, hxs, rfl⟩ := List.forall₂_cons_right_iff.1 h
    exact .cons hx (ih (List.forall_mem_of_forall_mem_cons hcross) hxs)

/-- Where an element got a partner too early, the others pair up with what is left all the
same: whoever needs the partner takes the one that the element would have had. -/
theorem pairsUp_of_taken {R : α → β → Prop} {x : α} {xs : List α} {y : β} {rest : List β}
    (hcross : ∀ x' ∈ xs, ∀ z ∈ rest, R x z → R x' y → R x' z)
    (h : PairsUp R (x :: xs) (y :: rest)) : PairsUp R xs rest := by
  obtain ⟨all, hperm, hall⟩ := h
  obtain ⟨z, zs, hz, hzs, rfl⟩ := List.forall₂_cons_left_iff.1 hall
  rcases List.mem_cons.1 (hperm.mem_iff.2 List.mem_cons_self) with rfl | hmem
  · exact ⟨zs, hperm.cons_inv, hzs⟩
  · obtain ⟨us, vs, rfl⟩ := List.append_of_mem hmem
    have hmoved : (y :: (us ++ z :: vs)).Perm (z :: (us ++ y :: vs)) :=
      (List.perm_middle.cons y).trans ((List.Perm.swap z y _).trans (List.perm_middle.symm.cons z))
    have hrest : (us ++ z :: vs).Perm rest := (hmoved.trans hperm).cons_inv
    have hzrest : z ∈ rest := hrest.mem_iff.1 (List.mem_append_right us List.mem_cons_self)
    exact ⟨us ++ z :: vs, hrest, forall₂_exchange (fun x' hx' => hcross x' hx' z hzrest hz) hzs⟩

/-- **The greedy search misses no pairing**, if elements that compete for a partner can
exchange the ones they have. -/
theorem foldlM_removeFirst?_eq_nil_iff {p : α → β → Bool} {xs : List α} {ys : List β}
    (hcross : ∀ x ∈ xs, ∀ x' ∈ xs, ∀ y ∈ ys, ∀ z ∈ ys,
      p x y = true → p x z = true → p x' y = true → p x' z = true) :
    xs.foldlM (fun left x => removeFirst? (p x) left) ys = some []
      ↔ PairsUp (fun x y => p x y = true) xs ys := by
  induction xs generalizing ys with
  | nil =>
    rw [List.foldlM_nil, PairsUp.nil_left_iff]
    exact Option.some_inj
  | cons x xs ih =>
    rw [List.foldlM_cons]
    -- The search takes the first partner of `x`; a pairing may give `x` another one, which then
    -- changes places with the first.
    cases hfirst : removeFirst? (p x) ys with
    | none =>
      refine ⟨fun h => (by cases h), ?_⟩
      rintro ⟨all, hperm, hall⟩
      obtain ⟨z, zs, hz, -, rfl⟩ := List.forall₂_cons_left_iff.1 hall
      obtain ⟨rest, hrest⟩ := exists_removeFirst? (hperm.mem_iff.1 List.mem_cons_self) hz
      cases hfirst.symm.trans hrest
    | some rest =>
      obtain ⟨y, hy, hperm⟩ := exists_of_removeFirst? hfirst
      have hrest : ∀ z ∈ rest, z ∈ ys := fun z hz => hperm.mem_iff.2 (List.mem_cons_of_mem y hz)
      have hyys : y ∈ ys := hperm.mem_iff.2 List.mem_cons_self
      have hxs : ∀ x' ∈ xs, x' ∈ x :: xs := fun x' hx' => List.mem_cons_of_mem x hx'
      have hcross' : ∀ x ∈ xs, ∀ x' ∈ xs, ∀ y ∈ rest, ∀ z ∈ rest,
          p x y = true → p x z = true → p x' y = true → p x' z = true :=
        fun x hx x' hx' y hy z hz =>
          hcross x (hxs x hx) x' (hxs x' hx') y (hrest y hy) z (hrest z hz)
      refine (ih hcross').trans ⟨?_, ?_⟩
      · rintro ⟨zs, hzs, h⟩
        exact ⟨y :: zs, (hzs.cons y).trans hperm.symm, .cons hy h⟩
      · rintro ⟨zs, hzs, h⟩
        have htaken : PairsUp (fun x y => p x y = true) (x :: xs) (y :: rest) :=
          ⟨zs, hzs.trans hperm, h⟩
        exact pairsUp_of_taken (fun x' hx' z hz =>
          hcross x List.mem_cons_self x' (hxs x' hx') y hyys z (hrest z hz) hy) htaken

/-- Every element takes one partner. -/
theorem length_of_foldlM_removeFirst? {p : α → β → Bool} {xs : List α} {ys rest : List β}
    (h : xs.foldlM (fun left x => removeFirst? (p x) left) ys = some rest) :
    ys.length = xs.length + rest.length := by
  induction xs generalizing ys with
  | nil =>
    obtain rfl := Option.some.inj h
    exact (Nat.zero_add _).symm
  | cons x xs ih =>
    obtain ⟨left, hleft, h⟩ := Option.bind_eq_some_iff.1 h
    obtain ⟨y, -, hperm⟩ := exists_of_removeFirst? hleft
    have := hperm.length_eq
    have := ih h
    simp only [List.length_cons] at *
    omega

end Search

/-! ### One step into a type -/

theorem prim_eq_of_sameShape {a b : Ty} (h : a.sameShape b = true) : a.prim = b.prim := by
  rw [sameShape.eq_def] at h
  split at h
  all_goals simp_all [prim]

theorem prim_eq_of_fits {a b : Ty} (h : a.fits b = true) : a.prim = b.prim := by
  rw [fits.eq_def] at h
  split at h
  case h_11 => exact prim_eq_of_sameShape h
  all_goals rfl

/-- Types that are no choices fit if they have the same primitive and literals and their
children fit. -/
theorem fits_iff_of_ne_or {a b : Ty} (hor : a.prim ≠ .or) : a.fits b = true
    ↔ a.prim = b.prim ∧ a.operands = b.operands
      ∧ List.Forall₂ (fun x y => x.fits y = true) a.children b.children := by
  by_cases hprim : a.prim = b.prim
  · rw [and_iff_right hprim]
    -- One bundle of cases for each number of children that types have.
    have hb := exists_of_prim hprim.symm
    cases a
    case or => exact absurd rfl hor
    case unit | never | operation | bool | scalar =>
      obtain ⟨_, rfl⟩ := hb
      rw [fits.eq_def]
      simp [operands, children, sameShape]
    case contract | option | list | set | saplingState | constant =>
      obtain ⟨_, _, rfl⟩ := hb
      rw [fits.eq_def]
      simp [operands, children, sameShape]
    case pair | map | bigMap | lambda | ticket =>
      obtain ⟨_, _, _, rfl⟩ := hb
      rw [fits.eq_def]
      simp [operands, children]
    case saplingTransaction i deprecated memo =>
      cases deprecated
      all_goals
        obtain ⟨_, _, rfl⟩ := hb
        rw [fits.eq_def]
        simp [operands, children, sameShape]
  · exact ⟨fun h => absurd (prim_eq_of_fits h) hprim, fun h => absurd h.1 hprim⟩

/-- Choices fit if the greedy search finds a partner for every end. -/
theorem fits_or_iff {i j : Info} {left right left' right' : Ty} :
    (or i left right).fits (or j left' right') = true
      ↔ (or i left right).branches.foldlM (fun rest x => removeFirst? (fun y => x.fits y) rest)
        (or j left' right').branches = some [] := by
  have hattach (xs ys : List Ty) :
      xs.attach.foldlM (fun rest x => removeFirst? (fun y => x.1.fits y) rest) ys
        = xs.foldlM (fun rest x => removeFirst? (fun y => x.fits y) rest) ys := by
    conv_rhs => rw [← List.attach_map_subtype_val xs, List.foldlM_map]
  rw [fits, Bool.and_eq_true, beq_iff_eq, hattach]
  constructor
  · rintro ⟨hlength, h⟩
    obtain ⟨rest, hrest⟩ := Option.isSome_iff_exists.1 h
    have := length_of_foldlM_removeFirst? hrest
    obtain rfl : rest = [] := List.length_eq_zero_iff.1 (by omega)
    exact hrest
  · intro h
    exact ⟨(length_of_foldlM_removeFirst? h).symm, Option.isSome_iff_exists.2 ⟨[], h⟩⟩

/-! ### Rearranged types -/

/-- What writes a type that is no choice can be rearranged only in what writes its children. -/
theorem rearranged_iff_of_ne_or {a b : Ty} (hor : a.prim ≠ .or) :
    Rearranged a.node.bare b.node.bare
      ↔ a.prim = b.prim ∧ a.operands = b.operands
        ∧ List.Forall₂ (fun x y => Rearranged x.node.bare y.node.bare) a.children b.children := by
  have hne := bare_node_ne_choice hor
  rw [bare_node a] at hne ⊢
  rw [bare_node b, Node.app, Node.rearranged_prim_iff hne]
  constructor
  · rintro ⟨args, hargs, h⟩
    obtain ⟨hname, rfl, -⟩ := Node.prim.inj hargs
    have hprim : a.prim = b.prim := (Prim.name_inj.1 hname).symm
    have hlength : (b.operands.map Literal.node).length = (a.operands.map Literal.node).length := by
      rw [List.length_map, List.length_map, length_operands_congr hprim]
    have hoperands := List.forall₂_take_append _ _ _ h
    have hchildren := List.forall₂_drop_append _ _ _ h
    rw [hlength, List.take_left] at hoperands
    rw [hlength, List.drop_left] at hchildren
    refine ⟨hprim, ?_, List.forall₂_map_left_iff.1 (List.forall₂_map_right_iff.1 hchildren)⟩
    -- a literal is kept as it is
    rw [← List.forall₂_eq_eq_eq]
    refine (List.forall₂_map_left_iff.1 (List.forall₂_map_right_iff.1 hoperands)).imp ?_
    exact fun l l' hrun => (Literal.node_injective (Node.eq_of_rearranged_node hrun)).symm
  · rintro ⟨hprim, hoperands, hchildren⟩
    rw [← hprim, ← hoperands]
    exact ⟨_, rfl, List.rel_append (Node.forall₂_rearranged_self _)
      (List.forall₂_map_left_iff.2 (List.forall₂_map_right_iff.2 hchildren))⟩

/-- Branches are smaller than their choice. -/
theorem size_lt_of_mem_branches {ty b : Ty} (hor : ty.prim = .or) (h : b ∈ ty.branches) :
    b.size < ty.size := by
  obtain ⟨i, left, right, rfl⟩ := exists_of_prim hor
  simp only [size]
  rcases List.mem_append.1 h with h | h
  · have := size_le_of_mem_branches h
    omega
  · have := size_le_of_mem_branches h
    omega

/-- **Types fit if what writes the one can be rearranged into what writes the other.** -/
theorem fits_iff_rearranged (a b : Ty) :
    a.fits b = true ↔ Rearranged a.node.bare b.node.bare := by
  induction hsize : a.size using Nat.strongRecOn generalizing a b with
  | _ n ih =>
    have ih' {x : Ty} (hx : x.size < a.size) (y : Ty) :
        x.fits y = true ↔ Rearranged x.node.bare y.node.bare := ih x.size (hsize ▸ hx) x y rfl
    by_cases hor : a.prim = .or
    · have hends {x : Ty} (hx : x ∈ a.branches) (y : Ty) := ih' (size_lt_of_mem_branches hor hx) y
      by_cases hor' : b.prim = .or
      · rw [Node.rearranged_iff_ends, ends_bare_node, ends_bare_node, PairsUp.map_iff]
        have hpairs : PairsUp (fun x y => x.fits y = true) a.branches b.branches
            ↔ PairsUp (fun x y => Rearranged x.node.bare y.node.bare) a.branches b.branches :=
          ⟨fun h => h.mono fun x hx y _ => (hends hx y).1,
            fun h => h.mono fun x hx y _ => (hends hx y).2⟩
        rw [← hpairs]
        -- Branches that compete for a partner fit each other, since rearranging is an equivalence;
        -- this is what the greedy search needs.
        have hcross : ∀ x ∈ a.branches, ∀ x' ∈ a.branches, ∀ y ∈ b.branches, ∀ z ∈ b.branches,
            x.fits y = true → x.fits z = true → x'.fits y = true → x'.fits z = true := by
          intro x hx x' hx' y _ z _ hxy hxz hx'y
          rw [hends hx] at hxy hxz
          rw [hends hx'] at hx'y ⊢
          exact hx'y.trans (hxy.symm.trans hxz)
        obtain ⟨i, left, right, rfl⟩ := exists_of_prim hor
        obtain ⟨j, left', right', rfl⟩ := exists_of_prim hor'
        rw [fits_or_iff]
        exact foldlM_removeFirst?_eq_nil_iff hcross
      · refine iff_of_false (fun h => hor' (prim_eq_of_fits h ▸ hor)) fun h => hor' ?_
        exact ((rearranged_iff_of_ne_or hor').1 h.symm).1.trans hor
    · rw [fits_iff_of_ne_or hor, rearranged_iff_of_ne_or hor]
      refine and_congr_right fun _ => and_congr_right fun _ => ?_
      rw [List.forall₂_iff_zip, List.forall₂_iff_zip]
      refine and_congr_right fun _ => forall₂_congr fun x y => forall_congr' fun hxy => ?_
      exact ih' (size_lt_of_mem_children (List.of_mem_zip hxy).1) y

/-! ### An equivalence -/

/-- Types of the same shape are written in the same way, but for annotations. -/
theorem bare_node_eq_of_sameShape {a b : Ty} (h : a.sameShape b = true) :
    a.node.bare = b.node.bare := by
  fun_induction sameShape a b
  case case19 => cases h
  all_goals
    rw [bare_node, bare_node]
    simp_all [prim, operands, children]

theorem fits_refl (a : Ty) : a.fits a = true :=
  (fits_iff_rearranged a a).2 .refl

theorem fits_symm {a b : Ty} (h : a.fits b = true) : b.fits a = true :=
  (fits_iff_rearranged b a).2 ((fits_iff_rearranged a b).1 h).symm

theorem fits_trans {a b c : Ty} (hab : a.fits b = true) (hbc : b.fits c = true) :
    a.fits c = true :=
  (fits_iff_rearranged a c).2
    (((fits_iff_rearranged a b).1 hab).trans ((fits_iff_rearranged b c).1 hbc))

/-- Types with one expression up to annotations fit. -/
theorem fits_of_bare_node_eq {a b : Ty} (h : a.node.bare = b.node.bare) : a.fits b = true := by
  rw [fits_iff_rearranged, h]

theorem fits_of_sameShape {a b : Ty} (h : a.sameShape b = true) : a.fits b = true :=
  fits_of_bare_node_eq (bare_node_eq_of_sameShape h)

/-- **Whatever their order, the greedy search gives each end a partner, if there is a partner for
each.** -/
theorem greedy_eq_nil_iff {xs ys : List Ty} :
    xs.foldlM (fun rest x => removeFirst? (fun y => x.fits y) rest) ys = some []
      ↔ PairsUp (fun x y => x.fits y = true) xs ys :=
  foldlM_removeFirst?_eq_nil_iff fun _ _ _ _ _ _ _ _ hxy hxz hx'y =>
    fits_trans hx'y (fits_trans (fits_symm hxy) hxz)

/-- Types fit if their ends pair up. -/
theorem fits_iff_branches {a b : Ty} :
    a.fits b = true ↔ PairsUp (fun x y => x.fits y = true) a.branches b.branches := by
  rw [fits_iff_rearranged, Node.rearranged_iff_ends, ends_bare_node, ends_bare_node,
    PairsUp.map_iff]
  simp only [← fits_iff_rearranged]

/-- **Fitting is sameness up to the order of ends.**  Types fit if what writes the one, without
annotations, becomes what writes the other by exchanging the sides of choices and regrouping
choices, anywhere and any number of times.  That is an equivalence, which types of the same
shape are in.  Of two choices the ends pair up, and the search for partners, which gives each
end the first that is left, comes to an end with none left whenever they do. -/
theorem fits_equivalence :
    (∀ a b : Ty, a.fits b = true
      ↔ Relation.ReflTransGen Node.Rearranges a.node.bare b.node.bare)
    ∧ Equivalence (fun a b : Ty => a.fits b = true)
    ∧ (∀ a b : Ty, a.sameShape b = true → a.fits b = true)
    ∧ (∀ a b : Ty, a.fits b = true
      ↔ ∃ bs : List Ty, bs.Perm b.branches
        ∧ List.Forall₂ (fun x y => x.fits y = true) a.branches bs)
    ∧ (∀ xs ys : List Ty,
      xs.foldlM (fun rest x => removeFirst? (fun y => x.fits y) rest) ys = some []
        ↔ ∃ zs : List Ty, zs.Perm ys ∧ List.Forall₂ (fun x y => x.fits y = true) xs zs) :=
  ⟨fits_iff_rearranged, ⟨fits_refl, fits_symm, fits_trans⟩, fun _ _ => fits_of_sameShape,
    fun _ _ => fits_iff_branches, fun _ _ => greedy_eq_nil_iff⟩

/-- A choice in a list and one around it, each in another order. -/
theorem fits_swapped_twice :
    (or ⟨0, 0, []⟩ (list ⟨1, 1, []⟩ (or ⟨2, 2, []⟩ (unit ⟨3, 3, []⟩) (bool ⟨4, 3, []⟩)))
        (never ⟨5, 1, []⟩)).fits
      (or ⟨0, 0, []⟩ (never ⟨1, 1, []⟩)
        (list ⟨2, 1, []⟩ (or ⟨3, 2, []⟩ (bool ⟨4, 3, []⟩) (unit ⟨5, 3, []⟩)))) = true :=
  (fits_equivalence.1 _ _).2 (.head (.left (@Node.Rearranges.arg "list" [] [] [] _ _ .swap))
    (.single .swap))

end Micheline.Ty
