/-
Micheline/Proofs/Value/Beside.lean

A value is presented beside an earlier one exactly if its node and its slots can be
(`Ty.diff_eq_ok_iff`); later proofs use this and never open `Ty.diff`.
-/
import Micheline.Proofs.Value.Children

namespace Micheline.Ty

open Slot

variable {loaded : Bool} {ty : Ty} {v w : Val} {m : Presentation}

/-- A value that has no pieces is presented without children. -/
theorem children_of_isLeaf (hty : ty.isLeaf = true) {p : Presentation} (h : ty.present v = .ok p) :
    p.children = [] := by
  cases ty with
  | unit i =>
    obtain rfl := Except.ok.inj h
    rfl
  | never i | operation i => cases h
  | bool i | scalar i kind | contract i param | lambda i param result | saplingState i memo
    | saplingTransaction i deprecated memo | constant i hash => exact children_of_shown h
  | _ => cases hty

/-- A leaf beside an earlier one. -/
theorem diff_of_isLeaf (hty : ty.isLeaf = true) :
    ty.diff v ty w = (do
      let shown ← ty.present v
      let after ← ty.shown v
      let before ← ty.shown w
      if after = before then return shown
      else return { shown with change := some .update, before := before.map Shown.toJson }) := by
  cases ty with
  | unit | never | operation | bool | scalar | contract | lambda | saplingState
    | saplingTransaction | constant =>
    rw [diff, if_neg fun h => h rfl]
    all_goals intros; contradiction
  | _ => cases hty

theorem shell_of_isLeaf (hty : ty.isLeaf = true) : ty.shell v = ty.present v := by
  cases ty with
  | unit | never | operation | bool | scalar | contract | lambda | saplingState
    | saplingTransaction | constant => rfl
  | _ => cases hty

theorem shellDiff_of_isLeaf (hty : ty.isLeaf = true) :
    ty.shellDiff v w = ty.diff v ty w := by
  rw [diff_of_isLeaf hty]
  cases ty with
  | unit | never | operation | bool | scalar | contract | lambda | saplingState
    | saplingTransaction | constant => rfl
  | _ => cases hty

/-- A leaf is there beside an earlier one exactly if both are shown. -/
theorem shellDiff_leaf_eq_ok_iff {d : Presentation} (hty : ty.isLeaf = true) :
    ty.shellDiff v w = .ok d ↔ ∃ shown after before, ty.shell v = .ok shown
      ∧ ty.shown v = .ok after ∧ ty.shown w = .ok before
      ∧ d = if after = before then shown
        else { shown with change := some .update, before := before.map Shown.toJson } := by
  rw [shellDiff_of_isLeaf hty, diff_of_isLeaf hty, shell_of_isLeaf hty, bind_eq_ok_iff]
  constructor
  · rintro ⟨shown, hshown, h⟩
    obtain ⟨after, hafter, h⟩ := bind_eq_ok_iff.1 h
    obtain ⟨before, hbefore, h⟩ := bind_eq_ok_iff.1 h
    refine ⟨shown, after, before, hshown, hafter, hbefore, ?_⟩
    split at h
    next heq =>
      rw [if_pos heq]
      exact (pure_eq_ok_iff.1 h).symm
    next hne =>
      rw [if_neg hne]
      exact (pure_eq_ok_iff.1 h).symm
  · rintro ⟨shown, after, before, hshown, hafter, hbefore, rfl⟩
    refine ⟨shown, hshown, bind_eq_ok_iff.2 ⟨after, hafter, bind_eq_ok_iff.2 ⟨before, hbefore, ?_⟩⟩⟩
    split <;> rfl

/-- A value without parts is presented as its node. -/
theorem diff_leaf_eq_ok_iff (hty : ty.isLeaf = true) :
    ty.diff v ty w = .ok m ↔ ∃ s ss cs, ty.shellDiff v w = .ok s ∧ ty.slots v w = .ok ss
      ∧ ss.mapM Slot.child = .ok cs ∧ m = { s with children := cs } := by
  have hchildren : ∀ m, ty.diff v ty w = .ok m → m.children = [] := by
    intro m hm
    rw [diff_of_isLeaf hty] at hm
    obtain ⟨shown, hshown, hm⟩ := bind_eq_ok_iff.1 hm
    obtain ⟨after, -, hm⟩ := bind_eq_ok_iff.1 hm
    obtain ⟨before, -, hm⟩ := bind_eq_ok_iff.1 hm
    split at hm
    next =>
      obtain rfl := pure_eq_ok_iff.1 hm
      exact children_of_isLeaf hty hshown
    next =>
      obtain rfl := pure_eq_ok_iff.1 hm
      show shown.children = []
      exact children_of_isLeaf hty hshown
  rw [shellDiff_of_isLeaf hty, slots_of_isLeaf hty]
  constructor
  · intro h
    -- A node without children is itself with its children replaced by none.
    obtain ⟨prim, kind, name, before, change, value, children⟩ := m
    obtain rfl : children = [] := hchildren _ h
    exact ⟨_, [], [], h, rfl, rfl, rfl⟩
  · rintro ⟨⟨prim, kind, name, before, change, value, children⟩, ss, cs, hs, hss, hcs, rfl⟩
    obtain rfl := Except.ok.inj hss
    obtain rfl : [] = cs := Except.ok.inj hcs
    obtain rfl : children = [] := hchildren _ hs
    exact hs

/-- A node with the children that its slots make. -/
theorem node_eq_ok_iff {s : Presentation} {children : Except Error (List Presentation)}
    (hs : ty.shellDiff v w = .ok s)
    (h : ∀ cs, children = .ok cs ↔ ∃ ss, ty.slots v w = .ok ss ∧ ss.mapM Slot.child = .ok cs) :
    (do return { s with children := ← children }) = Except.ok m
      ↔ ∃ s ss cs, ty.shellDiff v w = .ok s ∧ ty.slots v w = .ok ss
        ∧ ss.mapM Slot.child = .ok cs ∧ m = { s with children := cs } := by
  constructor
  · intro hm
    obtain ⟨cs, hcs, hm⟩ := bind_eq_ok_iff.1 hm
    obtain ⟨ss, hss, hchildren⟩ := (h cs).1 hcs
    exact ⟨s, ss, cs, hs, hss, hchildren, (pure_eq_ok_iff.1 hm).symm⟩
  · rintro ⟨s', ss, cs, hs', hss, hcs, rfl⟩
    obtain rfl := Except.ok.inj (hs.symm.trans hs')
    exact bind_eq_ok_iff.2 ⟨cs, (h cs).2 ⟨ss, hss, hcs⟩, rfl⟩

theorem mapM_slots_eq_ok_iff {ss : List Slot} {cs : List Presentation}
    (hss : ty.slots v w = .ok ss) : ss.mapM Slot.child = .ok cs
      ↔ ∃ ss, ty.slots v w = .ok ss ∧ ss.mapM Slot.child = .ok cs := by
  constructor
  · intro h
    exact ⟨ss, hss, h⟩
  · rintro ⟨ss', hss', h⟩
    obtain rfl := Except.ok.inj (hss.symm.trans hss')
    exact h

/-- A node with the child of its only slot. -/
theorem single_eq_ok_iff {s : Presentation} {slot : Slot} (hs : ty.shellDiff v w = .ok s)
    (hss : ty.slots v w = .ok [slot]) :
    (do return { s with children := [← slot.child] }) = Except.ok m
      ↔ ∃ s ss cs, ty.shellDiff v w = .ok s ∧ ty.slots v w = .ok ss
        ∧ ss.mapM Slot.child = .ok cs ∧ m = { s with children := cs } := by
  have hrun : (do return { s with children := [← slot.child] })
      = (do return { s with children := ← [slot].mapM Slot.child }) := by
    rw [List.mapM_cons]
    rcases slot.child with e | child <;> rfl
  rw [hrun]
  exact node_eq_ok_iff hs fun cs => mapM_slots_eq_ok_iff hss

/-- A pair is presented member by member. -/
theorem diff_pair_eq_ok_iff {i : Info} {l r : Ty} (hv : (pair i l r).Holds loaded v)
    (hw : (pair i l r).Holds loaded w) :
    (pair i l r).diff v (pair i l r) w = .ok m ↔ ∃ s ss cs,
      (pair i l r).shellDiff v w = .ok s ∧ (pair i l r).slots v w = .ok ss
        ∧ ss.mapM Slot.child = .ok cs ∧ m = { s with children := cs } := by
  have hlength : (Typed.members (pair i l r) v).length
      = (Typed.members (pair i l r) w).length := by
    have hmap := (map_ty_members hv).trans (map_ty_members hw).symm
    simpa using congrArg List.length hmap
  rw [diff, if_neg fun h => h rfl, if_neg fun h => h hlength]
  refine node_eq_ok_iff rfl fun cs => ?_
  -- that each member is smaller than the pair plays no part in what is done
  have hrun : (((Typed.members (pair i l r) v).attach.zip (Typed.members (pair i l r) w)).mapM
      fun p => p.1.1.diff p.2)
        = (align ((pair i l r).pieces v) ((pair i l r).pieces w)).mapM Slot.child := by
    have hzip : (Typed.members (pair i l r) v).zip (Typed.members (pair i l r) w)
        = ((Typed.members (pair i l r) v).attach.zip (Typed.members (pair i l r) w)).map
          (Prod.map Subtype.val id) := by
      rw [← List.zip_map_left, List.attach_map_subtype_val]
    rw [pieces, pieces, mapM_align_members hlength, hzip, List.mapM_map]
    rfl
  rw [← mapM_slots_eq_ok_iff rfl, ← hrun]
  rfl

/-- A choice is presented as its active leaf: beside the earlier one if that is the same leaf,
and else before what is gone. -/
theorem diff_or_eq_ok_iff {i : Info} {l r : Ty} (hv : (or i l r).Holds loaded v)
    (hw : (or i l r).Holds loaded w) :
    (or i l r).diff v (or i l r) w = .ok m ↔ ∃ s ss cs,
      (or i l r).shellDiff v w = .ok s ∧ (or i l r).slots v w = .ok ss
        ∧ ss.mapM Slot.child = .ok cs ∧ m = { s with children := cs } := by
  obtain ⟨path, x, hx⟩ := exists_activeLeaf? hv
  obtain ⟨path', y, hy⟩ := exists_activeLeaf? hw
  -- The same leaf on both sides is compared; of two leaves, one is gone and one is fresh.
  have hslots : (or i l r).slots v w
      = if path = path' then .ok [.both ⟨x, .own⟩ ⟨y, .own⟩]
        else .ok [.fresh ⟨x, .own⟩, .gone ⟨y, .own⟩] := by
    rw [slots, hx, hy]
  rw [diff, if_neg fun h => h rfl]
  split
  next p x' q y' hx' hy' =>
    obtain ⟨rfl, rfl⟩ := Prod.mk.inj (Option.some.inj (hx.symm.trans hx'))
    obtain ⟨rfl, rfl⟩ := Prod.mk.inj (Option.some.inj (hy.symm.trans hy'))
    by_cases hpath : path = path'
    · rw [if_pos hpath] at hslots ⊢
      rw [← single_eq_ok_iff rfl hslots]
      show (x.diff y >>= _) = _ ↔ ((x.diff y >>= _) >>= _) = _
      rcases x.diff y with e | child <;> exact Iff.rfl
    · rw [if_neg hpath] at hslots ⊢
      rw [← node_eq_ok_iff rfl fun cs => mapM_slots_eq_ok_iff hslots]
      rw [List.mapM_cons, List.mapM_cons, List.mapM_nil]
      show (x.ty.created x.val >>= _) = _
        ↔ (((x.ty.created x.val >>= _) >>= fun _ => ((y.ty.deleted y.val >>= _) >>= _) >>= _) >>= _)
          = _
      rcases x.ty.created x.val with e | first
      · exact Iff.rfl
      · rcases y.ty.deleted y.val with e | second <;> exact Iff.rfl
  next h => exact (h _ _ _ _ hx hy).elim

/-- An option is presented with what it holds, what it held, or both beside each other. -/
theorem diff_option_eq_ok_iff {i : Info} {t : Ty} (hv : (option i t).Holds loaded v)
    (hw : (option i t).Holds loaded w) :
    (option i t).diff v (option i t) w = .ok m ↔ ∃ s ss cs,
      (option i t).shellDiff v w = .ok s ∧ (option i t).slots v w = .ok ss
        ∧ ss.mapM Slot.child = .ok cs ∧ m = { s with children := cs } := by
  cases hv with
  | none =>
    cases hw with
    | none =>
      rw [diff, if_neg fun h => h rfl]
      · have hslots : (option i t).slots .none .none = .ok [] := rfl
        have hnil (cs : List Presentation) : (Except.ok [] : Except Error _) = .ok cs
            ↔ ∃ ss, (option i t).slots .none .none = .ok ss ∧ ss.mapM Slot.child = .ok cs :=
          mapM_slots_eq_ok_iff hslots
        exact node_eq_ok_iff rfl hnil
      all_goals intros; contradiction
    | @some _ _ b _ =>
      have hslots : (option i t).slots .none (.some b) = .ok [.gone ⟨⟨t, b⟩, .own⟩] := rfl
      rw [← single_eq_ok_iff rfl hslots, diff, if_neg fun h => h rfl]
      · show (t.deleted b >>= _) = _ ↔ ((t.deleted b >>= _) >>= _) = _
        rcases t.deleted b with e | child <;> exact Iff.rfl
      all_goals intros; contradiction
  | @some _ _ a _ =>
    cases hw with
    | none =>
      have hslots : (option i t).slots (.some a) .none = .ok [.fresh ⟨⟨t, a⟩, .own⟩] := rfl
      rw [← single_eq_ok_iff rfl hslots, diff, if_neg fun h => h rfl]
      · show (t.created a >>= _) = _ ↔ ((t.created a >>= _) >>= _) = _
        rcases t.created a with e | child <;> exact Iff.rfl
      all_goals intros; contradiction
    | @some _ _ b _ =>
      have hslots : (option i t).slots (.some a) (.some b)
          = .ok [.both ⟨⟨t, a⟩, .own⟩ ⟨⟨t, b⟩, .own⟩] := rfl
      rw [← single_eq_ok_iff rfl hslots, diff, if_neg fun h => h rfl]
      show (t.diff a t b >>= _) = _ ↔ ((t.diff a t b >>= _) >>= _) = _
      rcases t.diff a t b with e | child <;> exact Iff.rfl

/-- A big map beside an earlier one; only the mark on the node speaks of pointers. -/
theorem diff_bigMap_eq_ok_iff {i : Info} {key value : Ty} {pointer oldPointer : Option Int}
    {new old : List (Val × Val)} :
    (bigMap i key value).diff (.entries pointer new) (bigMap i key value) (.entries oldPointer old)
        = .ok m
      ↔ ∃ s ss cs, (bigMap i key value).shellDiff (.entries pointer new) (.entries oldPointer old)
            = .ok s
          ∧ (bigMap i key value).slots (.entries pointer new) (.entries oldPointer old) = .ok ss
          ∧ ss.mapM Slot.child = .ok cs ∧ m = { s with children := cs } := by
  -- The mark for a new pointer is put on the node together with the children; it does not look
  -- at them.
  have hmarked (shown : Presentation) (cs : List Presentation) :
      (if pointer ≠ oldPointer ∧ shown.value.isSome then
        pure { shown with
          children := cs
          change := some .update
          before := oldPointer.map fun id => .str (Decimal.ofInt id) }
      else pure { shown with children := cs } : Except Error Presentation)
        = .ok { markPointer pointer oldPointer { shown with children := [] } with
          children := cs } := by
    rw [markPointer]
    split <;> rfl
  rw [diff, if_neg fun h => h rfl, shellDiff, slots, bind_eq_ok_iff]
  constructor
  · rintro ⟨shown, hshown, h⟩
    obtain ⟨cs, hcs, h⟩ := bind_eq_ok_iff.1 h
    obtain ⟨ss, hss, hchildren⟩ := diffEntries_eq_ok_iff.1 hcs
    refine ⟨_, ss, cs, bind_eq_ok_iff.2 ⟨shown, hshown, rfl⟩, hss, hchildren, ?_⟩
    exact Except.ok.inj (h.symm.trans (hmarked shown cs))
  · rintro ⟨s, ss, cs, hs, hss, hchildren, rfl⟩
    obtain ⟨shown, hshown, hs⟩ := bind_eq_ok_iff.1 hs
    obtain rfl := pure_eq_ok_iff.1 hs
    refine ⟨shown, hshown, bind_eq_ok_iff.2 ⟨cs, diffEntries_eq_ok_iff.2 ⟨ss, hss, hchildren⟩, ?_⟩⟩
    exact hmarked shown cs

/-- **A value is presented beside an earlier one as its node with its slots.** -/
theorem diff_eq_ok_iff (hv : ty.Holds loaded v) (hw : ty.Holds loaded w) :
    ty.diff v ty w = .ok m ↔ ∃ s ss cs, ty.shellDiff v w = .ok s ∧ ty.slots v w = .ok ss
      ∧ ss.mapM Slot.child = .ok cs ∧ m = { s with children := cs } := by
  induction ty generalizing v w m with
  | pair i l r => exact diff_pair_eq_ok_iff hv hw
  | or i l r => exact diff_or_eq_ok_iff hv hw
  | option i t => exact diff_option_eq_ok_iff hv hw
  | list i elem =>
    cases hv with
    | list _ =>
      cases hw with
      | list _ =>
        rw [diff, if_neg fun h => h rfl]
        refine node_eq_ok_iff rfl fun cs => ?_
        rw [← mapM_align_items]
        exact mapM_slots_eq_ok_iff rfl
  | set i elem =>
    cases hv with
    | set _ _ =>
      cases hw with
      | set _ _ =>
        rw [diff, if_neg fun h => h rfl]
        exact node_eq_ok_iff rfl fun cs => diffElements_eq_ok_iff
  | map i key value =>
    cases hv with
    | map _ _ _ =>
      cases hw with
      | map _ _ _ =>
        rw [diff, if_neg fun h => h rfl]
        exact node_eq_ok_iff rfl fun cs => diffEntries_eq_ok_iff
  | bigMap i key value =>
    obtain ⟨pointer, new, rfl⟩ := exists_entries_of_holds hv
    obtain ⟨oldPointer, old, rfl⟩ := exists_entries_of_holds hw
    exact diff_bigMap_eq_ok_iff
  | ticket i content paired _ ih =>
    cases hv with
    | ticket hv =>
      cases hw with
      | ticket hw =>
        rw [diff, if_neg fun h => h rfl, slots, bind_eq_ok_iff]
        constructor
        · rintro ⟨inner, hinner, hm⟩
          obtain rfl := pure_eq_ok_iff.1 hm
          obtain ⟨s, ss, cs, hs, hss, hcs, rfl⟩ := (ih hv hw).1 hinner
          exact ⟨_, ss, cs, bind_eq_ok_iff.2 ⟨s, hs, rfl⟩, hss, hcs, rfl⟩
        · rintro ⟨s, ss, cs, hs, hss, hcs, rfl⟩
          obtain ⟨s', hs', hs⟩ := bind_eq_ok_iff.1 hs
          obtain rfl := pure_eq_ok_iff.1 hs
          exact ⟨_, (ih hv hw).2 ⟨s', ss, cs, hs', hss, hcs, rfl⟩, rfl⟩
  | unit i => exact diff_leaf_eq_ok_iff rfl
  | never i | operation i => cases hv
  | bool i | scalar i kind | contract i param | lambda i param result | saplingState i memo
    | saplingTransaction i deprecated memo | constant i hash =>
    exact diff_leaf_eq_ok_iff rfl

end Micheline.Ty
