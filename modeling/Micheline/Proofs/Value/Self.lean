/-
Micheline/Proofs/Value/Self.lean

A value beside itself.  If the elements of its sets and the keys of its maps can be compared
with themselves, its slots hold each of its pieces beside itself, and it is presented as it is
(`Ty.diff_self`).
-/
import Micheline.Proofs.Value.Cover
import Micheline.Proofs.Value.Parts

namespace Micheline

/-- The elements of a set can be compared with themselves, and so can the keys of a map. -/
def Typed.SelfCompares : Typed → Prop
  | ⟨.set _ elem, .items values⟩ => ∀ v ∈ values, ∃ o, elem.compare v v = .ok o
  | ⟨.map _ key _, .entries _ pairs⟩ => ∀ p ∈ pairs, ∃ o, key.compare p.1 p.1 = .ok o
  | ⟨.bigMap _ key _, .entries _ pairs⟩ => ∀ p ∈ pairs, ∃ o, key.compare p.1 p.1 = .ok o
  | _ => True

/-- The slot holds a piece beside itself. -/
def Slot.IsSelf (x : Piece) (slot : Slot) : Prop :=
  slot = .both x x ∨ slot = .same x x

namespace Ty

variable {loaded : Bool} {ty : Ty} {v : Val}

theorem isPart_of_mem_sidePieces {inner : Bool} {t : Typed} {x : Piece}
    (hpart : (Typed.mk ty v) ∈ t.parts) (ih : x ∈ ty.pieces v → x.part.IsPart ⟨ty, v⟩)
    (h : x ∈ sidePieces inner ty v) : x.part.IsPart t := by
  rw [sidePieces] at h
  split at h
  next => exact .head hpart (ih h)
  next =>
    obtain rfl := List.mem_singleton.1 h
    exact .single hpart

theorem isPart_of_mem_pieces_val {i : Info} {l r : Ty} {a : Val} {x : Piece} (side : Side)
    (ih : x ∈ (side.pick l r).pieces a → x.part.IsPart ⟨side.pick l r, a⟩)
    (h : x ∈ (or i l r).pieces (side.val a)) : x.part.IsPart ⟨or i l r, side.val a⟩ := by
  rw [pieces_val] at h
  exact isPart_of_mem_sidePieces (Typed.mem_parts_val side) ih h

/-- What is shown as a child is a part, maybe a deep one. -/
theorem isPart_of_mem_pieces {x : Piece} (h : x ∈ ty.pieces v) : x.part.IsPart ⟨ty, v⟩ := by
  induction ty generalizing v with
  | pair i l r ihl ihr =>
    cases v with
    | pair a b comb =>
      rw [pieces_pair] at h
      rcases List.mem_append.1 h with h | h
      -- A member may be deep in a comb: then it is a piece of the side.
      · exact isPart_of_mem_sidePieces List.mem_cons_self ihl h
      · exact isPart_of_mem_sidePieces (List.mem_cons_of_mem _ List.mem_cons_self) ihr h
    | _ => cases h
  | or i l r ihl ihr =>
    cases v with
    | left a => exact isPart_of_mem_pieces_val .left ihl h
    | right b => exact isPart_of_mem_pieces_val .right ihr h
    | _ => cases h
  | option i t =>
    cases v with
    | some a =>
      obtain rfl := List.mem_singleton.1 h
      exact .single List.mem_cons_self
    | _ => cases h
  | list i elem =>
    cases v with
    | items values =>
      obtain ⟨hty, hmem⟩ := mem_itemPieces h
      obtain ⟨⟨t, a⟩, label⟩ := x
      obtain rfl : t = elem := hty
      exact .single (List.mem_map_of_mem hmem)
    | _ => cases h
  | set i elem =>
    cases v with
    | items values =>
      obtain ⟨a, ha, rfl⟩ := List.mem_map.1 h
      exact .single (List.mem_map_of_mem ha)
    | _ => cases h
  | map i key value | bigMap i key value =>
    cases v with
    | entries pointer pairs =>
      obtain ⟨p, hp, rfl⟩ := List.mem_map.1 h
      refine .single (List.mem_flatMap.2 ⟨p, hp, ?_⟩)
      exact List.mem_cons_of_mem _ List.mem_cons_self
    | _ => cases h
  | ticket i content paired _ ih => exact .head List.mem_cons_self (ih h)
  | _ => cases v <;> cases h

theorem isSelf_align (xs : List Piece) : List.Forall₂ Slot.IsSelf xs (Slot.align xs xs) := by
  induction xs with
  | nil => exact .nil
  | cons x xs ih => exact .cons (.inl rfl) ih

/-- A set beside itself has each element in a slot of its own, unchanged. -/
theorem exists_elementSlots_self {elem : Ty} {values : List Val}
    (h : ∀ a ∈ values, ∃ o, elem.compare a a = .ok o) :
    ∃ ss, elementSlots elem values values = .ok ss
      ∧ List.Forall₂ Slot.IsSelf (values.map (elementPiece elem)) ss := by
  induction values with
  | nil =>
    rw [elementSlots]
    exact ⟨[], rfl, .nil⟩
  | cons a values ih =>
    obtain ⟨ha, hvalues⟩ := List.forall_mem_cons.1 h
    obtain ⟨ss, hss, hself⟩ := ih hvalues
    refine ⟨.same (elementPiece elem a) (elementPiece elem a) :: ss, ?_, .cons (.inr rfl) hself⟩
    rw [elementSlots, (isOrder_compare elem).self_eq ha]
    show (elementSlots elem values values >>= _) = _
    rw [hss]
    rfl

/-- A map beside itself has each entry beside itself. -/
theorem exists_entrySlots_self {key value : Ty} {pairs : List (Val × Val)}
    (hs : Sorted.Ascending key.compare (pairs.map (·.1)))
    (h : ∀ p ∈ pairs, ∃ o, key.compare p.1 p.1 = .ok o) :
    ∃ ss, entrySlots key value pairs pairs = .ok ss
      ∧ List.Forall₂ Slot.IsSelf (pairs.map (entryPiece key value)) ss := by
  have hfind : ∀ p ∈ pairs, Sorted.findPair? key.compare p.1 pairs = .ok (some p) :=
    fun p hp => Sorted.findPair?_of_mem (isOrder_compare key) hs hp
      ((isOrder_compare key).self_eq (h p hp))
  have hkept : pairs.mapM (keptSlot key value pairs)
      = .ok (pairs.map fun p => .both (entryPiece key value p) (entryPiece key value p)) := by
    refine mapM_eq_ok_iff.2 (List.forall₂_map_right_iff.2 (List.forall₂_same.2 fun p hp => ?_))
    exact Slot.keptSlot_eq_ok_iff.2 (.inl ⟨p, hfind p hp, rfl⟩)
  have hlost : pairs.mapM (lostSlot key value pairs) = .ok (pairs.map fun _ => none) := by
    refine mapM_eq_ok_iff.2 (List.forall₂_map_right_iff.2 (List.forall₂_same.2 fun p hp => ?_))
    exact Slot.lostSlot_eq_ok_iff.2 (.inl ⟨p, hfind p hp, rfl⟩)
  refine ⟨_, Slot.entrySlots_eq_ok_iff.2 ⟨_, _, hkept, hlost, rfl⟩, ?_⟩
  have hnone : (pairs.map fun _ => (none : Option Slot)).filterMap id = [] := by simp
  rw [hnone, List.append_nil, List.forall₂_map_left_iff, List.forall₂_map_right_iff]
  exact List.forall₂_same.2 fun p _ => .inl rfl

/-- Beside itself a value has a slot for each of its pieces. -/
theorem exists_slots_self (hv : ty.Holds loaded v)
    (h : ∀ p : Typed, p.IsPart ⟨ty, v⟩ → p.SelfCompares) :
    ∃ ss, ty.slots v v = .ok ss ∧ List.Forall₂ Slot.IsSelf (ty.pieces v) ss := by
  induction ty generalizing v with
  | pair i l r => exact ⟨_, rfl, isSelf_align _⟩
  | or i l r =>
    obtain ⟨path, x, hx⟩ := exists_activeLeaf? hv
    refine ⟨[.both ⟨x, .own⟩ ⟨x, .own⟩], ?_, ?_⟩
    · rw [slots, hx]
      exact if_pos rfl
    · rw [pieces, hx]
      exact .cons (.inl rfl) .nil
  | option i t => exact ⟨_, rfl, isSelf_align _⟩
  | list i elem =>
    cases hv with
    | list _ => exact ⟨_, rfl, isSelf_align _⟩
  | set i elem =>
    cases hv with
    | set _ _ => exact exists_elementSlots_self (h _ .refl)
  | map i key value =>
    cases hv with
    | map _ _ hs => exact exists_entrySlots_self hs (h _ .refl)
  | bigMap i key value =>
    cases hv with
    | bigMap _ _ hs => exact exists_entrySlots_self hs (h _ .refl)
    | pointer _ => exact exists_entrySlots_self List.Pairwise.nil (h _ .refl)
    | loaded _ _ _ _ hs => exact exists_entrySlots_self hs (h _ .refl)
  | ticket i content paired _ ih =>
    cases hv with
    | ticket hv => exact ih hv fun p hp => h p (.head List.mem_cons_self hp)
  | _ =>
    refine ⟨[], slots_of_isLeaf rfl, ?_⟩
    rw [pieces_of_isLeaf rfl]
    exact .nil

/-- What is shown of a leaf is there if the leaf can be shown. -/
theorem exists_shown_of_shell {s : Presentation} (hty : ty.isLeaf = true)
    (hv : ty.Holds loaded v) (h : ty.shell v = .ok s) : ∃ o, ty.shown v = .ok o := by
  cases hv with
  | unit | bool => exact ⟨_, rfl⟩
  | scalar | contract => exact exists_return_iff.1 ⟨s, h⟩
  | lambda | saplingState | saplingTransaction | constant => exact ⟨_, rfl⟩
  | _ => cases hty

/-- Beside itself a value has its own node. -/
theorem shellDiff_self {s p : Presentation} (hv : ty.Holds loaded v) (hs : ty.shell v = .ok s)
    (hp : ty.present v = .ok p) : ty.shellDiff v v = .ok s := by
  induction ty generalizing v s p with
  | pair i l r | or i l r | option i t | list i elem | set i elem | map i key value => exact hs
  | bigMap i key value =>
    obtain ⟨pointer, pairs, rfl⟩ := exists_entries_of_holds hv
    obtain ⟨s', cs, hs', -, rfl⟩ := present_bigMap_eq_ok_iff.1 hp
    obtain rfl := Except.ok.inj hs
    obtain rfl := Except.ok.inj hs'
    refine bind_eq_ok_iff.2 ⟨_, hp, ?_⟩
    exact congrArg Except.ok (if_neg fun hne => hne.1 rfl)
  | ticket i content paired _ ih =>
    obtain ⟨s', hs', hs⟩ := bind_eq_ok_iff.1 hs
    obtain ⟨p', hp', -⟩ := bind_eq_ok_iff.1 hp
    cases hv with
    | ticket hv => exact bind_eq_ok_iff.2 ⟨s', ih hv hs' hp', hs⟩
  | _ =>
    obtain ⟨o, ho⟩ := exists_shown_of_shell rfl hv hs
    exact (shellDiff_leaf_eq_ok_iff rfl).2 ⟨s, o, o, hs, ho, ho, (if_pos rfl).symm⟩

/-- **Beside itself a value is presented as it is.** -/
theorem diff_self {ty : Ty} {v : Val} {p : Presentation} (hv : ty.Holds loaded v)
    (h : ∀ t : Typed, t.IsPart ⟨ty, v⟩ → t.SelfCompares) (hp : ty.present v = .ok p) :
    ty.diff v ty v = .ok p := by
  obtain ⟨s, cs, hs, hcs, rfl⟩ := (present_eq_ok_iff hv).1 hp
  obtain ⟨ss, hss, hself⟩ := exists_slots_self hv h
  refine (diff_eq_ok_iff hv hv).2 ⟨s, ss, cs, shellDiff_self hv hs hp, hss, ?_, rfl⟩
  refine mapM_of_forall₂ hself hcs ?_
  rintro x hx slot c (rfl | rfl) hc
  · obtain ⟨q, hq, hlabel⟩ := bind_eq_ok_iff.1 hc
    have hsize : x.part.ty.size < ty.size := size_lt_of_mem_pieces hx
    have hparts : ∀ t : Typed, t.IsPart x.part → t.SelfCompares :=
      fun t ht => h t ((isPart_of_mem_pieces hx).trans ht)
    have hdiff : x.part.diff x.part = .ok q := diff_self (holds_of_mem_pieces hv hx) hparts hq
    exact bind_eq_ok_iff.2 ⟨q, hdiff, hlabel⟩
  · exact hc
termination_by ty.size

end Ty

end Micheline
