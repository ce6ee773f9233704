/-
Micheline/Proofs/Value/Pieces.lean

What a presentation is made of: a node of its own (`Ty.shell`), and the parts of the value
that are presented as its children, each with what it is called there (`Ty.pieces`).  Inner
pairs and choices give their parts to what is around them, so that the pieces of a pair are
its members and the piece of a choice is the leaf that is taken.

A value is presented exactly if its node and its pieces can be (`Ty.present_eq_ok_iff`);
later proofs use this and never open `Ty.present`.
-/
import Micheline.Proofs.Value.Leaf
import Micheline.Proofs.Value.Marks
import Micheline.Proofs.Value.Settled

namespace Micheline

/-! ### Pieces -/

/-- What a child is called: by its own name, by its place, or by a key. -/
inductive Label where
  | own
  | place (index : Nat)
  | key (k : Typed)

/-- Names a child. -/
def Label.apply : Label → Presentation → Except Error Presentation
  | .own, p => .ok p
  | .place index, p => .ok (p.named (Decimal.ofNat index))
  | .key k, p => do return p.named (← k.ty.keyName k.val)

/-- A part of a value that is presented as a child. -/
structure Piece where
  part : Typed
  label : Label

/-- The presentation of a piece, under the name that it has as a child. -/
def Piece.present (x : Piece) : Except Error Presentation := do
  x.label.apply (← x.part.present)

namespace Ty

/-- An element of a set, which is called by itself. -/
def elementPiece (elem : Ty) (v : Val) : Piece :=
  ⟨⟨elem, v⟩, .key ⟨elem, v⟩⟩

/-- The value of an entry, which is called by the key. -/
def entryPiece (key value : Ty) (p : Val × Val) : Piece :=
  ⟨⟨value, p.2⟩, .key ⟨key, p.1⟩⟩

/-- The items of a list from a place on. -/
def itemPieces (elem : Ty) : (index : Nat) → List Val → List Piece
  | _, [] => []
  | index, v :: values => ⟨⟨elem, v⟩, .place index⟩ :: itemPieces elem (index + 1) values

/-- The parts of a value that are presented as its children. -/
def pieces : Ty → Val → List Piece
  | .pair i l r, v => (Typed.members (.pair i l r) v).map fun m => ⟨m, .own⟩
  | .or i l r, v => (Typed.activeLeaf? (.or i l r) v).toList.map fun leaf => ⟨leaf.2, .own⟩
  | .option _ inner, .some a => [⟨⟨inner, a⟩, .own⟩]
  | .list _ elem, .items values => itemPieces elem 0 values
  | .set _ elem, .items values => values.map (elementPiece elem)
  | .map _ key value, .entries _ pairs => pairs.map (entryPiece key value)
  | .bigMap _ key value, .entries _ pairs => pairs.map (entryPiece key value)
  | .ticket _ _ paired, v => pieces paired v
  | _, _ => []

/-- The node of a value, without children. -/
def shell : Ty → Val → Except Error Presentation
  | .pair i l r, v =>
    .ok (Presentation.ofTy (.pair i l r) (pairKind (Typed.members (.pair i l r) v)))
  | .or i l r, _ => .ok (Presentation.ofTy (.or i l r) "or")
  | .option i inner, .some _ => .ok (Presentation.ofTy (.option i inner) "option")
  | .list i elem, _ => .ok (Presentation.ofTy (.list i elem) "list")
  | .set i elem, _ => .ok (Presentation.ofTy (.set i elem) "set")
  | .map i key value, _ => .ok (Presentation.ofTy (.map i key value) "map")
  | .bigMap i key value, .entries pointer pairs =>
    .ok { Presentation.ofTy (.bigMap i key value) "big_map" with
      value := if pairs.isEmpty then pointer.map fun p => .str (Decimal.ofInt p) else none }
  | .ticket i content paired, v => do
    let _ ← shell paired v
    return Presentation.ofTy (.ticket i content paired) "ticket"
  | ty, v => ty.present v

variable {ty : Ty} {v : Val} {p s : Presentation} {cs : List Presentation}

/-! ### Sides -/

theorem present_own (t : Typed) : (Piece.mk t .own).present = t.present := by
  rw [Piece.present]
  rcases t.present with e | p <;> rfl

/-- The pieces that a side of a pair or a choice gives to it: its own, if it counts as part of
what is around it. -/
def sidePieces (inner : Bool) (ty : Ty) (v : Val) : List Piece :=
  if inner then ty.pieces v else [⟨⟨ty, v⟩, .own⟩]

/-- The pieces of a pair are those of its two parts. -/
theorem pieces_pair {i : Info} {l r : Ty} {a b : Val} {comb : Comb} :
    (pair i l r).pieces (.pair a b comb)
      = sidePieces l.isInnerPair l a ++ sidePieces r.isInnerPair r b := by
  have hside {t : Ty} {x : Val} :
      ((if t.isInnerPair then Typed.members t x else [⟨t, x⟩]).map fun m => Piece.mk m .own)
        = sidePieces t.isInnerPair t x := by
    rw [sidePieces]
    cases t with
    | pair i l r =>
      split
      next => rfl
      next => rfl
    | _ => rfl
  rw [pieces, Typed.members, List.map_append, hside, hside]

/-- The pieces of a choice are those of the side that it holds. -/
theorem pieces_val {i : Info} {l r : Ty} {side : Side} {a : Val} :
    (or i l r).pieces (side.val a) = sidePieces (side.pick l r).isInnerOr (side.pick l r) a := by
  rw [pieces, activeLeaf?_val, sidePieces]
  cases side.pick l r with
  | or j l' r' =>
    split
    next => rw [Option.toList_map, List.map_map]; rfl
    next => rfl
  | _ => rfl

/-- A side is presented exactly if its pieces are. -/
theorem mapM_sidePieces {inner : Bool} (hinner : inner = true → ∃ s, ty.shell v = .ok s)
    (ih : ∀ p, ty.present v = .ok p ↔ ∃ s cs, ty.shell v = .ok s
      ∧ (ty.pieces v).mapM Piece.present = .ok cs ∧ p = { s with children := cs }) :
    (sidePieces inner ty v).mapM Piece.present = .ok cs
      ↔ ∃ p, ty.present v = .ok p ∧ cs = if inner then p.children else [p] := by
  cases inner with
  | true =>
    obtain ⟨s, hs⟩ := hinner rfl
    constructor
    · intro h
      exact ⟨{ s with children := cs }, (ih _).2 ⟨s, cs, hs, h, rfl⟩, rfl⟩
    · rintro ⟨p, hp, rfl⟩
      obtain ⟨s, cs, -, hcs, rfl⟩ := (ih p).1 hp
      exact hcs
  | false =>
    show [_].mapM Piece.present = .ok cs ↔ _
    rw [mapM_eq_ok_iff, List.forall₂_cons_left_iff]
    simp only [present_own, List.forall₂_nil_left_iff]
    constructor
    · rintro ⟨p, _, hp, rfl, rfl⟩
      exact ⟨p, hp, rfl⟩
    · rintro ⟨p, hp, rfl⟩
      exact ⟨p, [], hp, rfl, rfl⟩

/-- A type that counts as part of another one always has a node. -/
theorem exists_shell_of_isInner (h : ty.isInnerPair = true ∨ ty.isInnerOr = true) :
    ∃ s, ty.shell v = .ok s := by
  cases ty with
  | pair i l r | or i l r => exact ⟨_, rfl⟩
  | _ => rcases h with h | h <;> cases h

/-! ### Collections -/

/-- The items of a list are presented under their numbers. -/
theorem mapM_itemPieces {elem : Ty} {index : Nat} {values : List Val} :
    (itemPieces elem index values).mapM Piece.present = .ok cs
      ↔ ∃ qs, values.mapM elem.present = .ok qs
        ∧ cs = qs.mapIdx fun i q => q.named (Decimal.ofNat (index + i)) := by
  induction values generalizing index cs with
  | nil =>
    rw [itemPieces, List.mapM_nil, List.mapM_nil, pure_eq_ok_iff]
    constructor
    · rintro rfl
      exact ⟨[], rfl, rfl⟩
    · rintro ⟨qs, hqs, rfl⟩
      obtain rfl := Except.ok.inj hqs
      rfl
  | cons v values ih =>
    -- The rest of the list is numbered from one more.
    have hshift :
        (fun (i : Nat) (q : Presentation) => q.named (Decimal.ofNat (index + 1 + i)))
          = fun i q => q.named (Decimal.ofNat (index + (i + 1))) := by
      funext i q
      rw [Nat.add_right_comm, Nat.add_assoc]
    rw [itemPieces, List.mapM_cons, List.mapM_cons, bind_eq_ok_iff]
    constructor
    · rintro ⟨child, hchild, h⟩
      obtain ⟨rest, hrest, h⟩ := bind_eq_ok_iff.1 h
      obtain rfl := pure_eq_ok_iff.1 h
      obtain ⟨q, hq, hchild⟩ := bind_eq_ok_iff.1 hchild
      obtain rfl := Except.ok.inj hchild
      obtain ⟨qs, hqs, rfl⟩ := ih.1 hrest
      refine ⟨q :: qs, ?_, ?_⟩
      · exact bind_eq_ok_iff.2 ⟨q, hq, bind_eq_ok_iff.2 ⟨qs, hqs, rfl⟩⟩
      · rw [List.mapIdx_cons, hshift]
        rfl
    · rintro ⟨qs, hqs, rfl⟩
      obtain ⟨q, hq, h⟩ := bind_eq_ok_iff.1 hqs
      obtain ⟨rest, hrest, h⟩ := bind_eq_ok_iff.1 h
      obtain rfl := pure_eq_ok_iff.1 h
      refine ⟨q.named (Decimal.ofNat index), bind_eq_ok_iff.2 ⟨q, hq, rfl⟩, ?_⟩
      refine bind_eq_ok_iff.2 ⟨_, ih.2 ⟨rest, hrest, rfl⟩, ?_⟩
      rw [List.mapIdx_cons, hshift]
      rfl

theorem mapM_elementPieces {elem : Ty} {values : List Val} :
    (values.map (elementPiece elem)).mapM Piece.present
      = values.mapM (present.presentElement elem.keyName elem.present) := by
  rw [List.mapM_map]
  rfl

theorem mapM_entryPieces {key value : Ty} {pairs : List (Val × Val)} :
    (pairs.map (entryPiece key value)).mapM Piece.present
      = pairs.mapM (present.presentEntry key.keyName value.present) := by
  rw [List.mapM_map]
  rfl

/-! ### Presentation -/

/-- A value without pieces is presented as nothing but its node. -/
theorem present_leaf (hpieces : ty.pieces v = []) (hshell : ty.shell v = ty.present v)
    (hchildren : ∀ p, ty.present v = .ok p → p.children = []) :
    ty.present v = .ok p ↔ ∃ s cs, ty.shell v = .ok s
      ∧ (ty.pieces v).mapM Piece.present = .ok cs ∧ p = { s with children := cs } := by
  rw [hpieces, hshell]
  constructor
  · intro h
    obtain ⟨prim, kind, name, before, change, value, children⟩ := p
    obtain rfl : children = [] := hchildren _ h
    exact ⟨_, [], h, rfl, rfl⟩
  · rintro ⟨⟨prim, kind, name, before, change, value, children⟩, cs, hs, hcs, rfl⟩
    obtain rfl : [] = cs := Except.ok.inj hcs
    obtain rfl : children = [] := hchildren _ hs
    exact hs

theorem children_of_shown {kind : String} (h : (do
    return { Presentation.ofTy ty kind with value := (← ty.shown v).map Shown.toJson })
      = Except.ok p) : p.children = [] := by
  obtain ⟨shown, -, h⟩ := bind_eq_ok_iff.1 h
  obtain rfl := pure_eq_ok_iff.1 h
  rfl

/-- A value whose node is known is presented as the node with what its children are. -/
theorem present_of_shell {α : Type} {x : Except Error α} {f : α → List Presentation}
    (hshell : ty.shell v = .ok s)
    (hpieces : ∀ cs, (ty.pieces v).mapM Piece.present = .ok cs ↔ ∃ a, x = .ok a ∧ cs = f a) :
    (do return { s with children := f (← x) }) = .ok p ↔ ∃ s cs, ty.shell v = .ok s
      ∧ (ty.pieces v).mapM Piece.present = .ok cs ∧ p = { s with children := cs } := by
  rw [bind_eq_ok_iff]
  constructor
  · rintro ⟨a, ha, h⟩
    exact ⟨s, f a, hshell, (hpieces _).2 ⟨a, ha, rfl⟩, (pure_eq_ok_iff.1 h).symm⟩
  · rintro ⟨s', cs, hs', hcs, rfl⟩
    obtain rfl := Except.ok.inj (hshell.symm.trans hs')
    obtain ⟨a, ha, rfl⟩ := (hpieces cs).1 hcs
    exact ⟨a, ha, rfl⟩

/-- The same where the children are what the pieces are presented as. -/
theorem present_of_shell' {x : Except Error (List Presentation)} (hshell : ty.shell v = .ok s)
    (hpieces : (ty.pieces v).mapM Piece.present = x) :
    (do return { s with children := ← x }) = .ok p ↔ ∃ s cs, ty.shell v = .ok s
      ∧ (ty.pieces v).mapM Piece.present = .ok cs ∧ p = { s with children := cs } :=
  present_of_shell (f := id) hshell fun cs => by
    rw [hpieces]
    exact ⟨fun h => ⟨cs, h, rfl⟩, fun ⟨_, h, hcs⟩ => hcs ▸ h⟩

/-- A choice is presented as its node with the pieces of the side that its value takes. -/
theorem present_val_eq_ok_iff {i : Info} {l r : Ty} {a : Val} (side : Side)
    (ih : ∀ p, (side.pick l r).present a = .ok p ↔ ∃ s cs, (side.pick l r).shell a = .ok s
      ∧ ((side.pick l r).pieces a).mapM Piece.present = .ok cs ∧ p = { s with children := cs }) :
    (or i l r).present (side.val a) = .ok p ↔ ∃ s cs, (or i l r).shell (side.val a) = .ok s
      ∧ ((or i l r).pieces (side.val a)).mapM Piece.present = .ok cs
      ∧ p = { s with children := cs } := by
  have hpresent : (or i l r).present (side.val a) = (do
      return { Presentation.ofTy (.or i l r) "or" with
        children := (fun q : Presentation =>
          if (side.pick l r).isInnerOr then q.children else [q])
            (← (side.pick l r).present a) }) := by
    cases side <;> rfl
  rw [hpresent]
  apply present_of_shell
  · rfl
  · intro cs
    rw [pieces_val]
    exact mapM_sidePieces (fun h => exists_shell_of_isInner (.inr h)) ih

/-- A big map is presented like a map, whether or not it has a pointer. -/
theorem present_bigMap_eq_ok_iff {i : Info} {key value : Ty} {pointer : Option Int}
    {pairs : List (Val × Val)} :
    (bigMap i key value).present (.entries pointer pairs) = .ok p ↔ ∃ s cs,
      (bigMap i key value).shell (.entries pointer pairs) = .ok s
        ∧ ((bigMap i key value).pieces (.entries pointer pairs)).mapM Piece.present = .ok cs
        ∧ p = { s with children := cs } := by
  have hshell : (bigMap i key value).shell (.entries pointer pairs) = .ok _ := rfl
  exact present_of_shell' hshell mapM_entryPieces

/-- **A value is presented as its node with its pieces.** -/
theorem present_eq_ok_iff {loaded : Bool} (hv : ty.Holds loaded v) :
    ty.present v = .ok p ↔ ∃ s cs, ty.shell v = .ok s
      ∧ (ty.pieces v).mapM Piece.present = .ok cs ∧ p = { s with children := cs } := by
  induction hv generalizing p with
  | @pair i l r a b comb _ _ _ iha ihb =>
    have hl {cs : List Presentation} :
        (sidePieces l.isInnerPair l a).mapM Piece.present = .ok cs
          ↔ ∃ p, l.present a = .ok p ∧ cs = if l.isInnerPair then p.children else [p] :=
      mapM_sidePieces (fun h => exists_shell_of_isInner (.inl h)) fun _ => iha
    have hr {cs : List Presentation} :
        (sidePieces r.isInnerPair r b).mapM Piece.present = .ok cs
          ↔ ∃ p, r.present b = .ok p ∧ cs = if r.isInnerPair then p.children else [p] :=
      mapM_sidePieces (fun h => exists_shell_of_isInner (.inl h)) fun _ => ihb
    rw [pieces_pair]
    show (l.present a >>= fun first => r.present b >>= _) = .ok p ↔ _
    rw [bind_eq_ok_iff]
    constructor
    · rintro ⟨first, hfirst, h⟩
      obtain ⟨second, hsecond, h⟩ := bind_eq_ok_iff.1 h
      obtain rfl := pure_eq_ok_iff.1 h
      have hcs := mapM_append_eq_ok_iff.2
        ⟨_, _, hl.2 ⟨first, hfirst, rfl⟩, hr.2 ⟨second, hsecond, rfl⟩, rfl⟩
      exact ⟨_, _, rfl, hcs, rfl⟩
    · rintro ⟨s, cs, ⟨⟩, hcs, rfl⟩
      obtain ⟨bs, bs', hbs, hbs', rfl⟩ := mapM_append_eq_ok_iff.1 hcs
      obtain ⟨first, hfirst, rfl⟩ := hl.1 hbs
      obtain ⟨second, hsecond, rfl⟩ := hr.1 hbs'
      exact ⟨first, hfirst, bind_eq_ok_iff.2 ⟨second, hsecond, rfl⟩⟩
  | @left i l r a _ ih => exact present_val_eq_ok_iff .left fun _ => ih
  | @right i l r b _ ih => exact present_val_eq_ok_iff .right fun _ => ih
  | @some i t a _ ih =>
    -- what is in an option is never part of anything around it
    have hside {cs : List Presentation} : (sidePieces false t a).mapM Piece.present = .ok cs
        ↔ ∃ q, t.present a = .ok q ∧ cs = [q] :=
      mapM_sidePieces nofun fun _ => ih
    apply present_of_shell
    · rfl
    · exact fun _ => hside
  | @list i elem values _ _ =>
    apply present_of_shell
    · rfl
    · intro cs
      rw [pieces, mapM_itemPieces]
      simp only [Nat.zero_add]
  | set _ _ =>
    apply present_of_shell'
    · rfl
    · exact mapM_elementPieces
  | map _ _ _ =>
    apply present_of_shell'
    · rfl
    · exact mapM_entryPieces
  | bigMap | pointer | loaded => exact present_bigMap_eq_ok_iff
  | @ticket i content paired v _ ih =>
    rw [pieces, shell]
    show (paired.present v >>= _) = .ok p ↔ _
    rw [bind_eq_ok_iff]
    constructor
    · rintro ⟨q, hq, h⟩
      obtain ⟨s, cs, hs, hcs, rfl⟩ := ih.1 hq
      exact ⟨_, cs, bind_eq_ok_iff.2 ⟨s, hs, rfl⟩, hcs, (pure_eq_ok_iff.1 h).symm⟩
    · rintro ⟨s, cs, hs, hcs, rfl⟩
      obtain ⟨s', hs', hs⟩ := bind_eq_ok_iff.1 hs
      obtain rfl := pure_eq_ok_iff.1 hs
      exact ⟨_, ih.2 ⟨s', cs, hs', hcs, rfl⟩, rfl⟩
  | none | unit =>
    refine present_leaf rfl rfl ?_
    rintro _ ⟨⟩
    rfl
  | _ => exact present_leaf rfl rfl fun _ => children_of_shown

/-! ### What pieces are -/

theorem mem_itemPieces {elem : Ty} {index : Nat} {values : List Val} {x : Piece}
    (h : x ∈ itemPieces elem index values) : x.part.ty = elem ∧ x.part.val ∈ values := by
  induction values generalizing index with
  | nil => cases h
  | cons v values ih =>
    rcases List.mem_cons.1 h with rfl | h
    · exact ⟨rfl, List.mem_cons_self⟩
    · exact (ih h).imp_right (List.mem_cons_of_mem v)

/-- The only piece of an option is what is in it. -/
theorem of_getElem?_optionPieces {i : Info} {t : Ty} {x : Piece} {n : Nat}
    (h : ((option i t).pieces v)[n]? = some x) :
    n = 0 ∧ ∃ a, v = .some a ∧ x = ⟨⟨t, a⟩, .own⟩ := by
  cases v with
  | some a =>
    cases n with
    | zero => exact ⟨rfl, a, rfl, (Option.some.inj h).symm⟩
    | succ n => cases h
  | _ => cases h

/-- Pieces are smaller than what they are pieces of. -/
theorem size_lt_of_mem_pieces {x : Piece} (h : x ∈ ty.pieces v) : x.part.ty.size < ty.size := by
  have hentry {key value : Ty} {pairs : List (Val × Val)}
      (h : x ∈ pairs.map (entryPiece key value)) :
      x.part.ty.size < 1 + key.size + value.size := by
    obtain ⟨p, -, rfl⟩ := List.mem_map.1 h
    dsimp only [entryPiece]
    omega
  induction ty generalizing v with
  | pair i l r =>
    obtain ⟨m, hm, rfl⟩ := List.mem_map.1 h
    exact Typed.size_lt_of_mem_members hm
  | or i l r =>
    obtain ⟨⟨path, leaf⟩, hleaf, rfl⟩ := List.mem_map.1 h
    exact Typed.size_lt_of_activeLeaf? (Option.mem_toList.1 hleaf)
  | option i t =>
    cases v with
    | some a =>
      obtain rfl := List.mem_singleton.1 h
      simp only [size]
      omega
    | _ => cases h
  | list i elem =>
    cases v with
    | items values =>
      rw [(mem_itemPieces h).1, size]
      omega
    | _ => cases h
  | set i elem =>
    cases v with
    | items values =>
      obtain ⟨v, -, rfl⟩ := List.mem_map.1 h
      simp only [elementPiece, size]
      omega
    | _ => cases h
  | map i key value | bigMap i key value =>
    cases v with
    | entries pointer pairs => exact hentry h
    | _ => cases h
  | ticket i content paired _ ih =>
    have hpaired := ih h
    rw [size]
    omega
  | _ => cases v <;> cases h

/-- The pieces of a side that is held are held. -/
theorem holds_of_mem_sidePieces {loaded inner : Bool} {x : Piece} (hv : ty.Holds loaded v)
    (ih : x ∈ ty.pieces v → x.part.ty.Holds loaded x.part.val)
    (h : x ∈ sidePieces inner ty v) : x.part.ty.Holds loaded x.part.val := by
  rw [sidePieces] at h
  split at h
  next => exact ih h
  next =>
    obtain rfl := List.mem_singleton.1 h
    exact hv

theorem holds_of_mem_pieces_val {loaded : Bool} {i : Info} {l r : Ty} {a : Val} {x : Piece}
    (side : Side) (ha : (side.pick l r).Holds loaded a)
    (ih : x ∈ (side.pick l r).pieces a → x.part.ty.Holds loaded x.part.val)
    (h : x ∈ (or i l r).pieces (side.val a)) : x.part.ty.Holds loaded x.part.val := by
  rw [pieces_val] at h
  exact holds_of_mem_sidePieces ha ih h

/-- **The pieces of a value that is held are held.** -/
theorem holds_of_mem_pieces {loaded : Bool} (hv : ty.Holds loaded v) {x : Piece}
    (h : x ∈ ty.pieces v) : x.part.ty.Holds loaded x.part.val := by
  have hentry {value key : Ty} {pairs : List (Val × Val)}
      (hvalues : ∀ p ∈ pairs, value.Holds loaded p.2)
      (h : x ∈ pairs.map (entryPiece key value)) :
      x.part.ty.Holds loaded x.part.val := by
    obtain ⟨p, hp, rfl⟩ := List.mem_map.1 h
    exact hvalues p hp
  induction hv with
  | pair ha hb _ iha ihb =>
    rw [pieces_pair] at h
    rcases List.mem_append.1 h with h | h
    · exact holds_of_mem_sidePieces ha iha h
    · exact holds_of_mem_sidePieces hb ihb h
  | left ha ih => exact holds_of_mem_pieces_val .left ha ih h
  | right hb ih => exact holds_of_mem_pieces_val .right hb ih h
  | some ha _ =>
    obtain rfl := List.mem_singleton.1 h
    exact ha
  | list hvalues _ =>
    obtain ⟨hty, hmem⟩ := mem_itemPieces h
    rw [hty]
    exact hvalues _ hmem
  | set hvalues _ _ =>
    obtain ⟨v, hv, rfl⟩ := List.mem_map.1 h
    exact hvalues v hv
  | map _ hvalues _ _ _ | bigMap _ hvalues _ _ _ | loaded _ _ _ hvalues _ _ _ =>
    exact hentry hvalues h
  | ticket _ ih => exact ih h
  | _ => cases h

/-! ### Presentations have no marks -/

theorem isPlain_of_shown {kind : String} (h : (do
    return { Presentation.ofTy ty kind with value := (← ty.shown v).map Shown.toJson })
      = Except.ok p) : p.change = none ∧ p.before = none := by
  obtain ⟨shown, -, h⟩ := bind_eq_ok_iff.1 h
  obtain rfl := pure_eq_ok_iff.1 h
  exact ⟨rfl, rfl⟩

/-- The node of a value alone has no marks. -/
theorem isPlain_of_shell {loaded : Bool} (hv : ty.Holds loaded v) (h : ty.shell v = .ok s) :
    s.change = none ∧ s.before = none := by
  induction hv generalizing s with
  | ticket _ _ =>
    obtain ⟨_, -, h⟩ := bind_eq_ok_iff.1 h
    obtain rfl := pure_eq_ok_iff.1 h
    exact ⟨rfl, rfl⟩
  | bool | scalar | contract | lambda | saplingState | saplingTransaction | constant =>
    exact isPlain_of_shown h
  | _ =>
    obtain rfl := Except.ok.inj h
    exact ⟨rfl, rfl⟩

theorem isPlain_of_apply {label : Label} {p q : Presentation} (h : label.apply p = .ok q)
    (hp : p.IsPlain) : q.IsPlain := by
  cases label with
  | own =>
    obtain rfl := Except.ok.inj h
    exact hp
  | place index =>
    obtain rfl := Except.ok.inj h
    exact hp.named
  | key k =>
    obtain ⟨name, -, h⟩ := bind_eq_ok_iff.1 h
    obtain rfl := pure_eq_ok_iff.1 h
    exact hp.named

/-- **A presentation has no marks.** -/
theorem isPlain_of_present {loaded : Bool} {ty : Ty} {v : Val} {p : Presentation}
    (hv : ty.Holds loaded v) (h : ty.present v = .ok p) : p.IsPlain := by
  obtain ⟨s, cs, hs, hcs, rfl⟩ := (present_eq_ok_iff hv).1 h
  obtain ⟨hchange, hbefore⟩ := isPlain_of_shell hv hs
  refine Presentation.isPlain_iff.2 ⟨hchange, hbefore, fun child hchild => ?_⟩
  obtain ⟨x, hx, hpresent⟩ := exists_of_mem_mapM hcs child hchild
  obtain ⟨q, hq, hlabel⟩ := bind_eq_ok_iff.1 hpresent
  have hsize : x.part.ty.size < ty.size := size_lt_of_mem_pieces hx
  exact isPlain_of_apply hlabel (isPlain_of_present (holds_of_mem_pieces hv hx) hq)
termination_by ty.size

/-- A piece alone is presented without marks. -/
theorem isPlain_of_piece {loaded : Bool} {x : Piece} {c : Presentation}
    (hx : x.part.ty.Holds loaded x.part.val) (h : x.present = .ok c) : c.IsPlain := by
  obtain ⟨p, hp, hlabel⟩ := bind_eq_ok_iff.1 h
  exact isPlain_of_apply hlabel (isPlain_of_present hx hp)

end Ty

end Micheline
