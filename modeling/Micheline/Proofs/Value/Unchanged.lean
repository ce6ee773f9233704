/-
Micheline/Proofs/Value/Unchanged.lean

No change of a value goes unreported.  If nothing is marked in the presentation of a value
beside an earlier one, the two have one binary form, unless parts of them at the same place
differ where nothing is ever marked (`Blurred`, `Ty.agrees_of_unchanged`).

What a node says of its own value is what a leaf or an empty big map shows; everything else is
said by its slots.  Without marks nothing came and nothing went, and the parts that share a
slot agree (`Slot.Agrees`); each way to build a value then has a lemma that puts the value
together from such parts.
-/
import Micheline.Proofs.Ty.Typing
import Micheline.Proofs.Value.Code

namespace Micheline

open Ty

/-- The two parts are of one type and have one binary form, as far as they have one at all. -/
def Typed.Agrees (x y : Typed) : Prop :=
  x.ty = y.ty ∧ x.ty.Agrees x.val y.val

/-- Nothing came and nothing went, and what is there agrees with what was there. -/
def Slot.Agrees : Slot → Prop
  | .both x y => x.part.Agrees y.part
  | .same _ _ => True
  | .fresh _ => False
  | .gone _ => False

namespace Ty

section Build

variable {loaded : Bool} {i : Info} {l r t ty key value : Ty} {a b c d v w : Val} {s u : Comb}
  {ss : List Slot}

/-! ### Pairs and choices -/

/-- Two expressions under one name are the same if their parts are. -/
theorem eq_of_app {name : String} {x x' y y' : Except Error Node} {m n : Node}
    (hx : ∀ a b, x = .ok a → x' = .ok b → a = b) (hy : ∀ a b, y = .ok a → y' = .ok b → a = b)
    (hm : (do return Node.app name [← x, ← y]) = .ok m)
    (hn : (do return Node.app name [← x', ← y']) = .ok n) : m = n := by
  obtain ⟨a, ha, hm⟩ := bind_eq_ok_iff.1 hm
  obtain ⟨b, hb, hm⟩ := bind_eq_ok_iff.1 hm
  obtain ⟨a', ha', hn⟩ := bind_eq_ok_iff.1 hn
  obtain ⟨b', hb', hn⟩ := bind_eq_ok_iff.1 hn
  rw [← pure_eq_ok_iff.1 hm, ← pure_eq_ok_iff.1 hn, hx a a' ha ha', hy b b' hb hb']

/-- Pairs agree if their parts do. -/
theorem agrees_pair (hv : (pair i l r).Holds loaded (.pair a b s))
    (hw : (pair i l r).Holds loaded (.pair c d u)) (hl : l.Agrees a c) (hr : r.Agrees b d) :
    (pair i l r).Agrees (.pair a b s) (.pair c d u) := by
  intro m n hm hn
  rw [binaryForm, writeNested_pair hv] at hm
  rw [binaryForm, writeNested_pair hw] at hn
  exact eq_of_app hl hr hm hn

/-- Values that are written under one constructor agree if what is under it does. -/
theorem agrees_app {name : String} (hv : ty.binaryForm v = (do return .app name [← t.binaryForm a]))
    (hw : ty.binaryForm w = (do return .app name [← t.binaryForm b])) (h : t.Agrees a b) :
    ty.Agrees v w := by
  intro m n hm hn
  rw [hv] at hm
  rw [hw] at hn
  obtain ⟨m', hm', hm⟩ := bind_eq_ok_iff.1 hm
  obtain ⟨n', hn', hn⟩ := bind_eq_ok_iff.1 hn
  rw [← pure_eq_ok_iff.1 hm, ← pure_eq_ok_iff.1 hn, h m' n' hm' hn']

/-- Slots of aligned pieces that agree are all pairs of pieces: none came or went. -/
theorem forall₂_of_align {xs ys : List Piece} (h : ∀ slot ∈ Slot.align xs ys, slot.Agrees) :
    List.Forall₂ (fun x y => x.part.Agrees y.part) xs ys := by
  induction xs generalizing ys with
  | nil =>
    cases ys with
    | nil => exact .nil
    | cons y ys => exact (h (.gone y) List.mem_cons_self).elim
  | cons x xs ih =>
    cases ys with
    | nil => exact (h (.fresh x) List.mem_cons_self).elim
    | cons y ys =>
      obtain ⟨hslot, hrest⟩ := List.forall_mem_cons.1 h
      exact .cons hslot (ih hrest)

/-- What a side of a pair gives to it tells the side, and what comes after it the rest. -/
theorem agrees_of_sidePieces {inner : Bool} {xs ys : List Piece}
    (ih : inner = true →
      List.Forall₂ (fun x y => x.part.Agrees y.part) (t.pieces a ++ xs) (t.pieces b ++ ys) →
        t.Agrees a b ∧ List.Forall₂ (fun x y => x.part.Agrees y.part) xs ys)
    (h : List.Forall₂ (fun x y => x.part.Agrees y.part) (sidePieces inner t a ++ xs)
      (sidePieces inner t b ++ ys)) :
    t.Agrees a b ∧ List.Forall₂ (fun x y => x.part.Agrees y.part) xs ys := by
  rw [sidePieces, sidePieces] at h
  split at h
  next hinner => exact ih hinner h
  next =>
    cases h with
    | cons hside hrest => exact ⟨hside.2, hrest⟩

/-- The members of pairs tell the pairs.  Members of inner pairs follow each other without a
sign of where a pair ends, so that the rest is taken along. -/
theorem agrees_of_pieces_append {xs ys : List Piece} (hty : ty.isPair = true)
    (hv : ty.Holds loaded v) (hw : ty.Holds loaded w)
    (h : List.Forall₂ (fun x y => x.part.Agrees y.part) (ty.pieces v ++ xs) (ty.pieces w ++ ys)) :
    ty.Agrees v w ∧ List.Forall₂ (fun x y => x.part.Agrees y.part) xs ys := by
  induction hv generalizing w xs ys with
  | pair ha hb hs iha ihb =>
    cases hw with
    | pair hc hd hu =>
      rw [pieces_pair, pieces_pair, List.append_assoc, List.append_assoc] at h
      have hisPair {t : Ty} (hinner : t.isInnerPair = true) : t.isPair = true := by
        cases t with
        | pair => rfl
        | _ => cases hinner
      obtain ⟨hfirst, hrest⟩ := agrees_of_sidePieces (fun hl => iha (hisPair hl) hc) h
      obtain ⟨hsecond, hrest⟩ := agrees_of_sidePieces (fun hr => ihb (hisPair hr) hd) hrest
      exact ⟨agrees_pair (.pair ha hb hs) (.pair hc hd hu) hfirst hsecond, hrest⟩
  | _ => cases hty

/-- Pairs agree if the parts in their slots do. -/
theorem agrees_of_pairSlots (hty : ty.isPair = true) (hv : ty.Holds loaded v)
    (hw : ty.Holds loaded w) (hss : ty.slots v w = .ok ss) (h : ∀ slot ∈ ss, slot.Agrees) :
    ty.Agrees v w := by
  obtain rfl : Slot.align (ty.pieces v) (ty.pieces w) = ss := by
    cases ty with
    | pair => exact Except.ok.inj hss
    | _ => cases hty
  have hpieces := forall₂_of_align h
  rw [← List.append_nil (ty.pieces v), ← List.append_nil (ty.pieces w)] at hpieces
  exact (agrees_of_pieces_append hty hv hw hpieces).1

theorem agrees_val {b : Val} (side : Side) (h : (side.pick l r).Agrees a b) :
    (or i l r).Agrees (side.val a) (side.val b) :=
  agrees_app (writeNested_val side) (writeNested_val side) h

/-- Choices agree if they take leaves that agree on one path. -/
theorem agrees_of_activeLeaf? {path : List Side} {x y : Typed}
    (hx : Typed.activeLeaf? ty v = some (path, x)) (hy : Typed.activeLeaf? ty w = some (path, y))
    (h : x.Agrees y) : ty.Agrees v w := by
  rw [activeLeaf?_eq_some_iff] at hx hy
  induction hx generalizing w with
  | leaf _ =>
    cases hy with
    | leaf _ => exact agrees_val _ h.2
    | inner _ hy => exact absurd rfl hy.ne_nil
  | inner _ hx ih =>
    cases hy with
    | leaf _ => exact absurd rfl hx.ne_nil
    | inner _ hy => exact agrees_val _ (ih hy h)

/-- Choices agree if their leaves are the same and agree. -/
theorem agrees_of_choiceSlots (hv : (or i l r).Holds loaded v) (hw : (or i l r).Holds loaded w)
    (hss : (or i l r).slots v w = .ok ss) (h : ∀ slot ∈ ss, slot.Agrees) :
    (or i l r).Agrees v w := by
  obtain ⟨path, x, path', y, hx, hy, ⟨rfl, rfl⟩ | ⟨-, rfl⟩⟩ := slots_or_cases hv hw hss
  · exact agrees_of_activeLeaf? hx hy (h _ List.mem_cons_self)
  · -- another leaf would have come
    exact (h _ List.mem_cons_self).elim

/-- Options agree if both hold nothing or what they hold agrees. -/
theorem agrees_of_optionSlots (hv : (option i t).Holds loaded v) (hw : (option i t).Holds loaded w)
    (hss : (option i t).slots v w = .ok ss) (h : ∀ slot ∈ ss, slot.Agrees) :
    (option i t).Agrees v w := by
  cases hv with
  | none =>
    cases hw with
    | none => exact .of_eq rfl
    | some _ =>
      obtain rfl := Except.ok.inj hss
      exact (h _ List.mem_cons_self).elim
  | some _ =>
    cases hw with
    | none =>
      obtain rfl := Except.ok.inj hss
      exact (h _ List.mem_cons_self).elim
    | some _ =>
      obtain rfl := Except.ok.inj hss
      exact agrees_app writeNested_some writeNested_some (h _ List.mem_cons_self).2

/-! ### Collections -/

/-- Values that are written as sequences agree if what they are written from does, one by
one. -/
theorem agrees_seq {α : Type} {f : α → Except Error Node} {new old : List α}
    (hv : ty.binaryForm v = (do return .seq (← new.mapM f)))
    (hw : ty.binaryForm w = (do return .seq (← old.mapM f)))
    (h : List.Forall₂ (fun x y => ∀ m n, f x = .ok m → f y = .ok n → m = n) new old) :
    ty.Agrees v w := by
  intro m n hm hn
  rw [hv] at hm
  rw [hw] at hn
  obtain ⟨ms, hms, hm⟩ := bind_eq_ok_iff.1 hm
  obtain ⟨ns, hns, hn⟩ := bind_eq_ok_iff.1 hn
  rw [← pure_eq_ok_iff.1 hm, ← pure_eq_ok_iff.1 hn]
  exact congrArg Node.seq (eq_of_mapM_of_forall₂ h hms hns fun _ _ m n hxy hm hn => hxy m n hm hn)

theorem agrees_items {new old : List Val} (hty : ty.HasItems elem)
    (h : List.Forall₂ elem.Agrees new old) : ty.Agrees (.items new) (.items old) :=
  agrees_seq (writeNested_items hty) (writeNested_items hty) h

/-- The pieces of lists tell their items. -/
theorem forall₂_of_itemPieces {index : Nat} {new old : List Val}
    (h : List.Forall₂ (fun x y => x.part.Agrees y.part) (itemPieces t index new)
      (itemPieces t index old)) : List.Forall₂ t.Agrees new old := by
  induction new generalizing index old with
  | nil =>
    cases old with
    | nil => exact .nil
    | cons b old => cases h
  | cons a new ih =>
    cases old with
    | nil => cases h
    | cons b old =>
      cases h with
      | cons hitem hrest => exact .cons hitem.2 (ih hrest)

/-- A set to which nothing came and from which nothing went has elements that are equal to
the earlier ones. -/
theorem forall₂_of_elementSlots {new old : List Val} (hnew : ∀ a ∈ new, t.Holds loaded a)
    (hold : ∀ b ∈ old, t.Holds loaded b) (hss : ElementSlots t new old ss)
    (h : ∀ slot ∈ ss, slot.Agrees) : List.Forall₂ t.Agrees new old := by
  induction hss with
  | old old =>
    cases old with
    | nil => exact .nil
    | cons b old => exact (h _ List.mem_cons_self).elim
  | new new =>
    cases new with
    | nil => exact .nil
    | cons a new => exact (h _ List.mem_cons_self).elim
  | same hab _ ih =>
    obtain ⟨ha, hnew⟩ := List.forall_mem_cons.1 hnew
    obtain ⟨hb, hold⟩ := List.forall_mem_cons.1 hold
    obtain ⟨-, h⟩ := List.forall_mem_cons.1 h
    exact .cons (sameBinary_of_compare ha hb hab).agrees (ih hnew hold h)
  | fresh | gone => exact (h _ List.mem_cons_self).elim

/-- A map to which nothing came and from which nothing went has its earlier keys, with values
that agree. -/
theorem forall₂_of_entrySlots {new old : List (Val × Val)}
    (hnew : HoldsEntries loaded key value new) (hold : HoldsEntries loaded key value old)
    (hss : entrySlots key value new old = .ok ss) (h : ∀ slot ∈ ss, slot.Agrees) :
    List.Forall₂ (fun p q => key.Agrees p.1 q.1 ∧ value.Agrees p.2 q.2) new old := by
  have hc := isOrder_compare key
  obtain ⟨kept, losses, hkept, hlost, rfl⟩ := Slot.entrySlots_eq_ok_iff.1 hss
  obtain ⟨hkeptAgrees, hlostAgrees⟩ := List.forall_mem_append.1 h
  have hentries : List.Forall₂ (fun p q => key.compare p.1 q.1 = .ok .eq
      ∧ key.Agrees p.1 q.1 ∧ value.Agrees p.2 q.2) new old := by
    -- Entries ascend on both sides and no key is on one side only, so they pair up in order.
    refine hc.forall₂_of_ascending hnew.ascending hold.ascending (fun p q hpq => hpq.1) ?_ ?_
    · intro p hp
      obtain ⟨slot, hmem, hslot⟩ := exists_of_mem_of_mapM hkept p hp
      obtain ⟨q, hfind, rfl⟩ | ⟨-, rfl⟩ := Slot.keptSlot_eq_ok_iff.1 hslot
      · obtain ⟨hq, hkey⟩ := Sorted.of_findPair?_eq_some hfind
        replace hkey := hc.swap hkey
        have hkeys := (sameBinary_of_compare (hnew.keys p hp) (hold.keys q hq) hkey).agrees
        exact ⟨q, hq, hkey, hkeys, (hkeptAgrees _ hmem).2⟩
      · exact (hkeptAgrees _ hmem).elim
    · intro q hq
      obtain ⟨lost, hmem, hslot⟩ := exists_of_mem_of_mapM hlost q hq
      obtain ⟨p, hfind, -⟩ | ⟨-, rfl⟩ := Slot.lostSlot_eq_ok_iff.1 hslot
      · exact ⟨p, Sorted.of_findPair?_eq_some hfind⟩
      · exact (hlostAgrees _ (List.mem_filterMap.2 ⟨_, hmem, rfl⟩)).elim
  exact hentries.imp fun _ _ hpq => hpq.2

/-- Maps that are written as their entries agree if their keys and values do. -/
theorem agrees_entries {pointer oldPointer : Option Int} {new old : List (Val × Val)}
    (hty : ty.HasEntries key value) (hnew : pointer = none ∨ new ≠ [])
    (hold : oldPointer = none ∨ old ≠ [])
    (h : List.Forall₂ (fun p q => key.Agrees p.1 q.1 ∧ value.Agrees p.2 q.2) new old) :
    ty.Agrees (.entries pointer new) (.entries oldPointer old) :=
  agrees_seq (writeNested_entries hty hnew) (writeNested_entries hty hold)
    (h.imp fun _ _ hpq _ _ hm hn => eq_of_app hpq.1 hpq.2 hm hn)

/-- An empty big map shows its pointer, unless it has none. -/
theorem pointer_eq_of_shellDiff {pointer oldPointer : Option Int} {old : List (Val × Val)}
    {d : Presentation}
    (h : (bigMap i key value).shellDiff (.entries pointer []) (.entries oldPointer old) = .ok d)
    (hd : d.change = none) : pointer = none ∨ pointer = oldPointer := by
  obtain ⟨shown, hshown, h⟩ := bind_eq_ok_iff.1 h
  obtain rfl := pure_eq_ok_iff.1 h
  obtain ⟨shell, cs, hshell, -, rfl⟩ := present_bigMap_eq_ok_iff.1 hshown
  obtain rfl := Except.ok.inj hshell
  cases pointer with
  | none => exact .inl rfl
  | some id =>
    refine .inr ?_
    by_contra hne
    rw [markPointer, if_pos ⟨hne, rfl⟩] at hd
    cases hd

/-- Big maps agree if their entries do and the pointer of an empty one is not lost. -/
theorem agrees_of_bigMapSlots {d : Presentation} (hv : (bigMap i key value).Holds loaded v)
    (hw : (bigMap i key value).Holds loaded w)
    (hblur : ¬Blurred ⟨bigMap i key value, v⟩ ⟨bigMap i key value, w⟩)
    (hd : (bigMap i key value).shellDiff v w = .ok d) (hmark : d.change = none)
    (hss : (bigMap i key value).slots v w = .ok ss) (h : ∀ slot ∈ ss, slot.Agrees) :
    (bigMap i key value).Agrees v w := by
  obtain ⟨pointer, new, rfl⟩ := exists_entries_of_holds hv
  obtain ⟨oldPointer, old, rfl⟩ := exists_entries_of_holds hw
  have hentries := forall₂_of_entrySlots (holdsEntries_of_bigMap hv) (holdsEntries_of_bigMap hw)
    hss h
  cases hentries with
  | nil =>
    -- only here the pointers are written
    rcases pointer_eq_of_shellDiff hd hmark with rfl | rfl
    · cases oldPointer with
      | none => exact .of_eq rfl
      | some id => exact absurd .pointer hblur
    · exact .of_eq rfl
  | cons hentry hrest =>
    exact agrees_entries .bigMap (.inr (List.cons_ne_nil _ _)) (.inr (List.cons_ne_nil _ _))
      (.cons hentry hrest)

/-! ### All values -/

/-- **A value agrees with an earlier one if its slots do** and its node has no mark, unless
the two are such as no mark tells apart. -/
theorem agrees_of_slots {d : Presentation} (hty : ty.PairsTickets) (hv : ty.Holds loaded v)
    (hw : ty.Holds loaded w) (hblur : ¬Blurred ⟨ty, v⟩ ⟨ty, w⟩) (hd : ty.shellDiff v w = .ok d)
    (hmark : d.change = none) (hss : ty.slots v w = .ok ss) (h : ∀ slot ∈ ss, slot.Agrees) :
    ty.Agrees v w := by
  cases ty with
  | pair i l r => exact agrees_of_pairSlots rfl hv hw hss h
  | or i l r => exact agrees_of_choiceSlots hv hw hss h
  | option i t => exact agrees_of_optionSlots hv hw hss h
  | list i elem =>
    cases hv with
    | list hnew =>
      cases hw with
      | list hold =>
        obtain rfl := Except.ok.inj hss
        have hitems := forall₂_of_itemPieces (forall₂_of_align h)
        exact agrees_items .list hitems
  | set i elem =>
    cases hv with
    | set hnew _ =>
      cases hw with
      | set hold _ =>
        have helements := forall₂_of_elementSlots hnew hold (.of_eq_ok hss) h
        exact agrees_items .set helements
  | map i key value =>
    cases hv with
    | map hk hv hs =>
      cases hw with
      | map hk' hv' hs' =>
        have hentries := forall₂_of_entrySlots ⟨hk, hv, hs⟩ ⟨hk', hv', hs'⟩ hss h
        exact agrees_entries .map (.inl rfl) (.inl rfl) hentries
  | bigMap i key value => exact agrees_of_bigMapSlots hv hw hblur hd hmark hss h
  | ticket i content paired =>
    -- a ticket is written as its pair
    cases hv with
    | ticket hv =>
      cases hw with
      | ticket hw =>
        have hpaired : paired.Agrees v w := agrees_of_pairSlots hty.1 hv hw hss h
        exact hpaired
  | _ =>
    obtain ⟨shown, hv', hw'⟩ := shown_of_shellDiff rfl hd hmark
    exact agrees_of_shown rfl hv hw hblur hv' hw'

end Build

/-- The parts of a value of a type with paired tickets are of such types. -/
theorem pairsTickets_of_mem_parts {ty : Ty} {v : Val} {p : Typed} (hty : ty.PairsTickets)
    (hp : p ∈ (Typed.mk ty v).parts) : p.ty.PairsTickets := by
  have hp := Typed.ty_mem_partTypes hp
  cases ty with
  | pair i a b | or i a b | map i a b | bigMap i a b =>
    rcases List.mem_pair.1 hp with hp | hp
    · exact hp ▸ hty.1
    · exact hp ▸ hty.2
  | option i inner | list i inner | set i inner => exact List.mem_singleton.1 hp ▸ hty
  | ticket i content paired => exact List.mem_singleton.1 hp ▸ hty.2
  | _ => cases hp

theorem pairsTickets_of_isPart {t p : Typed} (ht : t.ty.PairsTickets) (hp : p.IsPart t) :
    p.ty.PairsTickets := by
  induction hp with
  | refl => exact ht
  | tail _ hmem ih => exact pairsTickets_of_mem_parts ih hmem

/-- **No change goes unreported**: a value agrees with an earlier one beside which nothing in
its presentation is marked, unless parts at the same place differ where nothing is ever
marked. -/
theorem agrees_of_unchanged {loaded : Bool} {ty : Ty} {v w : Val} {m : Presentation}
    (hty : ty.PairsTickets) (hv : ty.Holds loaded v) (hw : ty.Holds loaded w)
    (hblur : ∀ path path' x y, SamePlace ⟨ty, v⟩ ⟨ty, w⟩ path path' x y → ¬Blurred x y)
    (h : ty.diff v ty w = .ok m) (hm : m.hasChanges = false) : ty.Agrees v w := by
  obtain ⟨d, ss, cs, hd, hss, hcs, rfl⟩ := (diff_eq_ok_iff hv hw).1 h
  obtain ⟨hmark, hchildren⟩ := Presentation.hasChanges_eq_false_iff.1 hm
  -- The node agrees by its own mark; what is left are the slots, each with its child.
  refine agrees_of_slots hty hv hw (hblur _ _ _ _ .here) hd hmark hss fun slot hslot => ?_
  obtain ⟨c, hc, hchild⟩ := exists_of_mem_of_mapM hcs slot hslot
  replace hc : c.hasChanges = false := hchildren c hc
  cases slot with
  | both x y =>
    obtain ⟨n, hn⟩ := List.mem_iff_getElem?.1 hslot
    obtain ⟨j, -, hbeside⟩ := exists_beside hv hw hss hn
    obtain ⟨hparts, hsize, hx, hy⟩ := holds_of_both hv hw hss hslot
    obtain ⟨m', hm', hlabel⟩ := bind_eq_ok_iff.1 hchild
    rw [Typed.diff, ← hparts] at hm'
    refine ⟨hparts, agrees_of_unchanged ?_ hx hy ?_ hm' ?_⟩
    · have hpiece := (mem_pieces_of_slots hv hw hss hslot).1 x rfl
      exact pairsTickets_of_isPart hty (isPart_of_mem_pieces hpiece)
    · intro path path' x' y' hplace
      have hpart : Typed.mk x.part.ty y.part.val = y.part := by rw [hparts]
      rw [hpart] at hplace
      exact hblur _ _ _ _ (.inside hbeside hplace)
    · rw [← Label.hasChanges_of_apply hlabel]
      exact hc
  | same x y => trivial
  | fresh x =>
    obtain ⟨q, -, rfl⟩ := exists_present_of_fresh hchild
    cases q.hasChanges_mark.symm.trans hc
  | gone y =>
    obtain ⟨q, -, rfl⟩ := exists_present_of_gone hchild
    cases q.hasChanges_mark.symm.trans hc
termination_by ty.size

/-! ### Types that show everything -/

/-- Whether what is shown of a literal tells it from all others. -/
def showsLiterals : Content → Bool
  | .identifier .address => false
  | .field => false
  | _ => true

/-- Whether no two parts of values of the type are confused.  Keys and elements are compared
and need not be told apart by what is shown. -/
def showsAll : Ty → Bool
  | .unit _ => true
  | .bool _ => true
  | .scalar _ kind => showsLiterals kind.content
  | .pair _ left right => left.showsAll && right.showsAll
  | .or _ left right => left.showsAll && right.showsAll
  | .option _ inner => inner.showsAll
  | .list _ elem => elem.showsAll
  | .set _ _ => true
  | .map _ _ value => value.showsAll
  | _ => false

section ShowsAll

variable {ty : Ty} {v : Val} {x y : Typed}

theorem showsAll_of_mem_members (hty : ty.showsAll = true) (h : x ∈ Typed.members ty v) :
    x.ty.showsAll = true := by
  induction ty generalizing v with
  | pair i l r ihl ihr =>
    obtain ⟨hl, hr⟩ := Bool.and_eq_true_iff.1 hty
    cases v with
    | pair a b comb =>
      rw [Typed.members] at h
      rcases List.mem_append.1 h with h | h
      · split at h
        next => exact ihl hl h
        next =>
          obtain rfl := List.mem_singleton.1 h
          exact hl
      · split at h
        next => exact ihr hr h
        next =>
          obtain rfl := List.mem_singleton.1 h
          exact hr
    | _ => cases h
  | _ => cases v <;> cases h

theorem showsAll_of_activeLeaf? {path : List Side} (hty : ty.showsAll = true)
    (h : Typed.activeLeaf? ty v = some (path, x)) : x.ty.showsAll = true := by
  have hpick {i : Info} {l r : Ty} (side : Side) (h : (or i l r).showsAll = true) :
      (side.pick l r).showsAll = true := by
    obtain ⟨hl, hr⟩ := Bool.and_eq_true_iff.1 h
    cases side with
    | left => exact hl
    | right => exact hr
  rw [activeLeaf?_eq_some_iff] at h
  induction h with
  | leaf _ => exact hpick _ hty
  | inner _ _ ih => exact ih (hpick _ hty)

/-- Pieces of a type that shows all are of such types. -/
theorem showsAll_of_beside {t u : Typed} {j k : Nat} (ht : t.ty.showsAll = true)
    (h : Beside t u j k x y) : x.ty.showsAll = true := by
  cases h with
  | member hx _ => exact showsAll_of_mem_members ht (List.mem_of_getElem? hx)
  | leaf hx _ => exact showsAll_of_activeLeaf? ht hx
  | payload | item _ _ | entry _ _ _ => exact ht
  | bigEntry _ _ _ | ticket _ => cases ht

/-- What shows all is never blurred. -/
theorem not_blurred_of_showsAll (hx : x.ty.showsAll = true) : ¬Blurred x y := by
  intro h
  cases h with
  | pointer => cases hx
  | @scalar i kind x y h =>
    replace hx : showsLiterals kind.content = true := hx
    -- Only addresses spell a default, and only field elements have two kinds of digits.
    rcases h.cause with hspells | ⟨hfield, -⟩
    · generalize kind.content = content at hx hspells
      cases content with
      | identifier role =>
        cases role with
        | address => cases hx
        | _ => cases x <;> cases y <;> exact hspells Iff.rfl
      | _ => exact hspells Iff.rfl
    · rw [hfield] at hx
      cases hx
  | contract h => cases hx
  | @code ty n m hty _ _ _ =>
    cases ty with
    | lambda | saplingState | saplingTransaction | constant => cases hx
    | _ => cases hty

/-- **Values of types that show everything have no parts that are confused.** -/
theorem not_blurred_of_samePlace {t u : Typed} {path path' : List Nat}
    (ht : t.ty.showsAll = true) (h : SamePlace t u path path' x y) : ¬Blurred x y := by
  induction h with
  | here => exact not_blurred_of_showsAll ht
  | inside hbeside _ ih => exact ih (showsAll_of_beside ht hbeside)

end ShowsAll

/-! ### What goes unreported -/

/-- A leaf that shows what an earlier one showed is not marked. -/
theorem exists_diff_of_shown {loaded : Bool} {ty : Ty} {v w : Val} {shown : Option Shown}
    (hty : ty.isLeaf = true) (hv : ty.Holds loaded v) (hsv : ty.shown v = .ok shown)
    (hsw : ty.shown w = .ok shown) : ∃ m, ty.diff v ty w = .ok m ∧ m.hasChanges = false := by
  obtain ⟨p, hp⟩ := exists_shell_of_shown hty hv hsv
  rw [shell_of_isLeaf hty] at hp
  refine ⟨p, ?_, p.hasChanges_of_isPlain (isPlain_of_present hv hp)⟩
  rw [diff_of_isLeaf hty, hp, hsv, hsw]
  exact if_pos rfl

/-- Literals that are shown alike are not marked although their binary forms differ. -/
theorem unreported_of_literal {loaded : Bool} {ty : Ty} {content : Content} {x y : Literal}
    (hty : ty.HasLiteral content) (hv : ty.Holds loaded (.literal x))
    (h : Literal.Blurred content x y) :
    (∃ m, ty.diff (.literal x) ty (.literal y) = .ok m ∧ m.hasChanges = false)
      ∧ ¬ty.SameBinary (.literal x) (.literal y) := by
  have hleaf : ty.isLeaf = true := by cases hty <;> rfl
  have hshown (l : Literal) :
      ty.shown (.literal l) = (do return some (.text (← l.display content))) := by
    cases hty <;> rfl
  obtain ⟨text, hx, hy⟩ := h.shown
  have hsv : ty.shown (.literal x) = .ok (some (.text text)) :=
    (hshown x).trans (bind_eq_ok_iff.2 ⟨text, hx, rfl⟩)
  have hsw : ty.shown (.literal y) = .ok (some (.text text)) :=
    (hshown y).trans (bind_eq_ok_iff.2 ⟨text, hy, rfl⟩)
  constructor
  · exact exists_diff_of_shown hleaf hv hsv hsw
  · intro hsame
    obtain ⟨z, hz, hz'⟩ := (sameBinary_literal_iff hty).1 hsame
    exact h.optimize_ne hz hz' rfl

/-- Different code with one source text is not marked although its binary form changed. -/
theorem unreported_of_code {ty : Ty} {n m : Node} (hty : ty.isCode = true) (hne : n ≠ m)
    (h : n.michelson = m.michelson) :
    (∃ p, ty.diff (.code n) ty (.code m) = .ok p ∧ p.hasChanges = false)
      ∧ ¬ty.SameBinary (.code n) (.code m) := by
  constructor
  · obtain ⟨p, hp, hchanges⟩ := exists_diff_code hty hty rfl n m
    exact ⟨p, hp, Bool.eq_false_iff.2 fun hmarked => hchanges.1 hmarked h⟩
  · rintro ⟨o, hn, hm⟩
    rw [binaryForm_code hty] at hn hm
    exact hne ((Except.ok.inj hn).trans (Except.ok.inj hm).symm)

/-- **Nothing but changes goes unreported**: parts that are shown alike by mistake are
presented beside each other without a mark, and their binary forms differ. -/
theorem unreported_of_blurred {loaded : Bool} {ty : Ty} {v w : Val}
    (h : Blurred ⟨ty, v⟩ ⟨ty, w⟩) (hv : ty.Holds loaded v) (hw : ty.Holds loaded w) :
    (∃ m, ty.diff v ty w = .ok m ∧ m.hasChanges = false) ∧ ¬ty.SameBinary v w := by
  cases h with
  | pointer =>
    refine ⟨⟨_, (diff_eq_ok_iff hv hw).2 ⟨_, _, _, rfl, rfl, rfl, rfl⟩, rfl⟩, ?_⟩
    rintro ⟨n, hn, hn'⟩
    cases hn.trans hn'.symm
  | scalar h => exact unreported_of_literal .scalar hv h
  | contract h => exact unreported_of_literal .contract hv h
  | code hty hne h _ => exact unreported_of_code hty hne h

end Ty

end Micheline
