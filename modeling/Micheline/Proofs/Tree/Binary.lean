/-
Micheline/Proofs/Tree/Binary.lean

Trees in binary form.  What the bytes of a tree with one root settle to, on a tree with the
same root, is not the value that was written but what the optimized form makes of it; from
there on nothing changes, and the bytes are written again (`Tree.settleBytes_of_encode`).

The values are all those that trees come to have, by settling and by updates of the big maps
(`Tree.IsFilled`).
-/
import Micheline.Proofs.Binary.RoundTrip
import Micheline.Proofs.Tree.Preserve
import Micheline.Proofs.Value.Enrich
import Micheline.Proofs.Value.Payload
import Micheline.Proofs.Value.Restate
import Micheline.Tree.Change

namespace Micheline

namespace Tree

/-! ### Trees with values -/

/-- The trees that come of settling and of updates of the big maps. -/
inductive IsFilled : Tree → Prop
  | settle {t₀ t : Tree} {ns : List Node} (h : t₀.settle ns = .ok t) : IsFilled t
  | enrich {t t' : Tree} {updates : List BigMapUpdate} {count : Nat} (ht : IsFilled t)
      (h : t.enrich updates = .ok (t', count)) : IsFilled t'

theorem Holds.mono {t : Tree} (h : t.Holds false) : t.Holds true := by
  obtain ⟨values, hvalues, hheld⟩ := h
  exact ⟨values, hvalues, hheld.imp fun _ _ => Ty.Holds.mono⟩

/-- Updated roots hold what they are updated to. -/
theorem forall₂_of_mapM_enrich {updates : List BigMapUpdate} {roots : List Ty}
    {values : List Val} {done : List (Val × Nat)}
    (hheld : List.Forall₂ (Ty.Holds true) roots values)
    (h : (List.zipWith Typed.mk roots values).mapM (fun r => r.ty.enrich updates r.val)
      = .ok done) :
    List.Forall₂ (Ty.Holds true) roots (done.map (·.1)) := by
  induction hheld generalizing done with
  | nil =>
    obtain rfl := Except.ok.inj h
    exact .nil
  | cons hv _ ih =>
    rw [List.zipWith_cons_cons, List.mapM_cons, bind_eq_ok_iff] at h
    obtain ⟨⟨v', count⟩, hv', h⟩ := h
    obtain ⟨rest, hrest, h⟩ := bind_eq_ok_iff.1 h
    obtain rfl := pure_eq_ok_iff.1 h
    exact .cons (Ty.holds_of_enrich hv hv') (ih hrest)

/-- **Updates leave a tree with values that its roots hold.** -/
theorem holds_of_enrich {t t' : Tree} {updates : List BigMapUpdate} {count : Nat}
    (ht : t.Holds true) (h : t.enrich updates = .ok (t', count)) : t'.Holds true := by
  obtain ⟨values, hvalues, hheld⟩ := ht
  obtain ⟨roots, hroots, h⟩ := bind_eq_ok_iff.1 h
  rw [settled_eq hvalues] at hroots
  obtain rfl := Except.ok.inj hroots
  obtain ⟨done, hdone, h⟩ := bind_eq_ok_iff.1 h
  obtain ⟨rfl, -⟩ := Prod.mk.inj (pure_eq_ok_iff.1 h)
  exact ⟨done.map (·.1), rfl, forall₂_of_mapM_enrich hheld hdone⟩

theorem IsFilled.holds {t : Tree} (h : t.IsFilled) : t.Holds true := by
  induction h with
  | settle h => exact (holds_of_settle h).2.mono
  | enrich _ h ih => exact holds_of_enrich ih h

/-- The expressions that the values keep as they were written. -/
def payloads (t : Tree) : List Node :=
  t.current.flatMap fun r => r.ty.payloads r.val

/-! ### Trees with one root -/

section Single

variable {t u : Tree} {ty : Ty} {v : Val} {n : Node}

theorem exists_value {loaded : Bool} (h : t.Holds loaded) (hroot : t.roots = [ty]) :
    ∃ v, t.values = some [v] ∧ Ty.Holds loaded ty v := by
  obtain ⟨values, hvalues, hheld⟩ := h
  rw [hroot] at hheld
  obtain ⟨v, rest, hv, hrest, rfl⟩ := List.forall₂_cons_left_iff.1 hheld
  obtain rfl := List.forall₂_nil_left_iff.1 hrest
  exact ⟨v, hvalues, hv⟩

/-- A tree with one root is written as that root's value. -/
theorem project_single_iff {form : ValueForm} {ns : List Node} (hroot : t.roots = [ty])
    (hvalue : t.values = some [v]) :
    t.project form = .ok ns ↔ ∃ n, ty.project form v = .ok n ∧ ns = [n] := by
  rw [project, settled_eq hvalue, hroot]
  show [Typed.mk ty v].mapM (Typed.project form) = .ok ns ↔ _
  rw [mapM_eq_ok_iff, List.forall₂_cons_left_iff]
  constructor
  · rintro ⟨n, rest, hn, hrest, rfl⟩
    obtain rfl := List.forall₂_nil_left_iff.1 hrest
    exact ⟨n, hn, rfl⟩
  · rintro ⟨n, hn, rfl⟩
    exact ⟨n, [], hn, .nil, rfl⟩

theorem payloads_single (hroot : t.roots = [ty]) (hvalue : t.values = some [v]) :
    t.payloads = ty.payloads v := by
  simp [payloads, current, hroot, hvalue]

/-- A single expression that settles is the value of the only root. -/
theorem settle_single (hroot : u.roots = [ty]) (h : ty.settle n = .ok v) :
    u.settle [n] = .ok { u with values := some [v] } := by
  have hn : arrange u.roots [n] = .ok [n] :=
    arrange_of_takesWhole (hroot ▸ .cons (Ty.takesWhole_of_settle h) .nil)
  refine bind_eq_ok_iff.2 ⟨[n], hn, bind_eq_ok_iff.2 ⟨[v], ?_, rfl⟩⟩
  rw [hroot]
  exact mapM_eq_ok_iff.2 (.cons h .nil)

end Single

/-! ### Writing bytes and settling them -/

/-- **A tree with one root is read back from its bytes.**  On any tree with the same root,
the bytes and the packed data settle to one tree, which is written as settled the way the
original is written optimized, and has the same bytes. -/
theorem settleBytes_of_encode {t u : Tree} {b : Bytes} (ht : t.IsFilled)
    (hone : t.roots.length = 1) (hb : t.encode = .ok b)
    (hdepth : ∀ n, t.project .optimized = .ok [n] → n.depth ≤ 1000)
    (hspaced : ∀ n ∈ t.payloads, n.IsSpaced) (hu : u.roots = t.roots) :
    t.pack = .ok (0x05 :: b)
      ∧ ∃ w, u.settleBytes b = .ok w ∧ u.settlePacked (0x05 :: b) = .ok w
        ∧ w.project .preserve = t.project .optimized ∧ w.encode = .ok b := by
  obtain ⟨ty, hroot⟩ := List.length_eq_one_iff.1 hone
  obtain ⟨v, hvalue, hv⟩ := exists_value ht.holds hroot
  obtain ⟨ns, hns, hb⟩ := bind_eq_ok_iff.1 hb
  obtain ⟨n, hn, rfl⟩ := (project_single_iff hroot hvalue).1 hns
  have hbytes : Binary.encode n = .ok b := lift_eq_ok_iff.1 hb
  -- the bytes are those of the expression, whose annotations are words
  have hwords : n.IsSpaced := Ty.isSpaced_of_project hv hn (payloads_single hroot hvalue ▸ hspaced)
  obtain ⟨hread, hunpack⟩ := Binary.decode_of_encode hbytes (hdepth n hns) hwords
  -- and the expression settles to the value in the optimized form
  obtain ⟨v', hsettle, hkept, hagain⟩ :=
    Ty.exists_settle_of_project isFaithful_optimized hv hn
  let w : Tree := { u with values := some [v'] }
  have hw : u.settle [n] = .ok w := settle_single (hu.trans hroot) hsettle
  have hwroot : w.roots = [ty] := hu.trans hroot
  refine ⟨?_, w, ?_, ?_, ?_, ?_⟩
  · refine bind_eq_ok_iff.2 ⟨[n], hns, lift_eq_ok_iff.2 ?_⟩
    exact bind_eq_ok_iff.2 ⟨b, hbytes, rfl⟩
  · exact bind_eq_ok_iff.2 ⟨[n], lift_eq_ok_iff.2 hread, hw⟩
  · exact bind_eq_ok_iff.2 ⟨n, lift_eq_ok_iff.2 hunpack, hw⟩
  · rw [hns]
    exact (project_single_iff hwroot rfl).2 ⟨n, hkept, rfl⟩
  · have hwritten : w.project .optimized = .ok [n] :=
      (project_single_iff hwroot rfl).2 ⟨n, hagain, rfl⟩
    exact bind_eq_ok_iff.2 ⟨[n], hwritten, lift_eq_ok_iff.2 hbytes⟩

/-- A time that was settled as a text, beside a big map that a number was brought into. -/
theorem settleBytes_of_encode_loaded :
    let nat : Ty := .scalar ⟨0, 0, []⟩ .nat
    let ty : Ty := .pair ⟨0, 0, []⟩ (.scalar ⟨0, 0, []⟩ .timestamp) (.bigMap ⟨0, 0, []⟩ nat nat)
    let time : Val := .literal (.string "1970-01-01T00:00:10Z")
    let pairs : List (Val × Val) := [(.literal (.int 1), .literal (.int 10))]
    let t : Tree := ⟨[ty], some [.pair time (.entries (some 7) pairs) .seq]⟩
    let u : Tree := ⟨[ty], none⟩
    let b : Bytes := [2, 0, 0, 0, 13, 0, 10, 2, 0, 0, 0, 6, 7, 4, 0, 1, 0, 10]
    t.IsFilled ∧ t.encode = .ok b ∧ t.pack = .ok (0x05 :: b)
      ∧ ∃ w, u.settleBytes b = .ok w ∧ u.settlePacked (0x05 :: b) = .ok w
        ∧ w.project .preserve = t.project .optimized ∧ w.encode = .ok b := by
  intro nat ty time pairs t u b
  have hempty : u.settle [.seq [.string "1970-01-01T00:00:10Z", .int 7]]
      = .ok ⟨[ty], some [.pair time (.entries (some 7) []) .seq]⟩ := rfl
  have hloaded : Tree.enrich [⟨7, [0, 1], some [0, 10]⟩]
      ⟨[ty], some [.pair time (.entries (some 7) []) .seq]⟩ = .ok (t, 1) := rfl
  have ht : t.IsFilled := .enrich (.settle hempty) hloaded
  have hb : t.encode = .ok b := rfl
  refine ⟨ht, hb, settleBytes_of_encode ht rfl hb ?_ nofun rfl⟩
  intro n hn
  obtain rfl : _ = n := List.head_eq_of_cons_eq (Except.ok.inj hn)
  decide

end Tree

end Micheline
