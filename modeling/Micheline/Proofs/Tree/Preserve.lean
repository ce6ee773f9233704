/-
Micheline/Proofs/Tree/Preserve.lean

Trees that write their values as they were settled.  What a tree writes is taken root by
root (`Tree.arrange_of_takesWhole`), whatever the number of its roots, so that it settles to
the same tree (`Tree.settle_project_preserve`).
-/
import Micheline.Proofs.Value.Preserve
import Micheline.Tree.Project
import Micheline.Tree.Settle

namespace Micheline

namespace Ty

/-- An expression that settles is a whole value. -/
theorem takesWhole_of_settle {ty : Ty} {n : Node} {v : Val} (h : ty.settle n = .ok v) :
    ty.takesWhole n = true := by
  cases ty with
  | list i elem =>
    obtain ⟨items, -, rfl, -⟩ := settle_list_eq_ok_iff.1 h
    rfl
  | set i elem =>
    obtain ⟨items, -, -, rfl, -⟩ := settle_set_eq_ok_iff.1 h
    rfl
  | map i key value =>
    obtain ⟨items, -, -, rfl, -⟩ := settle_map_eq_ok_iff.1 h
    rfl
  | bigMap i key value =>
    obtain ⟨id, rfl, -⟩ | ⟨items, -, -, rfl, -⟩ := settle_bigMap_eq_ok_iff.1 h
    · rfl
    · rfl
  -- Code is a list, or the one application that a lambda takes.
  | lambda i param result =>
    obtain ⟨-, ⟨items, rfl⟩ | hname⟩ := settle_lambda_eq_ok_iff.1 h
    · rfl
    · cases n with
      | prim name args annots =>
        obtain rfl := Option.some.inj hname
        rfl
      | _ => cases hname
  | _ => rfl

end Ty

namespace Tree

/-! ### Roots and their values -/

/-- The tree has a value for each root, and the roots hold their values. -/
def Holds (loaded : Bool) (t : Tree) : Prop :=
  ∃ values, t.values = some values ∧ List.Forall₂ (Ty.Holds loaded) t.roots values

/-- The roots and values of a settled tree, side by side. -/
theorem current_eq {t : Tree} {values : List Val} (h : t.values = some values) :
    t.current = List.zipWith Typed.mk t.roots values := by
  rw [current, h]
  rfl

theorem settled_eq {t : Tree} {values : List Val} (h : t.values = some values) :
    t.settled = .ok (List.zipWith Typed.mk t.roots values) := by
  rw [settled, isSettled, current_eq h, h]
  rfl

/-- Expressions that look like whole values are arranged as they are. -/
theorem arrange_of_takesWhole {roots : List Ty} {ns : List Node}
    (h : List.Forall₂ (fun ty n => ty.takesWhole n = true) roots ns) :
    arrange roots ns = .ok ns := by
  have hlen := h.length_eq
  match roots, ns, h with
  | [], [], _ => rfl
  -- a single root could take the expressions as its items
  | [root], [n], .cons hn .nil =>
    rw [arrange, if_pos (by simpa using hn)]
  | a :: b :: rest, ns, _ =>
    rw [arrange, if_pos hlen]
    exact nofun

/-- There is one expression for each root. -/
theorem length_of_arrange {roots : List Ty} {ns ms : List Node}
    (h : arrange roots ns = .ok ms) : roots.length = ms.length := by
  -- A single root may take all nodes as one sequence; more roots take one node each.
  match roots with
  | [] =>
    rw [arrange] at h
    split at h
    next hlen => exact Except.ok.inj h ▸ hlen
    next => cases h
    exact nofun
  | [root] =>
    rw [arrange] at h
    split at h
    next hlen => exact Except.ok.inj h ▸ hlen.1.symm
    next =>
      split at h
      next => exact Except.ok.inj h ▸ rfl
      next => cases h
  | a :: b :: rest =>
    rw [arrange] at h
    split at h
    next hlen => exact Except.ok.inj h ▸ hlen
    next => cases h
    exact nofun

/-- What follows for each root from its expression follows for the values of all of them. -/
theorem forall₂_of_settle_roots {R : Ty → Node → Prop} {S : Ty → Val → Prop} {roots : List Ty}
    {ns : List Node} {values : List Val} (hroots : List.Forall₂ R roots ns)
    (h : (roots.zip ns).mapM (fun (root, n) => root.settle n) = .ok values)
    (hstep : ∀ root n v, R root n → root.settle n = .ok v → S root v) :
    List.Forall₂ S roots values := by
  induction hroots generalizing values with
  | nil =>
    obtain rfl := Except.ok.inj h
    exact .nil
  | cons hroot _ ih =>
    rw [List.zip_cons_cons, List.mapM_cons, bind_eq_ok_iff] at h
    obtain ⟨v, hv, h⟩ := h
    obtain ⟨vs, hvs, h⟩ := bind_eq_ok_iff.1 h
    obtain rfl := pure_eq_ok_iff.1 h
    exact .cons (hstep _ _ v hroot hv) (ih hvs)

/-- **What a tree settles it holds.** -/
theorem holds_of_settle {t₀ t : Tree} {ns : List Node} (h : t₀.settle ns = .ok t) :
    t.roots = t₀.roots ∧ t.Holds false := by
  rw [settle, bind_eq_ok_iff] at h
  obtain ⟨ms, hms, h⟩ := h
  obtain ⟨values, hvalues, h⟩ := bind_eq_ok_iff.1 h
  obtain rfl := pure_eq_ok_iff.1 h
  have hroots : List.Forall₂ (fun _ _ => True) t₀.roots ms :=
    List.forall₂_iff_zip.2 ⟨length_of_arrange hms, fun _ => trivial⟩
  exact ⟨rfl, values, rfl,
    forall₂_of_settle_roots hroots hvalues fun _ _ _ _ => Ty.holds_of_settle⟩

/-! ### Writing and settling -/

/-- The roots write expressions that settle to what they hold. -/
theorem exists_project_roots {roots : List Ty} {values : List Val}
    (h : List.Forall₂ (Ty.Holds false) roots values) :
    ∃ ns, (List.zipWith Typed.mk roots values).mapM (Typed.project .preserve) = .ok ns
      ∧ List.Forall₂ (fun ty n => ty.takesWhole n = true) roots ns
      ∧ (roots.zip ns).mapM (fun (root, n) => root.settle n) = .ok values := by
  induction h with
  | nil => exact ⟨[], rfl, .nil, rfl⟩
  | @cons root v roots values hv _ ih =>
    obtain ⟨n, hn, hn'⟩ := Ty.exists_project_preserve hv
    obtain ⟨ns, hns, htakes, hns'⟩ := ih
    refine ⟨n :: ns, ?_, .cons (Ty.takesWhole_of_settle hn') htakes, ?_⟩
    · rw [List.zipWith_cons_cons, List.mapM_cons, hns, Typed.project, hn]
      rfl
    · rw [List.zip_cons_cons, List.mapM_cons, hns']
      show (root.settle n >>= _) = _
      rw [hn']
      rfl

/-- Expressions that settle root by root, and are what the values are written as. -/
theorem exists_values_of_forall₂ {form : ValueForm} {roots : List Ty} {ns : List Node}
    (h : List.Forall₂ (fun root n => ∃ v, root.settle n = .ok v ∧ root.project form v = .ok n)
      roots ns) :
    ∃ values, List.Forall₂ (fun ty n => ty.takesWhole n = true) roots ns
      ∧ (roots.zip ns).mapM (fun (root, n) => root.settle n) = .ok values
      ∧ (List.zipWith Typed.mk roots values).mapM (Typed.project form) = .ok ns := by
  induction h with
  | nil => exact ⟨[], .nil, rfl, rfl⟩
  | @cons root n roots ns hroot _ ih =>
    obtain ⟨v, hsettle, hagain⟩ := hroot
    obtain ⟨values, htakes, hsettles, hagains⟩ := ih
    refine ⟨v :: values, .cons (Ty.takesWhole_of_settle hsettle) htakes, ?_, ?_⟩
    · rw [List.zip_cons_cons, List.mapM_cons, hsettles]
      exact bind_eq_ok_iff.2 ⟨v, hsettle, rfl⟩
    · rw [List.zipWith_cons_cons, List.mapM_cons, hagains]
      exact bind_eq_ok_iff.2 ⟨n, hagain, rfl⟩

/-- **Expressions that settle root by root settle on the tree**, and are written again. -/
theorem exists_settle_of_forall₂ {form : ValueForm} {t : Tree} {ns : List Node}
    (h : List.Forall₂ (fun root n => ∃ v, root.settle n = .ok v ∧ root.project form v = .ok n)
      t.roots ns) :
    ∃ w, t.settle ns = .ok w ∧ w.project form = .ok ns := by
  obtain ⟨values, htakes, hsettles, hagains⟩ := exists_values_of_forall₂ h
  refine ⟨{ t with values := some values }, ?_, ?_⟩
  · exact bind_eq_ok_iff.2 ⟨ns, arrange_of_takesWhole htakes,
      bind_eq_ok_iff.2 ⟨values, hsettles, rfl⟩⟩
  · exact bind_eq_ok_iff.2 ⟨_, settled_eq rfl, hagains⟩

/-- **A settled tree settles to itself** from what it writes. -/
theorem settle_project_preserve {t : Tree} (h : t.Holds false) :
    ∃ ms, t.project .preserve = .ok ms ∧ t.settle ms = .ok t := by
  obtain ⟨values, hvalues, hheld⟩ := h
  obtain ⟨ms, hproject, htakes, hsettle⟩ := exists_project_roots hheld
  refine ⟨ms, ?_, ?_⟩
  · rw [project, settled_eq hvalues]
    exact hproject
  · rw [settle, arrange_of_takesWhole htakes]
    refine bind_eq_ok_iff.2 ⟨ms, rfl, bind_eq_ok_iff.2 ⟨values, hsettle, ?_⟩⟩
    rw [← hvalues]
    rfl

/-- **Values are written as they were settled.**  An expression that says nothing but its
value is written again, to the notation of every pair; and what a settled tree writes
settles to the same tree. -/
theorem project_preserve_lossless :
    (∀ {ty : Ty} {n : Node} {v : Val}, ty.settle n = .ok v → ty.IsVerbatim n →
        ty.project .preserve v = .ok n)
      ∧ ∀ {t₀ t : Tree} {ns : List Node}, t₀.settle ns = .ok t →
        ∃ ms, t.project .preserve = .ok ms ∧ t.settle ms = .ok t :=
  ⟨Ty.project_of_settle, fun h => settle_project_preserve (holds_of_settle h).2⟩

/-- Numbers and a set of them in one comb, which is kept. -/
theorem project_preserve_lossless_comb :
    let nat : Ty := .scalar ⟨0, 0, []⟩ .nat
    let comb : Ty := .pair ⟨0, 0, []⟩ nat (.pair ⟨0, 0, []⟩ nat (.set ⟨0, 0, []⟩ nat))
    let n : Node := .seq [.int 1, .int 2, .seq [.int 3, .int 5]]
    ∃ v, comb.settle n = .ok v ∧ comb.project .preserve v = .ok n
      ∧ ∃ ms, Tree.project .preserve ⟨[comb], some [v]⟩ = .ok ms
        ∧ Tree.settle ⟨[comb], some [v]⟩ ms = .ok ⟨[comb], some [v]⟩ := by
  intro nat comb n
  have h : comb.settle n = .ok (.pair (.literal (.int 1)) (.pair (.literal (.int 2))
      (.items [.literal (.int 3), .literal (.int 5)]) .seq) .joined) := rfl
  have hset : (Ty.set ⟨0, 0, []⟩ nat).IsVerbatim (.seq [.int 3, .int 5]) := by
    rintro _ ⟨⟩
    refine ⟨fun _ _ => trivial, ?_⟩
    rintro _ ⟨⟩
    exact .cons_cons rfl (.singleton _)
  have hn : comb.IsVerbatim n := by
    refine ⟨rfl, ?_⟩
    rintro _ _ _ ⟨⟩
    refine ⟨trivial, rfl, ?_⟩
    rintro _ _ _ ⟨⟩
    exact ⟨trivial, hset⟩
  have htree : Tree.settle ⟨[comb], none⟩ [n] = .ok ⟨[comb], some [_]⟩ := rfl
  exact ⟨_, h, project_preserve_lossless.1 h hn, project_preserve_lossless.2 htree⟩

end Tree

end Micheline
