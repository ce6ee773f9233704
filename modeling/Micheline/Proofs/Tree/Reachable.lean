/-
Micheline/Proofs/Tree/Reachable.lean

The states of a tree.  A tree starts without values and is changed by settling, in one of
four ways, and by updates of its big maps (`Tree.Change`).  Whatever the changes were, the
types are those that the tree started with and every root is sound (`Tree.Sound`).  A change
keeps this (`Sound.step`), so that it holds after any number of them (`Sound.after`).

All that is said of the states follows: what values look like, how they are written, and that
nothing of an earlier value is left after settling (`Tree.invariant_after`).
-/
import Micheline.Contract.Entrypoint
import Micheline.Form.Schema
import Micheline.Proofs.Tree.Binary
import Micheline.Proofs.Value.Literals
import Micheline.Proofs.Value.Parts
import Micheline.Tree.State

namespace Micheline.Tree

/-! ### Changes -/

theorem outcome_settling_of_error {t : Tree} {settled : Tree → Except Error Tree} {e : Error}
    (h : settled t = .error e) : (settling settled).outcome t = (.error e, t) :=
  Action.outcome_replace_of_error (map_eq_error_iff.2 h)

theorem outcome_enriching_of_error {t : Tree} {updates : List BigMapUpdate} {e : Error}
    (h : t.enrich updates = .error e) : (enriching updates).outcome t = (.error e, t) :=
  Action.outcome_replace_of_error (map_eq_error_iff.2 h)

/-- The tree after changes. -/
def after (t : Tree) (cs : List Change) : Tree :=
  cs.foldl step t

/-! ### Step lemmas -/

/-- The tree has the roots of another one, and either no values or some that the roots
hold. -/
structure Sound (t₀ t : Tree) : Prop where
  roots : t.roots = t₀.roots
  values : t.values = none ∨ t.Holds true

variable {t₀ t t' : Tree}

/-- Settling keeps a tree sound. -/
theorem Sound.of_settle {ns : List Node} (h : Sound t₀ t) (hs : t.settle ns = .ok t') :
    Sound t₀ t' := by
  obtain ⟨hroots, hheld⟩ := holds_of_settle hs
  exact ⟨hroots.trans h.roots, .inr hheld.mono⟩

/-- Updates leave the types as they are. -/
theorem roots_of_enrich {updates : List BigMapUpdate} {count : Nat}
    (h : t.enrich updates = .ok (t', count)) : t'.roots = t.roots := by
  obtain ⟨roots, -, h⟩ := bind_eq_ok_iff.1 h
  obtain ⟨done, -, h⟩ := bind_eq_ok_iff.1 h
  obtain ⟨rfl, -⟩ := Prod.mk.inj (pure_eq_ok_iff.1 h)
  rfl

/-- Updates keep a tree sound. -/
theorem Sound.of_enrich {updates : List BigMapUpdate} {count : Nat} (h : Sound t₀ t)
    (he : t.enrich updates = .ok (t', count)) : Sound t₀ t' := by
  refine ⟨(roots_of_enrich he).trans h.roots, .inr ?_⟩
  rcases h.values with hnone | hheld
  · -- a tree without values takes no updates
    obtain ⟨roots, hroots, -⟩ := bind_eq_ok_iff.1 he
    simp [settled, isSettled, hnone] at hroots
  · exact holds_of_enrich hheld he

/-- A tree that is put in the place of a sound one. -/
theorem Sound.replace {α : Type} {make : Tree → Except Error (α × Tree)} (h : Sound t₀ t)
    (hmake : ∀ a t', make t = .ok (a, t') → Sound t₀ t') :
    Sound t₀ ((Action.replace make).outcome t).2 := by
  rcases hm : make t with e | ⟨a, t'⟩
  · rw [Action.outcome_replace_of_error hm]
    exact h
  · rw [Action.outcome_replace_of_ok hm]
    exact hmake a t' hm

theorem Sound.settling {settled : Tree → Except Error Tree} (h : Sound t₀ t)
    (hsettled : ∀ t', settled t = .ok t' → Sound t₀ t') :
    Sound t₀ ((settling settled).outcome t).2 := by
  refine h.replace fun _ t' hm => ?_
  obtain ⟨t'', ht'', hm⟩ := bind_eq_ok_iff.1 hm
  obtain ⟨-, rfl⟩ := Prod.mk.inj (pure_eq_ok_iff.1 hm)
  exact hsettled t'' ht''

theorem Sound.enriching (h : Sound t₀ t) (updates : List BigMapUpdate) :
    Sound t₀ ((enriching updates).outcome t).2 := by
  refine h.replace fun _ t' hm => ?_
  obtain ⟨⟨t'', count⟩, he, hm⟩ := bind_eq_ok_iff.1 hm
  obtain ⟨-, rfl⟩ := Prod.mk.inj (pure_eq_ok_iff.1 hm)
  exact h.of_enrich he

/-- **A change**, whether it succeeds or fails. -/
theorem Sound.step (h : Sound t₀ t) (c : Change) : Sound t₀ (t.step c) := by
  cases c with
  | settle ns => exact h.settling fun t' hs => h.of_settle hs
  | settleBytes data =>
    refine h.settling fun t' hs => ?_
    obtain ⟨ns, -, hs⟩ := bind_eq_ok_iff.1 hs
    exact h.of_settle hs
  | settlePacked data =>
    refine h.settling fun t' hs => ?_
    obtain ⟨n, -, hs⟩ := bind_eq_ok_iff.1 hs
    exact h.of_settle hs
  | submit data =>
    refine h.settling fun t' hs => ?_
    obtain ⟨ns, -, hs⟩ := bind_eq_ok_iff.1 hs
    exact h.of_settle hs
  | enrich updates => exact h.enriching updates

/-! ### Runs -/

/-- **Changes one after another.** -/
theorem Sound.after (h : Sound t₀ t) (cs : List Change) : Sound t₀ (t.after cs) := by
  induction cs generalizing t with
  | nil => exact h
  | cons c cs ih => exact ih (h.step c)

theorem values_of_ofNodes {types : List Node} (h : ofNodes types = .ok t₀) : t₀.values = none := by
  obtain ⟨roots, -, h⟩ := bind_eq_ok_iff.1 h
  rw [← pure_eq_ok_iff.1 h]

/-- A tree of fresh types is sound. -/
theorem sound_of_ofNodes {types : List Node} (h : ofNodes types = .ok t₀) : Sound t₀ t₀ :=
  ⟨rfl, .inl (values_of_ofNodes h)⟩

/-! ### What is said of a state -/

/-- The roots of a tree without values. -/
theorem current_of_none (h : t.values = none) :
    t.current = t.roots.map fun ty => ⟨ty, ty.blank⟩ := by
  rw [current, h]
  show List.zipWith Typed.mk t.roots (t.roots.map Ty.blank) = _
  induction t.roots with
  | nil => rfl
  | cons ty roots ih => rw [List.map_cons, List.zipWith_cons_cons, ih, List.map_cons]

/-- Roots side by side with values of which something holds. -/
theorem zipWith_of_forall₂ {P : Ty → Val → Prop} {roots : List Ty} {values : List Val}
    (h : List.Forall₂ P roots values) :
    (List.zipWith Typed.mk roots values).map (·.ty) = roots
      ∧ ∀ r ∈ List.zipWith Typed.mk roots values, P r.ty r.val := by
  induction h with
  | nil => exact ⟨rfl, nofun⟩
  | cons hv _ ih =>
    rw [List.zipWith_cons_cons, List.map_cons, ih.1]
    exact ⟨rfl, List.forall_mem_cons.2 ⟨hv, ih.2⟩⟩

theorem Holds.forall_current (h : t.Holds true) :
    t.current.map (·.ty) = t.roots ∧ ∀ r ∈ t.current, r.ty.Holds true r.val := by
  obtain ⟨values, hvalues, hheld⟩ := h
  rw [current_eq hvalues]
  exact zipWith_of_forall₂ hheld

theorem Sound.map_ty (h : Sound t₀ t) : t.current.map (·.ty) = t₀.roots := by
  rw [← h.roots]
  rcases h.values with hnone | hheld
  · rw [current_of_none hnone, List.map_map]
    exact List.map_id _
  · exact hheld.forall_current.1

/-- Each root of a state is sound. -/
theorem Sound.forall_isSound (h : Sound t₀ t) : ∀ r ∈ t.current, r.IsSound := by
  intro r hr
  rcases h.values with hnone | hheld
  · rw [current_of_none hnone] at hr
    obtain ⟨ty, -, rfl⟩ := List.mem_map.1 hr
    exact .inl rfl
  · exact .inr (hheld.forall_current.2 r hr)

/-- **Clearing the roots gives the template.** -/
theorem Sound.map_clear (h : Sound t₀ t) :
    t.current.map Typed.clear = t₀.roots.map fun ty => ⟨ty, ty.blank⟩ := by
  have hclear : ∀ r ∈ t.current, r.clear = ⟨r.ty, r.ty.blank⟩ :=
    fun r hr => (h.forall_isSound r hr).clear
  rw [List.map_congr_left hclear, ← h.map_ty, List.map_map]
  rfl

/-- **A tree with values is written as it was settled.** -/
theorem Holds.exists_project_preserve (h : t.Holds true) : ∃ ns, t.project .preserve = .ok ns := by
  have hsettled : t.settled = .ok t.current := by
    obtain ⟨values, hvalues, -⟩ := h
    rw [settled_eq hvalues, current_eq hvalues]
  rw [project, hsettled]
  apply exists_mapM
  intro r hr
  have hheld := h.forall_current.2 r hr
  -- every literal is its own form
  exact Ty.exists_project_of_literals hheld fun p _ => ⟨p.2, rfl⟩

/-- Settling does not look at the values that were there. -/
theorem settle_congr {ns : List Node} (h : t.roots = t₀.roots) : t.settle ns = t₀.settle ns := by
  simp only [settle, h]

/-- **The states of a tree.**  After any changes, failed or not, to a tree of fresh types:
clearing the roots gives the types alone, and so it does for every part at any depth; a tree
with values is written as it was settled; sets and the keys of maps ascend; what is said of
the types is what the fresh tree says; and settling gives what it gives on the fresh tree.

The last two hold by the way trees are represented: the values stand beside the types, no
change touches the types, and neither what is said of types nor settling looks at values. -/
theorem invariant_after {types : List Node} (h : ofNodes types = .ok t₀) (cs : List Change) :
    ((t₀.after cs).current.length = t₀.roots.length
        ∧ (t₀.after cs).current.map Typed.clear = t₀.current
        ∧ ∀ r ∈ (t₀.after cs).current, ∀ p : Typed, p.IsPart r → p.clear = p.template)
      ∧ ((t₀.after cs).isSettled = true → ∃ ns, (t₀.after cs).project .preserve = .ok ns)
      ∧ (∀ r ∈ (t₀.after cs).current, ∀ p : Typed, p.IsPart r → p.Ascends)
      ∧ ((t₀.after cs).typeJson = t₀.typeJson ∧ (t₀.after cs).entrypoints = t₀.entrypoints
        ∧ (t₀.after cs).entrypointDocs = t₀.entrypointDocs ∧ (t₀.after cs).docs = t₀.docs
        ∧ ∀ now, (t₀.after cs).schema now = t₀.schema now)
      ∧ ∀ ns, (t₀.after cs).settle ns = t₀.settle ns := by
  have hs : Sound t₀ (t₀.after cs) := (sound_of_ofNodes h).after cs
  have hfresh := current_of_none (values_of_ofNodes h)
  -- From here on only soundness is used, not how the tree came about.
  generalize t₀.after cs = t at hs
  refine ⟨⟨?_, ?_, ?_⟩, ?_, ?_, ?_, ?_⟩
  · rw [← hs.map_ty, List.length_map]
  · rw [hs.map_clear, hfresh]
  · intro r hr p hp
    exact (hs.forall_isSound r hr).clear_part hp
  · intro hsettled
    refine (hs.values.resolve_left fun hnone => ?_).exists_project_preserve
    rw [isSettled, hnone] at hsettled
    cases hsettled
  · intro r hr p hp
    exact (hs.forall_isSound r hr).ascends_part hp
  · have hroots := hs.roots
    simp only [typeJson, typeNodes, entrypointDocs, entrypoints, docs, schema, wrappedSchema,
      hroots]
    exact ⟨trivial, trivial, trivial, trivial, fun _ => trivial⟩
  · intro ns
    exact settle_congr hs.roots

/-- A set beside a big map, settled after bytes that are no value, then loaded; at last a value
that does not fit. -/
theorem invariant_after_loaded :
    let nat : Node := .app "nat" []
    let types : List Node := [.app "pair" [.app "set" [nat], .app "big_map" [nat, nat]]]
    let cs : List Change := [.settleBytes [0x0a],
      .settle [.app "Pair" [.seq [.int 2, .int 1], .int 7]],
      .enrich [⟨7, [0, 1], some [0, 10]⟩], .settle [.int 0]]
    ∃ t₀, ofNodes types = .ok t₀
      ∧ (t₀.after cs).values = some [.pair (.items [.literal (.int 1), .literal (.int 2)])
          (.entries (some 7) [(.literal (.int 1), .literal (.int 10))]) .pair]
      ∧ (t₀.after cs).current.map Typed.clear = t₀.current
      ∧ (∃ ns, (t₀.after cs).project .preserve = .ok ns)
      ∧ ∀ ns, (t₀.after cs).settle ns = t₀.settle ns := by
  intro nat types cs
  have h : ofNodes types = .ok ⟨[_], none⟩ := rfl
  obtain ⟨⟨-, hclear, -⟩, hproject, -, -, hsettle⟩ := invariant_after h cs
  exact ⟨_, h, rfl, hclear, hproject rfl, hsettle⟩

end Micheline.Tree
