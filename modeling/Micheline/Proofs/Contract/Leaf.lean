/-
Micheline/Proofs/Contract/Leaf.lean

One leaf, one path.  The leaves of a type, the leaf that a value takes, the expression of a
value and the call that it makes all mean the same branch by a path of sides
(`Tree.leaves_agree`).
-/
import Micheline.Proofs.Contract.Entrypoint
import Micheline.Proofs.Form.Submission

namespace Micheline

namespace Ty

/-- The paths of the leaves of a choice tell apart all ways down.  They differ, and none begins
with another; each leads through inner choices to its leaf, which is none; and whichever way
leads out of the inner choices, it passes exactly one leaf. -/
structure HasPaths (ty : Ty) : Prop where
  nodup : (ty.leaves.map (·.1)).Nodup
  prefixFree : ∀ a ∈ ty.leaves, ∀ b ∈ ty.leaves, a.1 <+: b.1 → a = b
  leads : ∀ a ∈ ty.leaves, a.1 ≠ [] ∧ ty.follow? a.1 = some a.2 ∧ a.2.isInnerOr = false
    ∧ ∀ before, before <+: a.1 → before ≠ [] → before ≠ a.1 →
      ∃ c, ty.follow? before = some c ∧ c.isInnerOr = true
  passes : ∀ path t, path ≠ [] → ty.follow? path = some t → t.isInnerOr = false →
    ∃! a, a ∈ ty.leaves ∧ a.1 <+: path

/-- **The leaves of a choice stand at paths.** -/
theorem hasPaths_of_isOr {ty : Ty} (hor : ty.isOr = true) : ty.HasPaths where
  nodup := nodup_leaves ty
  prefixFree _ ha _ hb h := eq_of_isPrefix ha hb h
  leads a ha := by
    obtain ⟨hnil, hfollow, hinner⟩ := follow?_of_mem_leaves ha
    exact ⟨hnil, hfollow, hinner, fun before => isInnerOr_of_isPrefix ha⟩
  passes _ _ hpath h ht := existsUnique_leaf hor hpath h ht

/-- There is one leaf at a path. -/
theorem mem_leaves_iff_of_mem {ty leaf other : Ty} {path : List Side}
    (h : (path, leaf) ∈ ty.leaves) : (path, other) ∈ ty.leaves ↔ other = leaf := by
  constructor
  · exact fun hother => congrArg Prod.snd (eq_of_isPrefix hother h List.prefix_rfl)
  · rintro rfl
    exact h

end Ty

namespace Typed

open Submission

/-- **A choice takes the leaf at its path**, and it is written as that leaf, under the sides of
the path. -/
theorem exists_leaf_of_isPart {p r : Typed} (hr : r.ty.Holds true r.val) (hp : p.IsPart r)
    (hor : p.ty.isOr = true) :
    ∃ path leaf, activeLeaf? p.ty p.val = some (path, leaf)
      ∧ (∀ ty, (path, ty) ∈ p.ty.leaves ↔ ty = leaf.ty)
      ∧ ∀ form, p.project form = (leaf.project form).map (wrap path) := by
  have hheld := holds_of_isPart hr hp
  obtain ⟨ty, v⟩ := p
  obtain ⟨path, leaf, hleaf⟩ : ∃ path leaf, activeLeaf? ty v = some (path, leaf) := by
    cases ty with
    | or i left right => exact Ty.exists_activeLeaf? hheld
    | _ => cases hor
  exact ⟨path, leaf, hleaf, fun _ => Ty.mem_leaves_iff_of_mem (Ty.mem_leaves_of_activeLeaf? hleaf),
    fun form => project_of_activeLeaf? form hleaf⟩

end Typed

namespace Tree

open Submission

/-- **Types, values, expressions and calls mean the same branches.**  The leaves of every choice
stand at paths.  A choice anywhere in a settled value takes the leaf that the type has at the
path, and it is written as that leaf, under the sides of the path, in each of the three forms.
Where the parameter is a choice, the leaf as it was settled is the argument of the call by its
name, and there is no call by another name but that of the default entrypoint. -/
theorem leaves_agree :
    (∀ ty : Ty, ty.isOr = true → ty.HasPaths)
    ∧ ∀ t : Tree, t.IsFilled →
      (t.current.map (·.ty) = t.roots ∧ ∀ r ∈ t.current, ∀ p : Typed, p.IsPart r →
        p.ty.isOr = true → ∃ path leaf, Typed.activeLeaf? p.ty p.val = some (path, leaf)
          ∧ (∀ ty, (path, ty) ∈ p.ty.leaves ↔ ty = leaf.ty)
          ∧ ∀ form, p.project form = (leaf.project form).map (wrap path))
      ∧ ∀ root : Ty, t.roots = [root] → root.isOr = true →
        ∃ v path leaf n, t.current = [⟨root, v⟩] ∧ Typed.activeLeaf? root v = some (path, leaf)
          ∧ leaf.project .preserve = .ok n
          ∧ ∀ name, name ≠ defaultEntrypoint → ∀ c,
            t.call name = .ok c ↔ name = leaf.ty.name ∧ c = ⟨name, n⟩ := by
  refine ⟨fun ty hor => Ty.hasPaths_of_isOr hor, fun t ht => ⟨?_, fun root hroot hor => ?_⟩⟩
  · obtain ⟨htys, hheld⟩ := ht.holds.forall_current
    exact ⟨htys, fun r hr p hp hor => Typed.exists_leaf_of_isPart (hheld r hr) hp hor⟩
  · obtain ⟨v, hvalue, hv⟩ := exists_value ht.holds hroot
    obtain ⟨path, leaf, hleaf, -, hheld⟩ := exists_leaf hroot hor hv
    obtain ⟨n, hn⟩ := exists_argument hheld
    refine ⟨v, path, leaf, n, current_single hroot hvalue, hleaf, hn, fun name hname c => ?_⟩
    rw [call_leaf_eq_ok_iff hroot hvalue hor hname hleaf, eq_comm]
    refine and_congr_right fun _ => ⟨?_, fun hc => ⟨n, hn, hc⟩⟩
    rintro ⟨m, hm, rfl⟩
    rw [Except.ok.inj (hn.symm.trans hm)]

/-- A choice between two numbers under one name, beside an inner choice: its value is the text
on the inner one. -/
theorem leaves_agree_approve :
    let number : Ty := .scalar ⟨0, 0, ["%transfer"]⟩ .nat
    let text : Ty := .scalar ⟨0, 0, ["%approve"]⟩ .string
    let admin : Ty := .or ⟨0, 0, ["%admin"]⟩ (.scalar ⟨0, 0, []⟩ .int) (.scalar ⟨0, 0, []⟩ .int)
    let root : Ty := .or ⟨0, 0, []⟩ (.or ⟨0, 0, []⟩ number text) admin
    let v : Val := .left (.right (.literal (.string "a")))
    let t : Tree := ⟨[root], some [v]⟩
    t.IsFilled
      ∧ root.leaves = [([.left, .left], number), ([.left, .right], text), ([.right], admin)]
      ∧ (∃! a, a ∈ root.leaves ∧ a.1 <+: [.right, .left])
      ∧ root.project .optimized v = .ok (.app "Left" [.app "Right" [.string "a"]])
      ∧ t.call "approve" = .ok ⟨"approve", .string "a"⟩ := by
  intro number text admin root v t
  have ht : t.IsFilled :=
    @IsFilled.settle ⟨[root], none⟩ t [.app "Left" [.app "Right" [.string "a"]]] rfl
  obtain ⟨hpaths, hvalues⟩ := leaves_agree
  obtain ⟨⟨-, hparts⟩, hcalls⟩ := hvalues t ht
  refine ⟨ht, rfl, (hpaths root rfl).passes [.right, .left] _ nofun rfl rfl, ?_, ?_⟩
  · obtain ⟨path, leaf, hleaf, -, hproject⟩ :=
      hparts ⟨root, v⟩ List.mem_cons_self ⟨root, v⟩ .refl rfl
    obtain ⟨rfl, rfl⟩ := Prod.mk.inj (Option.some.inj hleaf)
    exact hproject .optimized
  · obtain ⟨v', path, leaf, n, hcurrent, hleaf, hn, hcall⟩ := hcalls root rfl rfl
    obtain rfl : v = v' := congrArg Typed.val (List.cons.inj hcurrent).1
    obtain ⟨rfl, rfl⟩ := Prod.mk.inj (Option.some.inj hleaf)
    obtain rfl := Except.ok.inj hn
    exact (hcall "approve" (by decide) _).2 ⟨by decide +kernel, rfl⟩

end Tree

end Micheline
