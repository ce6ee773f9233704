/-
Micheline/Proofs/Contract/Entrypoint.lean

Calls fit the entrypoints they name.  The argument of a call is the leaf that the value takes,
and its type is what the name is looked up as if no two entrypoints share a name; so the
argument settles on that type (`Tree.settle_argument_of_call`).

The default entrypoint is the exception.  Its name is reserved for a call with the whole value,
also where a leaf has that name; the argument then settles on the whole parameter, and not on
the leaf (`Tree.settle_argument_of_call_reserved`).
-/
import Mathlib.Data.List.Nodup
import Micheline.Contract.Entrypoint
import Micheline.Proofs.Form.Entered
import Micheline.Proofs.Node.Json
import Micheline.Proofs.Tree.Binary
import Micheline.Proofs.Tree.Reachable

namespace Micheline

/-! ### Entrypoints and their names -/

namespace Ty

/-- The leaf that a value takes is an entrypoint. -/
theorem mem_entrypoints_of_activeLeaf? {root : Ty} {v : Val} {path : List Side} {leaf : Typed}
    (hor : root.isOr = true) (h : Typed.activeLeaf? root v = some (path, leaf)) :
    (leaf.ty.name, leaf.ty) ∈ root.entrypoints := by
  rw [entrypoints, if_pos hor]
  exact List.mem_map.2 ⟨(path, leaf.ty), Ty.mem_leaves_of_activeLeaf? h, rfl⟩

end Ty

namespace Tree

variable {t : Tree} {root ty : Ty} {v : Val} {name : String} {c : Call}

theorem entrypoints_single (hroot : t.roots = [root]) : t.entrypoints = root.entrypoints := by
  rw [entrypoints, hroot]

/-- **An entrypoint is found by its name**, if no other one has the name. -/
theorem entrypoint?_of_mem (hnames : t.entrypointNames.Nodup) (h : (name, ty) ∈ t.entrypoints) :
    t.entrypoint? name = some ty := by
  rcases hfind : t.entrypoints.find? (fun e => e.1 == name) with - | found
  · exact absurd (beq_self_eq_true _) (List.find?_eq_none.1 hfind _ h)
  · have hname := List.find?_some hfind
    obtain rfl : found = (name, ty) :=
      List.inj_on_of_nodup_map hnames (List.mem_of_find?_eq_some hfind) h (eq_of_beq hname)
    rw [entrypoint?, hfind]
    rfl

/-- A name that is listed is found. -/
theorem exists_entrypoint? (h : name ∈ t.entrypointNames) : ∃ ty, t.entrypoint? name = some ty := by
  obtain ⟨e, he, rfl⟩ := List.mem_map.1 h
  obtain ⟨found, hfound⟩ : ∃ found, t.entrypoints.find? (fun x => x.1 == e.1) = some found :=
    Option.isSome_iff_exists.1 (List.find?_isSome.2 ⟨e, he, beq_self_eq_true _⟩)
  exact ⟨found.2, by rw [entrypoint?, hfound]; rfl⟩

/-! ### Calls -/

theorem current_single (hroot : t.roots = [root]) (hvalue : t.values = some [v]) :
    t.current = [⟨root, v⟩] := by
  rw [current_eq hvalue, hroot]
  rfl

theorem return_call_eq_ok_iff {x : Except Error Node} :
    (do return ⟨name, ← x⟩ : Except Error Call) = .ok c ↔ ∃ n, x = .ok n ∧ c = ⟨name, n⟩ := by
  rw [bind_eq_ok_iff]
  exact exists_congr fun n => and_congr_right fun _ => pure_eq_ok_iff.trans eq_comm

/-- A call with the whole value. -/
theorem call_whole_eq_ok_iff (hroot : t.roots = [root]) (hvalue : t.values = some [v])
    (hwhole : name = defaultEntrypoint ∨ root.isOr = false) :
    t.call name = .ok c ↔ ∃ n, root.project .preserve v = .ok n ∧ c = ⟨defaultEntrypoint, n⟩ := by
  have hcond : name = defaultEntrypoint ∨ (!root.isOr) = true := by simpa using hwhole
  have hcall : t.call name
      = (do return ⟨defaultEntrypoint, ← root.project .preserve v⟩ : Except Error Call) := by
    rw [call, current_single hroot hvalue, isSettled, hvalue]
    exact if_pos hcond
  rw [hcall, return_call_eq_ok_iff]

/-- A call with the leaf that the value takes. -/
theorem call_leaf_eq_ok_iff {path : List Side} {leaf : Typed} (hroot : t.roots = [root])
    (hvalue : t.values = some [v]) (hor : root.isOr = true) (hname : name ≠ defaultEntrypoint)
    (hleaf : Typed.activeLeaf? root v = some (path, leaf)) :
    t.call name = .ok c
      ↔ leaf.ty.name = name ∧ ∃ n, leaf.project .preserve = .ok n ∧ c = ⟨name, n⟩ := by
  -- neither reason to send the whole value holds
  have hcond : ¬ (name = defaultEntrypoint ∨ (!root.isOr) = true) := by simp [hname, hor]
  have hcall : t.call name = if leaf.ty.name = name
      then (do return ⟨name, ← leaf.project .preserve⟩ : Except Error Call)
      else .error (.different (.entrypoint leaf.ty.name name)) := by
    rw [call, current_single hroot hvalue, isSettled, hvalue]
    refine (if_neg hcond).trans ?_
    dsimp only
    rw [hleaf]
    by_cases heq : leaf.ty.name = name
    · rw [if_pos heq]
      exact if_neg (not_not.2 heq)
    · rw [if_neg heq]
      exact if_pos heq
  rw [hcall]
  split
  next heq => rw [return_call_eq_ok_iff, and_iff_right heq]
  next hne =>
    constructor
    · intro h
      cases h
    · exact fun h => absurd h.1 hne

/-! ### Arguments -/

/-- A parameter that is no choice is the default entrypoint. -/
theorem entrypoint_of_not_isOr (hroot : t.roots = [root]) (hor : root.isOr = false)
    (hname : name ∈ t.entrypointNames) :
    name = defaultEntrypoint ∧ t.entrypoint? name = some root := by
  have hentrypoints : t.entrypoints = [(defaultEntrypoint, root)] := by
    rw [entrypoints_single hroot, Ty.entrypoints, hor]
    rfl
  rw [entrypointNames, hentrypoints] at hname
  obtain rfl := List.mem_singleton.1 hname
  exact ⟨rfl, entrypoint?_of_mem (by simp [entrypointNames, hentrypoints]) (by simp [hentrypoints])⟩

/-- A value is written as it was settled. -/
theorem exists_argument (hv : ty.Holds true v) : ∃ n, ty.project .preserve v = .ok n :=
  Ty.exists_project_of_literals hv fun p _ => ⟨p.2, rfl⟩

/-- What is written as it was settled settles. -/
theorem exists_settle_argument {n : Node} (hv : ty.Holds true v)
    (hn : ty.project .preserve v = .ok n) : ∃ v', ty.settle n = .ok v' := by
  obtain ⟨v', hsettle, -⟩ := Ty.exists_settle_of_project isFaithful_preserve hv hn
  exact ⟨v', hsettle⟩

/-- The leaf that a value takes, which is an entrypoint. -/
theorem exists_leaf (hroot : t.roots = [root]) (hor : root.isOr = true) (hv : root.Holds true v) :
    ∃ path leaf, Typed.activeLeaf? root v = some (path, leaf)
      ∧ (leaf.ty.name, leaf.ty) ∈ t.entrypoints ∧ leaf.ty.Holds true leaf.val := by
  obtain ⟨path, leaf, hleaf⟩ : ∃ path leaf, Typed.activeLeaf? root v = some (path, leaf) := by
    cases root with
    | or i left right => exact Ty.exists_activeLeaf? hv
    | _ => cases hor
  refine ⟨path, leaf, hleaf, ?_, ?_⟩
  · rw [entrypoints_single hroot]
    exact Ty.mem_entrypoints_of_activeLeaf? hor hleaf
  · exact Typed.holds_of_isPart hv (Typed.isPart_of_activeLeaf? hleaf)

/-- There is an entrypoint that the value calls. -/
theorem exists_call (hroot : t.roots = [root]) (hvalue : t.values = some [v])
    (hv : root.Holds true v) : ∃ name ∈ t.entrypointNames, ∃ c, t.call name = .ok c := by
  obtain ⟨whole, hwhole⟩ := exists_argument hv
  rcases hor : root.isOr with - | -
  · refine ⟨defaultEntrypoint, ?_, _, (call_whole_eq_ok_iff hroot hvalue (.inr hor)).2
      ⟨whole, hwhole, rfl⟩⟩
    simp [entrypointNames, entrypoints_single hroot, Ty.entrypoints, hor]
  · obtain ⟨path, leaf, hleaf, hmem, hheld⟩ := exists_leaf hroot hor hv
    refine ⟨leaf.ty.name, List.mem_map.2 ⟨_, hmem, rfl⟩, ?_⟩
    by_cases hname : leaf.ty.name = defaultEntrypoint
    · exact ⟨_, (call_whole_eq_ok_iff hroot hvalue (.inl hname)).2 ⟨whole, hwhole, rfl⟩⟩
    · obtain ⟨n, hn⟩ := exists_argument hheld
      exact ⟨_, (call_leaf_eq_ok_iff hroot hvalue hor hname hleaf).2 ⟨rfl, n, hn, rfl⟩⟩

/-- **A call fits the entrypoint it names.**  If no two entrypoints share a name, the argument
of a call settles on the type of its entrypoint; but the default entrypoint of a choice takes
the whole value, which settles on the choice.  And there is an entrypoint that is called. -/
theorem settle_argument_of_call (ht : t.IsFilled) (hroot : t.roots = [root])
    (hnames : t.entrypointNames.Nodup) :
    (∀ name ∈ t.entrypointNames, ∀ c, t.call name = .ok c →
      c.entrypoint = name
        ∧ ∃ json n ty, c.toJson = .obj [("entrypoint", .str name), ("value", json)]
          ∧ Node.ofJson json = .ok n ∧ t.entrypoint? name = some ty
          ∧ (name ≠ defaultEntrypoint ∨ root.isOr = false → ∃ v, ty.settle n = .ok v)
          ∧ (name = defaultEntrypoint →
            t.project .preserve = .ok [n] ∧ ∃ v, root.settle n = .ok v))
      ∧ ∃ name ∈ t.entrypointNames, ∃ c, t.call name = .ok c := by
  obtain ⟨v, hvalue, hv⟩ := exists_value ht.holds hroot
  refine ⟨fun name hname c hc => ?_, exists_call hroot hvalue hv⟩
  obtain ⟨ty, hty⟩ := exists_entrypoint? hname
  by_cases hdefault : name = defaultEntrypoint
  · -- the whole value, whether a leaf has the name or not
    obtain ⟨n, hn, rfl⟩ := (call_whole_eq_ok_iff hroot hvalue (.inl hdefault)).1 hc
    have hsettle := exists_settle_argument hv hn
    refine ⟨hdefault.symm, n.toJson, n, ty, by rw [hdefault]; rfl, Node.ofJson_toJson n, hty, ?_,
      fun _ => ⟨(project_single_iff hroot hvalue).2 ⟨n, hn, rfl⟩, hsettle⟩⟩
    rintro (hne | hor)
    · exact absurd hdefault hne
    · obtain rfl := Option.some.inj (hty.symm.trans (entrypoint_of_not_isOr hroot hor hname).2)
      exact hsettle
  · -- only a choice has an entrypoint of another name: the leaf that the value takes
    have hor : root.isOr = true :=
      eq_true_of_ne_false fun h => hdefault (entrypoint_of_not_isOr hroot h hname).1
    obtain ⟨path, leaf, hleaf, hmem, hheld⟩ := exists_leaf hroot hor hv
    obtain ⟨rfl, n, hn, rfl⟩ := (call_leaf_eq_ok_iff hroot hvalue hor hdefault hleaf).1 hc
    obtain rfl := Option.some.inj (hty.symm.trans (entrypoint?_of_mem hnames hmem))
    exact ⟨rfl, n.toJson, n, leaf.ty, rfl, Node.ofJson_toJson n, hty,
      fun _ => exists_settle_argument hheld hn, fun h => absurd h hdefault⟩

/-- A choice inside a choice, of which the value takes the second leaf. -/
theorem settle_argument_of_call_approve :
    let number : Ty := .scalar ⟨0, 0, ["%transfer"]⟩ .nat
    let text : Ty := .scalar ⟨0, 0, ["%approve"]⟩ .string
    let root : Ty := .or ⟨0, 0, []⟩ (.or ⟨0, 0, []⟩ number text) (.unit ⟨0, 0, ["%default"]⟩)
    let whole : Node := .app "Left" [.app "Right" [.string "a"]]
    let t : Tree := ⟨[root], some [.left (.right (.literal (.string "a")))]⟩
    t.IsFilled ∧ t.entrypointNames.Nodup
      ∧ t.call "approve" = .ok ⟨"approve", .string "a"⟩ ∧ t.call "default" = .ok ⟨"default", whole⟩
      ∧ (∃ ty, t.entrypoint? "approve" = some ty ∧ ∃ v, ty.settle (.string "a") = .ok v)
      ∧ ∃ v, root.settle whole = .ok v := by
  intro number text root whole t
  have ht : t.IsFilled := @IsFilled.settle ⟨[root], none⟩ t [whole] rfl
  have hnames : t.entrypointNames = ["transfer", "approve", "default"] := by decide +kernel
  have hnodup : t.entrypointNames.Nodup := by
    rw [hnames]
    decide
  have happrove : t.call "approve" = .ok ⟨"approve", .string "a"⟩ :=
    (call_leaf_eq_ok_iff rfl rfl rfl (by decide) rfl).2 ⟨by decide +kernel, _, rfl, rfl⟩
  have hdefault : t.call "default" = .ok ⟨"default", whole⟩ :=
    (call_whole_eq_ok_iff rfl rfl (.inl rfl)).2 ⟨_, rfl, rfl⟩
  obtain ⟨hcall, -⟩ := settle_argument_of_call ht rfl hnodup
  rw [hnames] at hcall
  refine ⟨ht, hnodup, happrove, hdefault, ?_, ?_⟩
  · obtain ⟨-, json, n, ty, hjson, hn, hty, hfits, -⟩ := hcall "approve" (by decide) _ happrove
    obtain rfl : (Node.string "a").toJson = json := by simpa [Call.toJson] using hjson
    obtain rfl := Except.ok.inj ((Node.ofJson_toJson _).symm.trans hn)
    exact ⟨ty, hty, hfits (.inl (by decide))⟩
  · obtain ⟨-, json, n, ty, hjson, hn, -, -, hwhole⟩ := hcall "default" (by decide) _ hdefault
    obtain rfl : whole.toJson = json := by simpa [Call.toJson] using hjson
    obtain rfl := Except.ok.inj ((Node.ofJson_toJson _).symm.trans hn)
    exact (hwhole rfl).2

/-- Where a leaf has the name of the default entrypoint, the argument is the whole value all
the same, which does not settle on the leaf. -/
theorem settle_argument_of_call_reserved :
    let root : Ty := .or ⟨0, 0, []⟩ (.scalar ⟨1, 0, ["%default"]⟩ .nat)
      (.scalar ⟨2, 0, ["%other"]⟩ .string)
    let t : Tree := ⟨[root], some [.left (.literal (.int 5))]⟩
    Tree.settle ⟨[root], none⟩ [.app "Left" [.int 5]] = .ok t
      ∧ t.entrypointNames = ["default", "other"]
      ∧ ∃ c ty, t.call "default" = .ok c ∧ t.entrypoint? "default" = some ty
        ∧ ∀ v, ty.settle c.argument ≠ .ok v := by
  intro root t
  refine ⟨rfl, by decide +kernel, _, .scalar ⟨1, 0, ["%default"]⟩ .nat,
    (call_whole_eq_ok_iff rfl rfl (.inl rfl)).2 ⟨_, rfl, rfl⟩, by decide +kernel, ?_⟩
  intro v
  exact nofun

end Tree

end Micheline
