/-
Micheline/Proofs/Tree/Readable.lean

Trees in readable form.  What a tree writes in readable form settles on any tree with the same
roots, to values that are written in binary form as those of the original, with every pair
nested and no default entrypoint (`Tree.project_optimized_of_settle_readable`).

Two kinds of literals do not come back (`Tree.project_optimized_of_settle_readable_ne`).  The
name of the default entrypoint is dropped behind an address, so that two elements or keys can
become one; and the text of a year that is not of four digits is not read.
-/
import Micheline.Proofs.Tree.Binary
import Micheline.Proofs.Value.Readable

namespace Micheline

namespace Tree

/-- The literals in the values. -/
def literals (t : Tree) : List (Content × Literal) :=
  t.current.flatMap fun r => r.ty.literals r.val

/-- The tree without the names of default entrypoints. -/
def dropDefault (t : Tree) : Tree :=
  { t with values := t.values.map (List.zipWith (Ty.mapLiterals Literal.dropDefault) t.roots) }

/-- The expressions of the values of a tree with every pair nested and with other literals. -/
def nestedWith (leaf : Content → Node → Node) (t : Tree) (ns : List Node) : List Node :=
  List.zipWith (Ty.nestedWith leaf) t.roots ns

/-- The expressions of the values of a tree with every pair nested. -/
def nested (t : Tree) (ns : List Node) : List Node :=
  List.zipWith Ty.nested t.roots ns

open Literal

/-! ### Roots -/

theorem zipWith_mapLiterals_eq_self {f : Content → Literal → Literal} {loaded : Bool}
    {roots : List Ty} {values : List Val} (hheld : List.Forall₂ (Ty.Holds loaded) roots values)
    (h : ∀ r ∈ List.zipWith Typed.mk roots values, ∀ x ∈ r.ty.literals r.val,
      f x.1 x.2 = x.2) :
    List.zipWith (Ty.mapLiterals f) roots values = values := by
  induction hheld with
  | nil => rfl
  | cons _ _ ih =>
    obtain ⟨hv, hvalues⟩ := List.forall_mem_cons.1 h
    rw [List.zipWith_cons_cons, Ty.mapLiterals_eq_self hv, ih hvalues]

/-- What the roots write in readable form settles root by root. -/
theorem exists_settle_roots {loaded : Bool} {roots : List Ty} {values : List Val}
    {rs : List Node} (hheld : List.Forall₂ (Ty.Holds loaded) roots values)
    (hdropped : List.Forall₂ (Ty.Holds loaded) roots
      (List.zipWith (Ty.mapLiterals Literal.dropDefault) roots values))
    (hdistant : ∀ r ∈ List.zipWith Typed.mk roots values, ∀ x ∈ r.ty.literals r.val,
      ¬IsDistant x.1 x.2)
    (h : (List.zipWith Typed.mk roots values).mapM (Typed.project .readable) = .ok rs) :
    ∃ values', List.Forall₂ (fun ty n => ty.takesWhole n = true) roots rs
      ∧ (roots.zip rs).mapM (fun (root, n) => root.settle n) = .ok values'
      ∧ ∀ leaf, (∀ r ∈ List.zipWith Typed.mk roots values, ∀ x ∈ r.ty.literals r.val,
          ReadsBack leaf x.1 x.2) →
        (List.zipWith Typed.mk roots values').mapM (Typed.project .optimized)
          = ((List.zipWith Typed.mk roots values).mapM (Typed.project .optimized)).map
              (List.zipWith (Ty.nestedWith leaf) roots) := by
  -- Root by root, with the leaf function quantified behind the values: these do not depend on it.
  induction hheld generalizing rs with
  | nil =>
    obtain rfl := Except.ok.inj h
    exact ⟨[], .nil, rfl, fun _ _ => rfl⟩
  | @cons root v roots values hv _ ih =>
    rw [List.zipWith_cons_cons] at hdropped hdistant h
    obtain ⟨hv₀, hdropped⟩ := List.forall₂_cons.1 hdropped
    obtain ⟨hnear, hdistant⟩ := List.forall_mem_cons.1 hdistant
    rw [List.mapM_cons, bind_eq_ok_iff] at h
    obtain ⟨n, hn, h⟩ := h
    obtain ⟨ns, hns, h⟩ := bind_eq_ok_iff.1 h
    obtain rfl := pure_eq_ok_iff.1 h
    obtain ⟨v', hsettle, hv'⟩ := Ty.exists_settle_of_project_readable hv hv₀ hnear hn
    obtain ⟨values', htakes, hsettles, hvalues'⟩ := ih hdropped hdistant hns
    refine ⟨v' :: values', .cons (Ty.takesWhole_of_settle hsettle) htakes, ?_, fun leaf hl => ?_⟩
    · rw [List.zip_cons_cons, List.mapM_cons, hsettles]
      show (root.settle n >>= _) = _
      rw [hsettle]
      rfl
    · rw [List.zipWith_cons_cons] at hl
      obtain ⟨hlv, hl⟩ := List.forall_mem_cons.1 hl
      have hhead : Typed.project .optimized ⟨root, v'⟩
          = (root.project .optimized v).map (root.nestedWith leaf) := hv' leaf hlv
      rw [List.zipWith_cons_cons, List.zipWith_cons_cons, List.mapM_cons, List.mapM_cons, hhead,
        hvalues' leaf hl, Typed.project]
      rcases root.project .optimized v with e | m
      · rfl
      rcases (List.zipWith Typed.mk roots values).mapM (Typed.project .optimized) with e | ms
      · rfl
      · rfl

/-! ### Trees -/

variable {t u : Tree} {rs : List Node}

/-- A tree that spells out no default entrypoint stays. -/
theorem dropDefault_eq_self (ht : t.Holds true) (h : ∀ x ∈ t.literals, ¬SpellsDefault x.1 x.2) :
    t.dropDefault = t := by
  obtain ⟨values, hvalues, hheld⟩ := ht
  have hself : List.zipWith (Ty.mapLiterals Literal.dropDefault) t.roots values = values :=
    zipWith_mapLiterals_eq_self hheld fun r hr x hx => Literal.dropDefault_eq_self
      (h x (List.mem_flatMap.2 ⟨r, current_eq hvalues ▸ hr, hx⟩))
  rw [dropDefault, hvalues, Option.map_some, hself, ← hvalues]

/-- What a tree writes in readable form settles on any tree with the same roots. -/
theorem exists_settle_of_project_readable (ht : t.IsFilled) (hu : u.roots = t.roots)
    (hdropped : t.dropDefault.Holds true) (hdistant : ∀ x ∈ t.literals, ¬IsDistant x.1 x.2)
    (hrs : t.project .readable = .ok rs) :
    ∃ w, u.settle rs = .ok w
      ∧ ∀ leaf, (∀ x ∈ t.literals, ReadsBack leaf x.1 x.2) →
        w.project .optimized = (t.project .optimized).map (t.nestedWith leaf) := by
  obtain ⟨values, hvalues, hheld⟩ := ht.holds
  -- The hypotheses on the tree's literals, carried over to the roots beside their values.
  have hmem : ∀ r ∈ List.zipWith Typed.mk t.roots values, ∀ x ∈ r.ty.literals r.val,
      x ∈ t.literals :=
    fun r hr x hx => List.mem_flatMap.2 ⟨r, current_eq hvalues ▸ hr, hx⟩
  have hdropped' : List.Forall₂ (Ty.Holds true) t.roots
      (List.zipWith (Ty.mapLiterals Literal.dropDefault) t.roots values) := by
    obtain ⟨values₀, hvalues₀, hheld₀⟩ := hdropped
    rw [dropDefault, hvalues] at hvalues₀
    exact Option.some.inj hvalues₀ ▸ hheld₀
  rw [project, settled_eq hvalues] at hrs
  obtain ⟨values', htakes, hsettle, hvalues'⟩ := exists_settle_roots hheld hdropped'
    (fun r hr x hx => hdistant x (hmem r hr x hx)) hrs
  let w : Tree := { u with values := some values' }
  refine ⟨w, ?_, fun leaf hl => ?_⟩
  · have harrange : arrange u.roots rs = .ok rs := hu ▸ arrange_of_takesWhole htakes
    refine bind_eq_ok_iff.2 ⟨rs, harrange, bind_eq_ok_iff.2 ⟨values', ?_, rfl⟩⟩
    rw [hu]
    exact hsettle
  · have hw : w.settled = .ok (List.zipWith Typed.mk t.roots values') := hu ▸ settled_eq rfl
    rw [project, project, hw, settled_eq hvalues]
    exact hvalues' leaf fun r hr x hx => hl x (hmem r hr x hx)

/-- **The readable form denotes the value**, but for default entrypoints.  The readable form of
a literal has the literal's binary form; and what a tree writes in readable form settles on
any tree with the same roots, to values that are written in binary form as those of the tree
are, with every pair nested.  Elements and keys must ascend without default entrypoints too. -/
theorem project_optimized_of_settle_readable :
    (∀ {content : Content} {l r : Literal}, readable content l = .ok r → ¬IsDistant content l →
        optimize content r = (optimize content l).map (Literal.dropDefault content)
          ∧ (¬SpellsDefault content l → optimize content r = optimize content l))
      ∧ ∀ {t u : Tree} {rs os : List Node}, t.IsFilled → u.roots = t.roots →
        t.project .readable = .ok rs → t.project .optimized = .ok os →
        (∀ x ∈ t.literals, ¬IsDistant x.1 x.2) →
        (t.dropDefault.Holds true → ∃ w, u.settle rs = .ok w
          ∧ w.project .optimized = .ok (t.nestedWith withoutDefault os))
        ∧ ((∀ x ∈ t.literals, ¬SpellsDefault x.1 x.2) → ∃ w, u.settle rs = .ok w
          ∧ w.project .optimized = .ok (t.nested os)) := by
  refine ⟨fun h hl => ⟨optimize_of_readable h hl, optimize_of_readable_of_not h hl⟩, ?_⟩
  intro t u rs os ht hu hrs hos hdistant
  refine ⟨fun hdropped => ?_, fun hnot => ?_⟩
  · obtain ⟨w, hw, hproject⟩ := exists_settle_of_project_readable ht hu hdropped hdistant hrs
    refine ⟨w, hw, ?_⟩
    rw [hproject withoutDefault fun x hx => readsBack_withoutDefault (hdistant x hx), hos]
    rfl
  · have hdropped : t.dropDefault.Holds true := (dropDefault_eq_self ht.holds hnot).symm ▸ ht.holds
    obtain ⟨w, hw, hproject⟩ := exists_settle_of_project_readable ht hu hdropped hdistant hrs
    refine ⟨w, hw, ?_⟩
    rw [hproject _ fun x hx => readsBack_self (hdistant x hx) (hnot x hx), hos]
    rfl

/-- Points in time behind an address, with the default entrypoint and without it. -/
theorem project_optimized_of_settle_readable_moments :
    let moment : Ty := .scalar ⟨0, 0, []⟩ .timestamp
    let ty : Ty := .pair ⟨0, 0, []⟩ (.scalar ⟨0, 0, []⟩ .address)
      (.pair ⟨0, 0, []⟩ moment (.set ⟨0, 0, []⟩ moment))
    let bare : Bytes := List.replicate 22 0
    let data : Bytes := bare ++ Utf8.encode "default"
    let comb (address : Bytes) : Node := .seq [.bytes address, .int (-1), .seq [.int 0, .int 10]]
    ∃ t s rs, Tree.settle ⟨[ty], none⟩ [comb data] = .ok t
      ∧ Tree.settle ⟨[ty], none⟩ [comb bare] = .ok s
      ∧ t.IsFilled ∧ t.dropDefault.Holds true ∧ (∀ x ∈ t.literals, ¬IsDistant x.1 x.2)
      ∧ s.IsFilled ∧ (∀ x ∈ s.literals, ¬IsDistant x.1 x.2)
      ∧ (∀ x ∈ s.literals, ¬SpellsDefault x.1 x.2)
      ∧ t.project .readable = .ok rs ∧ t.project .optimized = .ok [comb data]
      ∧ s.project .readable = .ok rs ∧ s.project .optimized = .ok [comb bare]
      ∧ optimize .time (.string "1969-12-31T23:59:59Z") = .ok (.int (-1))
      ∧ ∃ w, Tree.settle ⟨[ty], none⟩ rs = .ok w
        ∧ w.project .optimized = .ok (t.nestedWith withoutDefault [comb data])
        ∧ w.project .optimized = .ok [.app "Pair" [.bytes bare,
          .app "Pair" [.int (-1), .seq [.int 0, .int 10]]]] := by
  intro moment ty bare data comb
  obtain ⟨text, htext⟩ : ∃ text, Identifier.Address.ofBody bare = .ok text := ⟨_, rfl⟩
  obtain ⟨hbare, hdata, -⟩ := readable_default rfl htext
  let value (address : Bytes) : Val := .pair (.literal (.bytes address)) (.pair
    (.literal (.int (-1))) (.items [.literal (.int 0), .literal (.int 10)]) .seq) .joined
  let t : Tree := ⟨[ty], some [value data]⟩
  let s : Tree := ⟨[ty], some [value bare]⟩
  let n : Node := .app "Pair" [.string text, .app "Pair" [.string "1969-12-31T23:59:59Z",
    .seq [.string "1970-01-01T00:00:00Z", .string "1970-01-01T00:00:10Z"]]]
  have hn : ∀ address, readable (.identifier .address) (.bytes address) = .ok (.string text) →
      ty.project .readable (value address) = .ok n := fun address h =>
    bind_eq_ok_iff.2 ⟨.string text, bind_eq_ok_iff.2 ⟨.string text, h, rfl⟩, rfl⟩
  have hsettle : Tree.settle ⟨[ty], none⟩ [comb data] = .ok t := rfl
  have hsettle' : Tree.settle ⟨[ty], none⟩ [comb bare] = .ok s := rfl
  have hdropped : t.dropDefault = s := by decide +kernel
  have hheld : t.dropDefault.Holds true := hdropped ▸ (IsFilled.settle hsettle').holds
  have hrs : t.project .readable = .ok [n] :=
    (project_single_iff rfl rfl).2 ⟨n, hn data hdata, rfl⟩
  have hrs' : s.project .readable = .ok [n] :=
    (project_single_iff rfl rfl).2 ⟨n, hn bare hbare, rfl⟩
  have hdistant : ∀ x ∈ t.literals, ¬IsDistant x.1 x.2 := by decide +kernel
  have hdistant' : ∀ x ∈ s.literals, ¬IsDistant x.1 x.2 := by decide +kernel
  have hnot : ∀ x ∈ s.literals, ¬SpellsDefault x.1 x.2 := by decide +kernel
  have hbefore : optimize .time (.string "1969-12-31T23:59:59Z") = .ok (.int (-1)) :=
    (project_optimized_of_settle_readable.1 (l := .int (-1)) rfl (by decide +kernel)).2 id
  -- both trees write the same, which settles to the address alone
  obtain ⟨w, hw, hproject⟩ := (project_optimized_of_settle_readable.2 (u := ⟨[ty], none⟩)
    (.settle hsettle) rfl hrs rfl hdistant).1 hheld
  obtain ⟨w', hw', hproject'⟩ := (project_optimized_of_settle_readable.2 (u := ⟨[ty], none⟩)
    (.settle hsettle') rfl hrs' rfl hdistant').2 hnot
  obtain rfl : w = w' := Except.ok.inj (hw.symm.trans hw')
  exact ⟨t, s, [n], hsettle, hsettle', .settle hsettle, hheld, hdistant, .settle hsettle',
    hdistant', hnot, hrs, rfl, hrs', rfl, hbefore, w, hw, hproject, hproject'⟩

/-- An address with the name of the default entrypoint comes back without it, so that in a set
it is one with the address alone; and the year 10000 is written but not read. -/
theorem project_optimized_of_settle_readable_ne :
    let address : Ty := .scalar ⟨0, 0, []⟩ .address
    let addresses : Ty := .set ⟨0, 0, []⟩ address
    let moment : Ty := .scalar ⟨0, 0, []⟩ .timestamp
    let bare : Bytes := List.replicate 22 0
    let data : Bytes := bare ++ Utf8.encode "default"
    (∃ t rs w, Tree.settle ⟨[address], none⟩ [.bytes data] = .ok t
      ∧ t.project .readable = .ok rs ∧ t.project .optimized = .ok [.bytes data]
      ∧ Tree.settle ⟨[address], none⟩ rs = .ok w ∧ w.project .optimized = .ok [.bytes bare]
      ∧ [.bytes bare] ≠ t.nested [.bytes data])
    ∧ (∃ t rs w, Tree.settle ⟨[addresses], none⟩ [.seq [.bytes bare, .bytes data]] = .ok t
      ∧ t.project .readable = .ok rs
      ∧ t.project .optimized = .ok [.seq [.bytes bare, .bytes data]]
      ∧ Tree.settle ⟨[addresses], none⟩ rs = .ok w
      ∧ w.project .optimized = .ok [.seq [.bytes bare]]
      ∧ [.seq [.bytes bare]]
        ≠ t.nestedWith withoutDefault [.seq [.bytes bare, .bytes data]])
    ∧ ∃ t rs w, Tree.settle ⟨[moment], none⟩ [.int 253402300800] = .ok t
      ∧ t.project .readable = .ok rs ∧ t.project .optimized = .ok [.int 253402300800]
      ∧ Tree.settle ⟨[moment], none⟩ rs = .ok w ∧ ∀ os, w.project .optimized ≠ .ok os := by
  intro address addresses moment bare data
  obtain ⟨text, htext⟩ : ∃ text, Identifier.Address.ofBody bare = .ok text := ⟨_, rfl⟩
  obtain ⟨hbare, hdata, hback⟩ := readable_default rfl htext
  refine ⟨?_, ?_, ?_⟩
  · have hrs : address.project .readable (.literal (.bytes data)) = .ok (.string text) :=
      bind_eq_ok_iff.2 ⟨_, hdata, rfl⟩
    have hos : address.project .optimized (.literal (.string text)) = .ok (.bytes bare) :=
      bind_eq_ok_iff.2 ⟨_, hback, rfl⟩
    exact ⟨⟨[address], some [.literal (.bytes data)]⟩, [.string text],
      ⟨[address], some [.literal (.string text)]⟩, rfl,
      (project_single_iff rfl rfl).2 ⟨_, hrs, rfl⟩, rfl, rfl,
      (project_single_iff rfl rfl).2 ⟨_, hos, rfl⟩, by decide +kernel⟩
  · have hrs : addresses.project .readable (.items [.literal (.bytes bare), .literal (.bytes data)])
        = .ok (.seq [.string text, .string text]) := by
      refine bind_eq_ok_iff.2 ⟨[.string text, .string text], mapM_eq_ok_iff.2 ?_, rfl⟩
      exact .cons (bind_eq_ok_iff.2 ⟨_, hbare, rfl⟩) (.cons (bind_eq_ok_iff.2 ⟨_, hdata, rfl⟩) .nil)
    -- the two texts are one
    have hsame : address.compare (.literal (.string text)) (.literal (.string text)) = .ok .eq := by
      rw [Ty.compare_scalar]
      exact bind_eq_ok_iff.2 ⟨_, hback, bind_eq_ok_iff.2 ⟨_, hback, rfl⟩⟩
    have hsettle : addresses.settle (.seq [.string text, .string text])
        = .ok (.items [.literal (.string text)]) := by
      refine Ty.settle_set_eq_ok_iff.2 ⟨_, [.literal (.string text), .literal (.string text)], _,
        rfl, rfl, ?_, rfl⟩
      exact bind_eq_ok_iff.2 ⟨[.literal (.string text)], rfl,
        bind_eq_ok_iff.2 ⟨_, bind_eq_ok_iff.2 ⟨_, hsame, rfl⟩, rfl⟩⟩
    have hos : addresses.project .optimized (.items [.literal (.string text)])
        = .ok (.seq [.bytes bare]) := by
      refine bind_eq_ok_iff.2 ⟨[.bytes bare], mapM_eq_ok_iff.2 ?_, rfl⟩
      exact .cons (bind_eq_ok_iff.2 ⟨_, hback, rfl⟩) .nil
    exact ⟨⟨[addresses], some [.items [.literal (.bytes bare), .literal (.bytes data)]]⟩,
      [.seq [.string text, .string text]],
      ⟨[addresses], some [.items [.literal (.string text)]]⟩, rfl,
      (project_single_iff rfl rfl).2 ⟨_, hrs, rfl⟩, rfl,
      settle_single rfl hsettle, (project_single_iff rfl rfl).2 ⟨_, hos, rfl⟩, by decide +kernel⟩
  · exact ⟨_, _, _, rfl, rfl, rfl, rfl, nofun⟩

end Tree

end Micheline
