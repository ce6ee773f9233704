/-
Micheline/Proofs/Tree/Unchanged.lean

No change of a tree goes unreported.  Two states of a tree of fresh types between which the
presentation marks nothing are written alike in binary form, up to the notation of pairs
(`Tree.nested_eq_of_unchanged`), unless there are parts at the same place that differ where
nothing is ever marked (`Blurred`).

There are such parts (`Tree.nested_eq_of_unchanged_ne`): a big map that lost its pointer, an
address with the name of the default entrypoint, an element of a field written as bytes, and
code with a name that is no word.  And the pointer of a big map with entries is not shown at
all.
-/
import Micheline.Proofs.Tree.Reachable
import Micheline.Proofs.Tree.Readable
import Micheline.Proofs.Value.Unchanged

namespace Micheline.Tree

/-- Parts at the same place in the values of two trees, at any depth. -/
def SamePlace (t u : Tree) (x y : Typed) : Prop :=
  ∃ r ∈ t.current.zip u.current, ∃ path path', Micheline.SamePlace r.1 r.2 path path' x y

/-- Trees of types that show everything have no parts that are confused. -/
theorem SamePlace.not_blurred {t u : Tree} {x y : Typed} (h : t.SamePlace u x y)
    (ht : ∀ r ∈ t.current, r.ty.showsAll = true) : ¬Blurred x y := by
  obtain ⟨r, hr, path, path', hplace⟩ := h
  exact Ty.not_blurred_of_samePlace (ht r.1 (List.of_mem_zip hr).1) hplace

/-! ### Roots -/

/-- Roots beside earlier ones that nothing marks are written alike. -/
theorem nested_eq_of_roots {roots : List Ty} {values olds : List Val} {ms : List Presentation}
    {ns os : List Node} (hty : ∀ ty ∈ roots, ty.PairsTickets)
    (hvalues : List.Forall₂ (Ty.Holds true) roots values)
    (holds : List.Forall₂ (Ty.Holds true) roots olds)
    (hblur : ∀ r ∈ (List.zipWith Typed.mk roots values).zip (List.zipWith Typed.mk roots olds),
      ∀ path path' x y, Micheline.SamePlace r.1 r.2 path path' x y → ¬Blurred x y)
    (hms : ((List.zipWith Typed.mk roots values).zip (List.zipWith Typed.mk roots olds)).mapM
      (fun r => r.1.diff r.2) = .ok ms)
    (hm : ∀ m ∈ ms, m.hasChanges = false)
    (hns : (List.zipWith Typed.mk roots values).mapM (Typed.project .optimized) = .ok ns)
    (hos : (List.zipWith Typed.mk roots olds).mapM (Typed.project .optimized) = .ok os) :
    List.zipWith Ty.nested roots ns = List.zipWith Ty.nested roots os := by
  induction hvalues generalizing olds ms ns os with
  | nil =>
    rw [List.zipWith_nil_left, List.zipWith_nil_left]
  | @cons ty v roots values hv _ ih =>
    cases holds with
    | @cons _ w _ olds hw hrest =>
      rw [List.zipWith_cons_cons, List.mapM_cons, bind_eq_ok_iff] at hns hos
      obtain ⟨n, hn, hns⟩ := hns
      obtain ⟨ns', hns', hns⟩ := bind_eq_ok_iff.1 hns
      obtain rfl := pure_eq_ok_iff.1 hns
      obtain ⟨o, ho, hos⟩ := hos
      obtain ⟨os', hos', hos⟩ := bind_eq_ok_iff.1 hos
      obtain rfl := pure_eq_ok_iff.1 hos
      rw [List.zipWith_cons_cons, List.zipWith_cons_cons, List.zip_cons_cons] at hblur hms
      rw [List.mapM_cons, bind_eq_ok_iff] at hms
      obtain ⟨m, hm', hms⟩ := hms
      obtain ⟨ms', hms', hms⟩ := bind_eq_ok_iff.1 hms
      obtain rfl := pure_eq_ok_iff.1 hms
      obtain ⟨hpaired, hty⟩ := List.forall_mem_cons.1 hty
      obtain ⟨hroot, hblur⟩ := List.forall_mem_cons.1 hblur
      obtain ⟨hmark, hm⟩ := List.forall_mem_cons.1 hm
      -- The first roots agree since nothing at any place in them is blurred or marked.
      have hagrees : ty.Agrees v w := Ty.agrees_of_unchanged hpaired hv hw hroot hm' hmark
      have hhead : ty.nested n = ty.nested o :=
        hagrees _ _ (map_eq_ok_iff.2 ⟨n, hn, rfl⟩) (map_eq_ok_iff.2 ⟨o, ho, rfl⟩)
      rw [List.zipWith_cons_cons, List.zipWith_cons_cons, hhead,
        ih hty hrest hblur hms' hm hns' hos']

/-! ### Trees -/

section Trees

variable {t₀ t u : Tree} {types : List Node} {ms : List Presentation} {ns os : List Node}

/-- Only trees with values are presented beside each other. -/
theorem exists_of_diff (h : t.diff u = .ok ms) : t.values ≠ none ∧ u.values ≠ none
    ∧ (t.current.zip u.current).mapM (fun r => r.1.diff r.2) = .ok ms := by
  have hsettled {t : Tree} {rs : List Typed} (hrs : t.settled = .ok rs) :
      t.values ≠ none ∧ t.current = rs := by
    rw [settled] at hrs
    split at hrs
    next hvalues =>
      refine ⟨?_, Except.ok.inj hrs⟩
      intro hnone
      rw [isSettled, hnone] at hvalues
      cases hvalues
    next => cases hrs
  obtain ⟨new, hnew, h⟩ := bind_eq_ok_iff.1 h
  obtain ⟨old, hold, h⟩ := bind_eq_ok_iff.1 h
  obtain ⟨ht, rfl⟩ := hsettled hnew
  obtain ⟨hu, rfl⟩ := hsettled hold
  refine ⟨ht, hu, ?_⟩
  -- The trees have as many roots: otherwise there is no presentation.
  by_cases hlength : t.current.length ≠ u.current.length
  · rw [if_pos hlength] at h
    cases h
  · rw [if_neg hlength] at h
    exact h

/-- **No change goes unreported.**  Of two states of a tree of fresh types, after any changes
to each: if nothing is marked in the presentation of the one beside the other, at any depth,
the two are written alike in binary form, up to the notation of pairs; and so, if they are
not, some node is marked.  There must be no two parts at the same place that differ where
nothing is ever marked: such as are shown alike, and an empty big map that has lost its pointer,
of which only the earlier one shows a pointer. -/
theorem nested_eq_of_unchanged (h : ofNodes types = .ok t₀) (cs ds : List Change)
    (hdiff : (t₀.after cs).diff (t₀.after ds) = .ok ms)
    (hblur : ∀ x y, (t₀.after cs).SamePlace (t₀.after ds) x y → ¬Blurred x y)
    (hns : (t₀.after cs).project .optimized = .ok ns)
    (hos : (t₀.after ds).project .optimized = .ok os) :
    ((∀ m ∈ ms, m.hasChanges = false) → t₀.nested ns = t₀.nested os)
      ∧ (t₀.nested ns ≠ t₀.nested os →
        ∃ m ∈ ms, ∃ path q, m.at? path = some q ∧ q.change.isSome = true) := by
  have hall : (∀ m ∈ ms, m.hasChanges = false) → t₀.nested ns = t₀.nested os := by
    intro hm
    have hpaired : ∀ ty ∈ t₀.roots, ty.PairsTickets := by
      obtain ⟨roots, hroots, h⟩ := bind_eq_ok_iff.1 h
      obtain rfl := pure_eq_ok_iff.1 h
      exact Ty.pairsTickets_of_ofNodes hroots
    have ht : Sound t₀ (t₀.after cs) := (sound_of_ofNodes h).after cs
    have hu : Sound t₀ (t₀.after ds) := (sound_of_ofNodes h).after ds
    -- From here on only what is sound about the two trees counts, not how they came about.
    generalize t₀.after cs = t at hdiff hblur hns ht
    generalize t₀.after ds = u at hdiff hblur hos hu
    obtain ⟨htvalues, huvalues, hroots⟩ := exists_of_diff hdiff
    obtain ⟨values, hvalues, hheld⟩ := ht.values.resolve_left htvalues
    obtain ⟨olds, holds, hheld'⟩ := hu.values.resolve_left huvalues
    rw [project, settled_eq hvalues] at hns
    rw [project, settled_eq holds] at hos
    rw [ht.roots] at hheld hns
    rw [hu.roots] at hheld' hos
    have hcurrent : t.current = List.zipWith Typed.mk t₀.roots values :=
      ht.roots ▸ current_eq hvalues
    have hcurrent' : u.current = List.zipWith Typed.mk t₀.roots olds :=
      hu.roots ▸ current_eq holds
    rw [hcurrent, hcurrent'] at hroots
    refine nested_eq_of_roots hpaired hheld hheld' ?_ hroots hm hns hos
    intro r hr path path' x y hplace
    rw [← hcurrent, ← hcurrent'] at hr
    exact hblur x y ⟨r, hr, path, path', hplace⟩
  refine ⟨hall, fun hne => ?_⟩
  -- The other half is the same read backwards, with the mark followed down its path.
  by_contra hnone
  refine hne (hall fun m hm => ?_)
  by_contra hmarked
  obtain ⟨path, q, hq, hchange⟩ :=
    m.exists_at?_of_hasChanges (Bool.eq_true_of_not_eq_false hmarked)
  exact hnone ⟨m, hm, path, q, hq, hchange⟩

/-- A tree with one root is presented beside an earlier one as its root. -/
theorem diff_single {t u : Tree} {ty : Ty} {v w : Val} {m : Presentation} (hroot : t.roots = [ty])
    (hroot' : u.roots = [ty]) (hv : t.values = some [v]) (hw : u.values = some [w])
    (h : ty.diff v ty w = .ok m) : t.diff u = .ok [m] := by
  rw [diff, settled_eq hv, settled_eq hw, hroot, hroot']
  show ([(Typed.mk ty v, Typed.mk ty w)].mapM fun p => p.1.diff p.2) = _
  exact mapM_eq_ok_iff.2 (.cons h .nil)

/-- A moment and a number beside themselves in another notation, and beside another number. -/
theorem nested_eq_of_unchanged_moment :
    let types : List Node := [.app "pair" [.app "timestamp" [], .app "nat" []]]
    let cs : List Change := [.settle [.app "Pair" [.string "1970-01-01T00:01:40Z", .int 7]]]
    let ds : List Change := [.settle [.seq [.int 100, .int 7]]]
    let es : List Change := [.settle [.seq [.int 100, .int 8]]]
    ∃ t₀ same other ns os, ofNodes types = .ok t₀
      ∧ (t₀.after cs).diff (t₀.after ds) = .ok [same] ∧ same.hasChanges = false
      ∧ (t₀.after cs).project .optimized = .ok ns ∧ (t₀.after ds).project .optimized = .ok os
      ∧ ns ≠ os ∧ t₀.nested ns = t₀.nested os
      ∧ (t₀.after cs).diff (t₀.after es) = .ok [other]
      ∧ ∃ path q, other.at? path = some q ∧ q.change.isSome = true := by
  intro types cs ds es
  let moment : Ty := .scalar ⟨1, 1, []⟩ .timestamp
  let number : Ty := .scalar ⟨2, 1, []⟩ .nat
  let ty : Ty := .pair ⟨0, 0, []⟩ moment number
  let t₀ : Tree := ⟨[ty], none⟩
  let value (x : Literal) (k : Int) (s : Comb) : Val := .pair (.literal x) (.literal (.int k)) s
  let text : Literal := .string "1970-01-01T00:01:40Z"
  have h : ofNodes types = .ok t₀ := rfl
  have hcs : (t₀.after cs).values = some [value text 7 .pair] := rfl
  have hds : (t₀.after ds).values = some [value (.int 100) 7 .seq] := rfl
  have hes : (t₀.after es).values = some [value (.int 100) 8 .seq] := rfl
  -- neither moments nor numbers are confused
  have hshows : ∀ r ∈ (t₀.after cs).current, r.ty.showsAll = true :=
    List.forall_mem_singleton.2 rfl
  have hblur (ds : List Change) (x y : Typed)
      (hplace : (t₀.after cs).SamePlace (t₀.after ds) x y) : ¬Blurred x y :=
    hplace.not_blurred hshows
  have hheld (n : Node) {v : Val} (hn : ty.settle n = .ok v) : ty.Holds true v :=
    (Ty.holds_of_settle hn).mono
  have hv : ty.Holds true (value text 7 .pair) := hheld (.app "Pair" [text.node, .int 7]) rfl
  have hw (k : Int) (hk : ty.settle (.seq [.int 100, .int k]) = .ok (value (.int 100) k .seq)) :
      ty.Holds true (value (.int 100) k .seq) := hheld _ hk
  let first : Presentation :=
    { Presentation.ofTy moment "timestamp" with value := some (.str "1970-01-01T00:01:40Z") }
  have hmoment : moment.diff (.literal text) moment (.literal (.int 100)) = .ok first := by
    rw [Ty.diff_of_isLeaf rfl]
    rfl
  have hsame : number.diff (.literal (.int 7)) number (.literal (.int 7))
      = .ok { Presentation.ofTy number "nat" with value := some (.str "7") } := by
    rw [Ty.diff_of_isLeaf rfl]
    rfl
  have hother : number.diff (.literal (.int 7)) number (.literal (.int 8))
      = .ok { Presentation.ofTy number "nat" with
        value := some (.str "7"), change := some .update, before := some (.str "8") } := by
    rw [Ty.diff_of_isLeaf rfl]
    rfl
  have hdiff {k : Int} {q : Presentation} (hk : ty.Holds true (value (.int 100) k .seq))
      (hq : number.diff (.literal (.int 7)) number (.literal (.int k)) = .ok q) :
      ty.diff (value text 7 .pair) ty (value (.int 100) k .seq)
        = .ok { Presentation.ofTy ty "tuple" with children := [first, q] } := by
    refine (Ty.diff_eq_ok_iff hv hk).2 ⟨_, _, _, rfl, rfl, mapM_eq_ok_iff.2 ?_, rfl⟩
    refine .cons (bind_eq_ok_iff.2 ⟨first, hmoment, rfl⟩) (.cons ?_ .nil)
    exact bind_eq_ok_iff.2 ⟨q, hq, rfl⟩
  have hdiffds := diff_single rfl rfl hcs hds (hdiff (hw 7 rfl) hsame)
  have hdiffes := diff_single rfl rfl hcs hes (hdiff (hw 8 rfl) hother)
  obtain ⟨hequal, -⟩ := nested_eq_of_unchanged h cs ds hdiffds (hblur ds) rfl rfl
  obtain ⟨-, hmarked⟩ := nested_eq_of_unchanged h cs es hdiffes (hblur es) rfl rfl
  obtain ⟨m, hm, hmarked⟩ := hmarked (by decide)
  obtain rfl := List.mem_singleton.1 hm
  exact ⟨t₀, _, _, _, _, h, hdiffds, rfl, rfl, rfl, by decide,
    hequal (List.forall_mem_singleton.2 rfl), hdiffes, hmarked⟩

/-- Two expressions of a type that settle to values that are presented beside each other
without a mark and have different binary forms. -/
def Hides (type n o : Node) : Prop :=
  ∃ t₀ t u m ns os, ofNodes [type] = .ok t₀ ∧ t₀.settle [n] = .ok t ∧ t₀.settle [o] = .ok u
    ∧ t.diff u = .ok [m] ∧ m.hasChanges = false ∧ t.project .optimized = .ok ns
    ∧ u.project .optimized = .ok os ∧ t₀.nested ns ≠ t₀.nested os

/-- If the roots themselves are blurred, the presentation has no mark although the values
differ. -/
theorem hides_of_blurred {type n o n' o' : Node} {ty : Ty} {v w : Val}
    (htype : ofNodes [type] = .ok ⟨[ty], none⟩) (hn : ty.settle n = .ok v)
    (ho : ty.settle o = .ok w) (hblur : Blurred ⟨ty, v⟩ ⟨ty, w⟩)
    (hn' : ty.project .optimized v = .ok n') (ho' : ty.project .optimized w = .ok o') :
    Hides type n o := by
  obtain ⟨⟨m, hm, hmark⟩, hne⟩ :=
    Ty.unreported_of_blurred hblur (Ty.holds_of_settle hn) (Ty.holds_of_settle ho)
  refine ⟨_, _, _, m, [n'], [o'], htype, settle_single rfl hn, settle_single rfl ho,
    diff_single rfl rfl rfl rfl hm, hmark, (project_single_iff rfl rfl).2 ⟨n', hn', rfl⟩,
    (project_single_iff rfl rfl).2 ⟨o', ho', rfl⟩, ?_⟩
  intro h
  have hnested : ty.nested n' = ty.nested o' := (List.cons.inj h).1
  exact hne ⟨_, map_eq_ok_iff.2 ⟨n', hn', rfl⟩, map_eq_ok_iff.2 ⟨o', ho', hnested.symm⟩⟩

/-- A big map without its pointer, an address with the default entrypoint, a number written as
bytes and a name with a blank all go unreported, and so does another pointer of a big map with
entries. -/
theorem nested_eq_of_unchanged_ne :
    let bare : Bytes := List.replicate 22 0
    let data : Bytes := bare ++ Utf8.encode "default"
    let numbers : Node := .app "big_map" [.app "nat" [], .app "nat" []]
    Hides (.app "big_map" [.app "int" [], .app "int" []]) (.seq []) (.int 5)
      ∧ Hides (.app "address" []) (.bytes bare) (.bytes data)
      ∧ Hides (.app "bls12_381_fr" []) (.int 10) (.bytes [0x10])
      ∧ Hides (.app "lambda" [.app "unit" [], .app "unit" []]) (.seq [.app "A B" []])
        (.seq [.app "A" [.app "B" []]])
      ∧ ∃ t₀ m, ofNodes [numbers] = .ok t₀
        ∧ let t := t₀.after [.settle [.int 6], .enrich [⟨6, [0, 1], some [0, 10]⟩]]
          let u := t₀.after [.settle [.int 5], .enrich [⟨5, [0, 1], some [0, 10]⟩]]
          t.diff u = .ok [m] ∧ m.hasChanges = false ∧ t.pointers ≠ u.pointers := by
  intro bare data numbers
  refine ⟨?_, ?_, ?_, ?_, ?_⟩
  · exact hides_of_blurred rfl rfl rfl .pointer rfl rfl
  · obtain ⟨text, htext⟩ : ∃ text, Identifier.Address.ofBody bare = .ok text := ⟨_, rfl⟩
    obtain ⟨hbare, hdata, -⟩ := Literal.readable_default rfl htext
    have hshown {l : Literal} (hl : l.readable (.identifier .address) = .ok (.string text)) :
        l.display (.identifier .address) = .ok text := bind_eq_ok_iff.2 ⟨_, hl, rfl⟩
    refine hides_of_blurred rfl rfl rfl (.scalar ⟨⟨text, hshown hbare, hshown hdata⟩, ?_⟩) rfl rfl
    exact .inl (by decide +kernel)
  · refine hides_of_blurred rfl rfl rfl (.scalar ⟨⟨"10", rfl, rfl⟩, ?_⟩) rfl rfl
    exact .inr ⟨rfl, 10, [0x10], .inl ⟨rfl, rfl⟩⟩
  · refine hides_of_blurred rfl rfl rfl (.code rfl (by decide) rfl fun hwords => ?_) rfl rfl
    obtain ⟨⟨⟨c, cs, hname, -, hinner⟩, -⟩, -⟩ := hwords.1
    obtain rfl : [' ', 'B'] = cs := (List.cons.inj hname).2
    cases hinner ' ' List.mem_cons_self
  · let number (id : Nat) : Ty := .scalar ⟨id, 1, []⟩ .nat
    let ty : Ty := .bigMap ⟨0, 0, []⟩ (number 1) (number 2)
    let loaded (id : Int) : Val := .entries (some id) [(.literal (.int 1), .literal (.int 10))]
    have hheld (id : Int) (hid : Decimal.isInt64 id = true) : ty.Holds true (loaded id) := by
      have hone : (number 1).settle (.int 1) = .ok (.literal (.int 1)) := rfl
      have hten : (number 2).settle (.int 10) = .ok (.literal (.int 10)) := rfl
      refine .loaded rfl hid ?_ ?_ (List.pairwise_singleton _ _)
      · exact List.forall_mem_singleton.2 (Ty.holds_of_settle hone).mono
      · exact List.forall_mem_singleton.2 (Ty.holds_of_settle hten).mono
    have hvalue : (number 2).diff (.literal (.int 10)) (number 2) (.literal (.int 10))
        = .ok { Presentation.ofTy (number 2) "nat" with value := some (.str "10") } := by
      rw [Ty.diff_of_isLeaf rfl]
      rfl
    have hdiff : ty.diff (loaded 6) ty (loaded 5) = .ok { Presentation.ofTy ty "big_map" with
        children := [{ Presentation.ofTy (number 2) "nat" with
          name := some "1", value := some (.str "10") }] } := by
      refine (Ty.diff_eq_ok_iff (hheld 6 rfl) (hheld 5 rfl)).2
        ⟨_, _, _, rfl, rfl, mapM_eq_ok_iff.2 (.cons ?_ .nil), rfl⟩
      exact bind_eq_ok_iff.2 ⟨_, hvalue, rfl⟩
    exact ⟨⟨[ty], none⟩, _, rfl, diff_single rfl rfl rfl rfl hdiff, rfl, by decide⟩

end Trees

end Micheline.Tree
