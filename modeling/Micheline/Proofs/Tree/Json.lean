/-
Micheline/Proofs/Tree/Json.lean

Trees with one root and their documents.  A document is read as the list of its items, and a
list of one expression is printed as that expression, so that a list of one sequence loses its
brackets.  The root puts the items together again (`Tree.arrange`) if they are its members or
items, but not a single one that looks like a whole value: that one it takes for the value.
`Ty.TakesBack` says when all goes well.

It goes well in these cases only (`Tree.settleJson_toJson`): a value that is settled from the
one item of its own expression would be written larger than what it was settled from.
-/
import Micheline.Proofs.Node.Json
import Micheline.Proofs.Tree.Binary
import Micheline.Proofs.Value.Size

namespace Micheline

/-- The type puts together what it is written as again from the items, if that is a sequence:
as the members of a pair, or as the items of a value, of which a single one must not look like
a whole value. -/
def Ty.TakesBack (ty : Ty) (n : Node) : Prop :=
  ∀ items, n = .seq items → ty.isPair = true
    ∨ ty.takesItems = true ∧ ∀ item, items = [item] → ty.takesWhole item = false

namespace Tree

variable {t₀ t u : Tree} {ty : Ty} {n : Node} {ns ms : List Node} {v : Val}

/-! ### Several expressions for one root -/

/-- How expressions are arranged for one root: a single one that looks like a whole value is
taken as such, and otherwise they are taken together, if the root is a pair or has items. -/
theorem arrange_single_eq_ok_iff :
    arrange [ty] ns = .ok ms
      ↔ (∃ n, ns = [n] ∧ ty.takesWhole n = true ∧ ms = [n])
        ∨ (∀ n, ns = [n] → ty.takesWhole n = false)
          ∧ (ty.isPair = true ∧ 1 < ns.length ∨ ty.takesItems = true) ∧ ms = [.seq ns] := by
  -- The first test of `arrange` for one root, read as a statement on a single expression.
  have hwhole : (ns.length = 1 ∧ ns.all ty.takesWhole = true)
      ↔ ∃ n, ns = [n] ∧ ty.takesWhole n = true := by
    rw [List.length_eq_one_iff]
    constructor
    · rintro ⟨⟨n, rfl⟩, hn⟩
      exact ⟨n, rfl, by simpa using hn⟩
    · rintro ⟨n, rfl, hn⟩
      exact ⟨⟨n, rfl⟩, by simpa using hn⟩
  have hone {n : Node} (hn : ty.takesWhole n = true) : ¬∀ m, [n] = [m] → ty.takesWhole m = false :=
    fun h => absurd (h n rfl) (by simp [hn])
  rw [arrange]
  split
  next h =>
    obtain ⟨n, rfl, hn⟩ := hwhole.1 h
    constructor
    · rintro ⟨⟩
      exact .inl ⟨n, rfl, hn, rfl⟩
    · rintro (⟨_, ⟨⟩, -, rfl⟩ | ⟨hnot, -⟩)
      · rfl
      · exact absurd hnot (hone hn)
  next h =>
    have hnot : ∀ n, ns = [n] → ty.takesWhole n = false := fun n hn =>
      Bool.eq_false_iff.2 fun ht => h (hwhole.2 ⟨n, hn, ht⟩)
    split
    next hmany =>
      constructor
      · rintro ⟨⟩
        exact .inr ⟨hnot, hmany, rfl⟩
      · rintro (⟨n, rfl, hn, -⟩ | ⟨-, -, rfl⟩)
        · exact absurd hnot (hone hn)
        · rfl
    next hmany =>
      refine ⟨by rintro ⟨⟩, ?_⟩
      rintro (⟨n, rfl, hn, -⟩ | ⟨-, hmany', -⟩)
      · exact absurd hnot (hone hn)
      · exact absurd hmany' hmany

/-- A sequence is settled as it is. -/
theorem arrange_seq (ns : List Node) : arrange [ty] [.seq ns] = .ok [.seq ns] :=
  arrange_single_eq_ok_iff.2 (.inl ⟨.seq ns, rfl, by simp [Ty.takesWhole], rfl⟩)

/-- **A root takes expressions as its members or items**, unless there is a single one that
looks like a whole value. -/
theorem settle_items (hroot : u.roots = [ty])
    (hmany : ty.isPair = true ∧ 1 < ns.length ∨ ty.takesItems = true)
    (hwhole : ∀ n, ns = [n] → ty.takesWhole n = false) : u.settle ns = u.settle [.seq ns] := by
  have hns : arrange [ty] ns = .ok [.seq ns] :=
    arrange_single_eq_ok_iff.2 (.inr ⟨hwhole, hmany, rfl⟩)
  rw [settle, settle, hroot, hns, arrange_seq]

/-- What settles on a tree with one root was arranged to one expression. -/
theorem exists_of_settle_single {w : Tree} (hroot : u.roots = [ty]) (h : u.settle ns = .ok w) :
    ∃ m v, arrange [ty] ns = .ok [m] ∧ ty.settle m = .ok v ∧ w.values = some [v] := by
  obtain ⟨ms, hms, h⟩ := bind_eq_ok_iff.1 h
  obtain ⟨values, hvalues, h⟩ := bind_eq_ok_iff.1 h
  obtain rfl := pure_eq_ok_iff.1 h
  rw [hroot] at hms hvalues
  obtain ⟨m, rfl⟩ := List.length_eq_one_iff.1 (length_of_arrange hms).symm
  obtain ⟨v, rest, hv, hrest, rfl⟩ := List.forall₂_cons_left_iff.1 (mapM_eq_ok_iff.1 hvalues)
  obtain rfl := List.forall₂_nil_left_iff.1 hrest
  exact ⟨m, v, hms, hv, rfl⟩

/-! ### One expression, opened -/

/-- A value that its root takes back settles from its document. -/
theorem settle_opened (hroot : u.roots = [ty]) (h : ty.settle n = .ok v)
    (hpair : ty.isPair = true → Ty.IsPairNode n) (hback : ty.TakesBack n) :
    u.settle (Node.opened [n]) = .ok { u with values := some [v] } := by
  have hn : u.settle [n] = .ok { u with values := some [v] } := settle_single hroot h
  cases n with
  | seq items =>
    rw [← hn]
    rcases hback items rfl with hty | ⟨hty, hwhole⟩
    · obtain ⟨members, hlen, h | h⟩ := hpair hty
      · obtain rfl := Node.seq.inj h
        refine settle_items hroot (.inl ⟨hty, hlen⟩) ?_
        rintro m rfl
        exact absurd hlen (by simp)
      · cases h
    · exact settle_items hroot (.inr hty) hwhole
  | _ => exact hn

/-- No value is settled from the one item of the sequence that it is written as. -/
theorem takesBack_of_settle_opened (hroot : u.roots = [ty]) (hn : ty.project .preserve v = .ok n)
    (h : u.settle (Node.opened [n]) = .ok { u with values := some [v] }) : ty.TakesBack n := by
  rintro items rfl
  obtain ⟨m, v', hm, hv, hvalue⟩ := exists_of_settle_single hroot h
  obtain rfl : v = v' := List.head_eq_of_cons_eq (Option.some.inj hvalue)
  obtain ⟨item, rfl, -, ⟨⟩⟩ | ⟨hwhole, hmany, -⟩ := arrange_single_eq_ok_iff.1 hm
  · have hle := Ty.count_project_le hv hn
    simp only [Node.count, Node.countAll] at hle
    omega
  · exact hmany.imp (·.1) fun hty => ⟨hty, hwhole⟩

/-! ### Documents -/

theorem settleJson_document (ns : List Node) :
    u.settleJson (Node.document ns) = u.settle (Node.opened ns) := by
  rw [settleJson, Node.ofDocument_document]
  rfl

/-- Entries do not look like whole values. -/
theorem takesBack_of_entries {key value : Ty}
    (hty : (∃ i, ty = .map i key value) ∨ ∃ i, ty = .bigMap i key value)
    (h : ty.settle n = .ok v) : ty.TakesBack n := by
  rintro items rfl
  refine .inr ⟨by rcases hty with ⟨i, rfl⟩ | ⟨i, rfl⟩ <;> rfl, ?_⟩
  rintro item rfl
  have hentries : ty.HasEntries key value := by
    rcases hty with ⟨i, rfl⟩ | ⟨i, rfl⟩
    · exact .map
    · exact .bigMap
  obtain ⟨pairs, -, hpairs, -⟩ := (Ty.settle_entries_eq_ok_iff hentries).1 h
  obtain ⟨p, -, hp⟩ := exists_of_mem_of_mapM hpairs item List.mem_cons_self
  obtain ⟨k, v, annots, rfl, -⟩ := Ty.settleEntry_eq_ok_iff.1 hp
  rcases hty with ⟨i, rfl⟩ | ⟨i, rfl⟩ <;> rfl

/-- **A tree with one root and its document.**  There is a document of every settled tree, and
it settles to the same tree, on any tree with the same root, exactly if the root takes the
expression in it back.  Maps and big maps always do.  The roots that have items take expressions
as such, however many, unless there is a single one that looks like a whole value. -/
theorem settleJson_toJson (h : t₀.settle ns = .ok t) (hroot : t₀.roots = [ty])
    (hu : u.roots = t₀.roots) :
    (∃ n json, t.project .preserve = .ok [n] ∧ t.toJson .preserve = .ok json
        ∧ (u.settleJson json = .ok t ↔ ty.TakesBack n)
        ∧ ∀ key value, (∃ i, ty = .map i key value) ∨ (∃ i, ty = .bigMap i key value) →
          u.settleJson json = .ok t)
      ∧ ∀ ms : List Node, ty.takesItems = true → (∀ m, ms = [m] → ty.takesWhole m = false) →
        u.settle ms = u.settle [.seq ms] := by
  obtain ⟨hroots, hheld⟩ := holds_of_settle h
  obtain ⟨v, hvalue, hv⟩ := exists_value hheld (hroots.trans hroot)
  obtain ⟨n, hn, hn'⟩ := Ty.exists_project_preserve hv
  have hproject : t.project .preserve = .ok [n] :=
    (project_single_iff (hroots.trans hroot) hvalue).2 ⟨n, hn, rfl⟩
  have hjson : t.toJson .preserve = .ok (Node.document [n]) :=
    bind_eq_ok_iff.2 ⟨[n], hproject, rfl⟩
  -- Whatever `u` held before, settling puts the new value in its place.
  have ht : t = { u with values := some [v] } := by
    rw [← hvalue, hu, ← hroots]
  have hiff : u.settleJson (Node.document [n]) = .ok t ↔ ty.TakesBack n := by
    rw [settleJson_document, ht]
    exact ⟨takesBack_of_settle_opened (hu.trans hroot) hn,
      settle_opened (hu.trans hroot) hn' fun hty => Ty.isPairNode_of_project hv hty hn⟩
  refine ⟨⟨n, Node.document [n], hproject, hjson, hiff, fun key value hty => ?_⟩,
    fun ms hitems hwhole => settle_items (hu.trans hroot) (.inr hitems) hwhole⟩
  exact hiff.2 (takesBack_of_entries hty hn')

/-- A list of two numbers, which comes back as it was. -/
theorem settleJson_toJson_numbers :
    let ty : Ty := .list ⟨0, 0, []⟩ (.scalar ⟨0, 0, []⟩ .int)
    let u : Tree := ⟨[ty], none⟩
    ∃ t json, u.settle [.int 1, .int 2] = .ok t ∧ t.toJson .preserve = .ok json
      ∧ u.settleJson json = .ok t := by
  intro ty u
  have h : u.settle [.int 1, .int 2]
      = .ok ⟨[ty], some [.items [.literal (.int 1), .literal (.int 2)]]⟩ := rfl
  obtain ⟨⟨n, json, hn, hjson, hback, -⟩, -⟩ := settleJson_toJson h rfl rfl
  obtain rfl : .seq [.int 1, .int 2] = n := List.head_eq_of_cons_eq (Except.ok.inj hn)
  refine ⟨_, json, h, hjson, hback.2 ?_⟩
  rintro items ⟨⟩
  exact .inr ⟨rfl, nofun⟩

/-- The brackets that a list of one sequence loses: a list of one list of a number does not come
back, and code that is one sequence comes back as what is in it. -/
theorem settleJson_toJson_ne :
    let int : Ty := .scalar ⟨0, 0, []⟩ .int
    let lists : Tree := ⟨[.list ⟨0, 0, []⟩ (.list ⟨0, 0, []⟩ int)], none⟩
    let code : Tree := ⟨[.lambda ⟨0, 0, []⟩ int int], none⟩
    (∃ t json, lists.settle [.seq [.seq [.int 1]]] = .ok t ∧ t.toJson .preserve = .ok json
        ∧ ∀ t', lists.settleJson json ≠ .ok t')
      ∧ ∃ t json, code.settle [.seq [.seq [.app "DUP" []]]] = .ok t
        ∧ t.toJson .preserve = .ok json
        ∧ code.settleJson json = .ok ⟨code.roots, some [.code (.seq [.app "DUP" []])]⟩
        ∧ t.values = some [.code (.seq [.seq [.app "DUP" []]])] := by
  intro int lists code
  refine ⟨⟨_, Node.document [.seq [.seq [.int 1]]], rfl, rfl, ?_⟩,
    _, Node.document [.seq [.seq [.app "DUP" []]]], rfl, rfl, ?_, rfl⟩
  · rw [settleJson_document]
    exact nofun
  · rw [settleJson_document]
    rfl

end Tree

end Micheline
