/-
Micheline/Proofs/Value/Spelling.lean

The ways to write the value of a comb.  A comb is a pair whose right part may be a comb
again, and its members may be written in groups: each group is a pair or a sequence of two
members or more, the last of which is written for the rest of the comb (`Spelling`,
`Writes`).

Whatever the spelling is, the members are settled from left to right and are then put
together; the spelling decides only how the pairs are remembered (`settle_cases`, with
`Assembles`).  So two spellings of the same members settle to values that are alike
(`Alike`), and each is written as it was spelled (`exists_writes`).

Main result: all spellings agree (`Ty.settle_spellings`).
-/
import Micheline.Proofs.Value.Preserve
import Micheline.Proofs.Value.Beside

namespace Micheline

/-! ### Spellings -/

/-- How the members of a group stand together. -/
inductive Group where
  /-- `Pair a b …`, which may be annotated. -/
  | pair (annots : List String)
  /-- `{ a ; b ; … }` -/
  | seq
  deriving DecidableEq, Repr

namespace Group

/-- The expression of a group. -/
def node : Group → List Node → Node
  | .pair annots, members => .prim "Pair" members annots
  | .seq, members => .seq members

/-- The group without annotations. -/
def bare : Group → Group
  | .pair _ => .pair []
  | .seq => .seq

/-- How a pair is remembered that is a group of two. -/
def comb : Group → Comb
  | .pair _ => .pair
  | .seq => .seq

end Group

/-- How the value of a comb is written: its last member as it is, or a group of a first
member, some more, and what is written for the rest. -/
inductive Spelling where
  | last
  | group (how : Group) (more : Nat) (rest : Spelling)
  deriving DecidableEq, Repr

/-- The expression that writes the members in a spelling. -/
inductive Writes : Spelling → List Node → Node → Prop
  | last (n : Node) : Writes .last [n] n
  | group (how : Group) (first : Node) (more : List Node) {k} (hk : more.length = k)
      {rest ns n} (h : Writes rest ns n) :
      Writes (.group how k rest) (first :: (more ++ ns)) (how.node (first :: (more ++ [n])))

namespace Spelling

/-- The spelling without annotations. -/
def bare : Spelling → Spelling
  | .last => .last
  | .group how more rest => .group how.bare more rest.bare

/-- How the pairs of the comb are remembered, from left to right. -/
def combs : Spelling → List Comb
  | .last => []
  | .group how more rest => List.replicate more .joined ++ how.comb :: rest.combs

/-- A spelling after its first member: what is left of the group, or what stands for the rest
if nothing is left. -/
inductive Opens : Spelling → Comb → Spelling → Prop
  | two {how rest} : Opens (.group how 0 rest) how.comb rest
  | more {how k rest} : Opens (.group how (k + 1) rest) .joined (.group how.bare k rest)

variable {p q : Spelling} {c : Comb}

theorem exists_opens (how : Group) (more : Nat) (rest : Spelling) :
    ∃ c q, Opens (.group how more rest) c q := by
  cases more with
  | zero => exact ⟨_, _, .two⟩
  | succ k => exact ⟨_, _, .more⟩

/-- Opening a spelling takes its first comb away. -/
theorem Opens.combs_eq (h : Opens p c q) : p.combs = c :: q.combs := by
  cases h with
  | two => rfl
  | @more how k rest =>
    have hcomb : how.bare.comb = how.comb := by cases how <;> rfl
    rw [combs, combs, List.replicate_succ, hcomb]
    rfl

end Spelling

open Spelling

theorem Writes.ne_nil {p : Spelling} {ns : List Node} {n : Node} (h : Writes p ns n) :
    ns ≠ [] := by
  cases h <;> nofun

/-- Only the last member is written for one. -/
theorem writes_singleton_iff {p : Spelling} {m n : Node} :
    Writes p [m] n ↔ p = .last ∧ m = n := by
  constructor
  · intro h
    generalize hns : [m] = ns at h
    cases h with
    | last => exact ⟨rfl, List.head_eq_of_cons_eq hns⟩
    | group how first more hk h =>
      have hnil := List.append_eq_nil_iff.1 (List.tail_eq_of_cons_eq hns).symm
      exact absurd hnil.2 h.ne_nil
  · rintro ⟨rfl, rfl⟩
    exact .last m

/-- **Splitting off the first member** leaves an expression that writes the others in what is
left of the spelling. -/
theorem Writes.exists_opens {p : Spelling} {first : Node} {ns : List Node} {n : Node}
    (h : Writes p (first :: ns) n) (hns : ns ≠ []) {nested : Bool}
    (hnested : 2 ≤ ns.length → nested = true) :
    ∃ c q second, Opens p c q ∧ Writes q ns second ∧ Ty.Splits nested n first second c := by
  generalize hall : first :: ns = all at h
  cases h with
  | last => exact absurd (List.tail_eq_of_cons_eq hall) hns
  | @group how first' more k hk rest ns' n' h =>
    obtain ⟨rfl, rfl⟩ := List.cons.inj hall
    subst hk
    -- A group of two ends here; a longer one goes on with one argument less and no annotations.
    rcases more with - | ⟨b, more⟩
    · refine ⟨_, _, n', .two, h, ?_⟩
      cases how with
      | pair annots => exact .pair
      | seq => exact .seq
    · refine ⟨_, _, _, .more, .group how.bare b more rfl h, ?_⟩
      have hlen : 1 ≤ ns'.length := List.length_pos_of_ne_nil h.ne_nil
      have hn : nested = true := hnested (by simp; omega)
      cases how with
      | pair annots => exact .joinedPair hn (by simp)
      | seq => exact .joinedSeq hn (by simp)

/-- **Writing a first member** in front of the others. -/
theorem Spelling.Opens.writes {p q : Spelling} {c : Comb} (h : Opens p c q) (first : Node)
    {ns : List Node} {n : Node} (hn : Writes q.bare ns n) :
    Writes p.bare (first :: ns) (Ty.writePair c first n) := by
  cases h with
  | @two how rest =>
    cases how with
    | pair annots => exact .group (.pair []) first [] rfl hn
    | seq => exact .group .seq first [] rfl hn
  | @more how k rest =>
    cases hn with
    | @group how' b more k hk rest' ns' n' hn =>
      have hk' : (b :: more).length = k + 1 := congrArg (· + 1) hk
      cases how with
      | pair annots => exact .group (.pair []) first (b :: more) hk' hn
      | seq => exact .group .seq first (b :: more) hk' hn

/-! ### Combs -/

namespace Ty

/-- The type is the comb of the member types. -/
inductive IsComb : List Ty → Ty → Prop
  | last (t : Ty) : IsComb [t] t
  | pair (i : Info) (t : Ty) {ts r} (h : IsComb ts r) : IsComb (t :: ts) (.pair i t r)

theorem IsComb.ne_nil {ts : List Ty} {ty : Ty} (h : IsComb ts ty) : ts ≠ [] := by
  cases h <;> nofun

theorem IsComb.isPair {ts : List Ty} {ty : Ty} (h : IsComb ts ty) (hlen : 2 ≤ ts.length) :
    ty.isPair = true := by
  cases h with
  | last => exact absurd hlen (Nat.lt_irrefl 1)
  | pair => rfl

/-- The value of the type is put together from the parts, and its pairs are remembered as they
are listed. -/
inductive Assembles : List Typed → List Comb → Ty → Val → Prop
  | last (t : Ty) (v : Val) : Assembles [⟨t, v⟩] [] t v
  | pair (i : Info) (t : Ty) (v : Val) (c : Comb) {parts cs r w} (h : Assembles parts cs r w) :
      Assembles (⟨t, v⟩ :: parts) (c :: cs) (.pair i t r) (.pair v w c)

/-- The values of the type have the same parts. -/
inductive Alike : List Typed → Ty → Val → Val → Prop
  | last (t : Ty) (v : Val) : Alike [⟨t, v⟩] t v v
  | pair (i : Info) (t : Ty) (v : Val) (c c' : Comb) {parts r w w'} (h : Alike parts r w w') :
      Alike (⟨t, v⟩ :: parts) (.pair i t r) (.pair v w c) (.pair v w' c')

/-- Values that are put together of the same parts are alike. -/
theorem Assembles.alike {parts : List Typed} {cs cs' : List Comb} {ty : Ty} {v v' : Val}
    (h : Assembles parts cs ty v) (h' : Assembles parts cs' ty v') : Alike parts ty v v' := by
  induction h generalizing cs' v' with
  | last t v =>
    cases h' with
    | last => exact .last t v
  | pair i t v c h ih =>
    cases h' with
    | pair _ _ _ c' h' => exact .pair i t v c c' (ih h')

/-! ### Settling -/

/-- A member with its type is settled. -/
def settleMember (m : Ty × Node) : Except Error Typed := do
  return ⟨m.1, ← m.1.settle m.2⟩

/-- **The members are settled from left to right.**  If one of them fails the whole fails in
the same way, and otherwise it is put together from them. -/
theorem settle_cases {members : List (Ty × Node)} {ty : Ty}
    (hty : IsComb (members.map (·.1)) ty) {p : Spelling} {n : Node}
    (hn : Writes p (members.map (·.2)) n) :
    (∃ e, members.mapM settleMember = .error e ∧ ty.settle n = .error e)
      ∨ ∃ parts v, members.mapM settleMember = .ok parts ∧ ty.settle n = .ok v
        ∧ Assembles parts p.combs ty v := by
  -- By induction on the comb of types; an opened expression is the first member and a spelling
  -- of the rest.
  generalize hts : members.map (·.1) = ts at hty
  induction hty generalizing members p n with
  | last t =>
    obtain ⟨m, rfl, rfl⟩ := List.map_eq_singleton_iff.1 hts
    obtain ⟨rfl, rfl⟩ := writes_singleton_iff.1 hn
    rw [List.mapM_cons, settleMember]
    rcases m.1.settle m.2 with e | v
    · exact .inl ⟨e, rfl, rfl⟩
    · exact .inr ⟨_, v, rfl, rfl, .last m.1 v⟩
  | @pair i t ts r hr ih =>
    obtain ⟨m, members, rfl, rfl, rfl⟩ := List.map_eq_cons_iff.1 hts
    have hne : members.map (·.2) ≠ [] := fun hnil =>
      hr.ne_nil (List.map_eq_nil_iff.2 (List.map_eq_nil_iff.1 hnil))
    obtain ⟨c, q, second, hopens, hsecond, hs⟩ := Writes.exists_opens hn hne fun hlen =>
      hr.isPair (by rwa [List.length_map] at hlen ⊢)
    have hsettle : (pair i m.1 r).settle n = (do
        let a ← m.1.settle m.2
        let b ← r.settle second
        return .pair a b c) := by
      rw [settle, splitPair_eq_ok_iff.2 hs]
      rfl
    rw [hsettle, List.mapM_cons, settleMember, hopens.combs_eq]
    rcases m.1.settle m.2 with e | a
    · exact .inl ⟨e, rfl, rfl⟩
    rcases ih hsecond rfl with ⟨e, hrest, hfail⟩ | ⟨parts, b, hrest, hb, hassembles⟩
    · rw [hrest, hfail]
      exact .inl ⟨e, rfl, rfl⟩
    · rw [hrest, hb]
      exact .inr ⟨_, _, rfl, rfl, .pair i m.1 a c hassembles⟩

/-! ### What values with the same parts have in common -/

section Alike

variable {parts : List Typed} {ty : Ty} {v v' : Val}

/-- The notation of pairs is not readable. -/
theorem Alike.project_readable_eq (h : Alike parts ty v v') :
    ty.project .readable v = ty.project .readable v' := by
  induction h with
  | last => rfl
  | pair i t v c c' h ih =>
    rw [project, project, ih]
    rfl

theorem pairKind_congr {ms ms' : List Typed} (h : ms.map (·.ty) = ms'.map (·.ty)) :
    pairKind ms = pairKind ms' := by
  have hany : (ms.map (·.ty)).any isNamed = (ms'.map (·.ty)).any isNamed := by rw [h]
  rw [List.any_map, List.any_map] at hany
  exact congrArg (fun named : Bool => if named then "namedtuple" else "tuple") hany

/-- Values that are alike are presented alike. -/
theorem Alike.present_eq {loaded : Bool} (h : Alike parts ty v v') (hv : ty.Holds loaded v)
    (hv' : ty.Holds loaded v') : ty.present v = ty.present v' := by
  induction h with
  | last => rfl
  | @pair i t v c c' parts r w w' h ih =>
    have hkind := pairKind_congr ((map_ty_members hv).trans (map_ty_members hv').symm)
    cases hv with
    | pair _ hw =>
      cases hv' with
      | pair _ hw' =>
        rw [present, present, ih hw hw']
        simp only [hkind]

/-- Values that are alike are equal in the order if their parts equal themselves. -/
theorem Alike.compare_eq (h : Alike parts ty v v')
    (hself : ∀ part ∈ parts, ∃ o, part.compare part = .ok o) : ty.compare v v' = .ok .eq := by
  induction h with
  | last t v =>
    exact (isOrder_compare t).self_eq (hself _ List.mem_cons_self)
  | pair i t v c c' h ih =>
    obtain ⟨hpart, hparts⟩ := List.forall_mem_cons.1 hself
    have hfirst : t.compare v v = .ok .eq := (isOrder_compare t).self_eq hpart
    have hrest := ih hparts
    rw [compare] at hfirst hrest ⊢
    rw [compareValues, hfirst]
    exact hrest

end Alike

/-! ### Writing as spelled -/

theorem eq_last_of_combs {p : Spelling} (h : p.combs = []) : p = .last := by
  cases p with
  | last => rfl
  | group how more rest => exact absurd (List.append_eq_nil_iff.1 h).2 nofun

/-- A spelling with combs can be opened. -/
theorem opens_of_combs {p : Spelling} {c : Comb} {cs : List Comb} (h : p.combs = c :: cs) :
    ∃ q, Opens p c q ∧ q.combs = cs := by
  cases p with
  | last => cases h
  | group how more rest =>
    obtain ⟨c', q, hopens⟩ := Spelling.exists_opens how more rest
    obtain ⟨rfl, rfl⟩ := List.cons.inj (hopens.combs_eq.symm.trans h)
    exact ⟨q, hopens, rfl⟩

/-- **What is put together is written in its spelling.** -/
theorem exists_writes {ty : Ty} {parts : List Typed} {p : Spelling} {v : Val} {ns : List Node}
    (h : Assembles parts p.combs ty v) (hns : parts.mapM (Typed.project .preserve) = .ok ns) :
    ∃ n, ty.project .preserve v = .ok n ∧ Writes p.bare ns n := by
  generalize hcs : p.combs = cs at h
  replace hns := mapM_eq_ok_iff.1 hns
  induction h generalizing p ns with
  | last t v =>
    obtain rfl := eq_last_of_combs hcs
    obtain ⟨n, _, hn, hnil, rfl⟩ := List.forall₂_cons_left_iff.1 hns
    obtain rfl := List.forall₂_nil_left_iff.1 hnil
    exact ⟨n, hn, .last n⟩
  | pair i t v c h ih =>
    obtain ⟨q, hopens, rfl⟩ := opens_of_combs hcs
    obtain ⟨first, _, hfirst, hrest, rfl⟩ := List.forall₂_cons_left_iff.1 hns
    obtain ⟨second, hsecond, hwrites⟩ := ih rfl hrest
    refine ⟨writePair c first second, ?_, hopens.writes first hwrites⟩
    exact bind_eq_ok_iff.2 ⟨first, hfirst, bind_eq_ok_iff.2 ⟨second, hsecond, rfl⟩⟩

/-- What was settled is written as it was settled. -/
theorem exists_mapM_project_of_settle {members : List (Ty × Node)} {parts : List Typed}
    (h : members.mapM settleMember = .ok parts) :
    ∃ ns, parts.mapM (Typed.project .preserve) = .ok ns := by
  refine exists_mapM fun part hpart => ?_
  obtain ⟨m, -, hm⟩ := exists_of_mem_mapM h part hpart
  obtain ⟨v, hv, hm⟩ := bind_eq_ok_iff.1 hm
  obtain rfl := pure_eq_ok_iff.1 hm
  obtain ⟨n, hn, -⟩ := exists_project_preserve (holds_of_settle hv)
  exact ⟨n, hn⟩

/-- **All spellings of a comb agree.**  Either one of the members fails, and the whole fails in
the same way; or both values have the same parts and differ only in how their pairs are
remembered.  Then they have the same readable form and the same presentation and are equal in
the order if the parts can be compared with themselves, and each is written as it was spelled,
without annotations. -/
theorem settle_spellings {members : List (Ty × Node)} {ty : Ty}
    (hty : IsComb (members.map (·.1)) ty) {p p' : Spelling} {n n' : Node}
    (hn : Writes p (members.map (·.2)) n) (hn' : Writes p' (members.map (·.2)) n') :
    (∃ e, ty.settle n = .error e ∧ ty.settle n' = .error e)
      ∨ ∃ parts v v', members.mapM settleMember = .ok parts
        ∧ ty.settle n = .ok v ∧ Assembles parts p.combs ty v
        ∧ ty.settle n' = .ok v' ∧ Assembles parts p'.combs ty v'
        ∧ ty.project .readable v = ty.project .readable v'
        ∧ ty.present v = ty.present v'
        ∧ ((∀ part ∈ parts, ∃ o, part.compare part = .ok o) → ty.compare v v' = .ok .eq)
        ∧ ∃ ns m m', parts.mapM (Typed.project .preserve) = .ok ns
          ∧ ty.project .preserve v = .ok m ∧ Writes p.bare ns m
          ∧ ty.project .preserve v' = .ok m' ∧ Writes p'.bare ns m' := by
  rcases settle_cases hty hn with ⟨e, he, hfail⟩ | ⟨parts, v, hparts, hv, ha⟩
  · rcases settle_cases hty hn' with ⟨e', he', hfail'⟩ | ⟨parts', v', hparts', -⟩
    · obtain rfl := Except.error.inj (he.symm.trans he')
      exact .inl ⟨e, hfail, hfail'⟩
    · cases he.symm.trans hparts'
  · rcases settle_cases hty hn' with ⟨e', he', -⟩ | ⟨parts', v', hparts', hv', ha'⟩
    · cases hparts.symm.trans he'
    · obtain rfl := Except.ok.inj (hparts.symm.trans hparts')
      have halike := ha.alike ha'
      obtain ⟨ns, hns⟩ := exists_mapM_project_of_settle hparts
      obtain ⟨m, hm, hwrites⟩ := exists_writes ha hns
      obtain ⟨m', hm', hwrites'⟩ := exists_writes ha' hns
      exact .inr ⟨parts, v, v', hparts, hv, ha, hv', ha', halike.project_readable_eq,
        halike.present_eq (holds_of_settle hv) (holds_of_settle hv'), halike.compare_eq,
        ns, m, m', hns, hm, hwrites, hm', hwrites'⟩

/-- Four numbers, once as a pair that ends with a sequence and once as one sequence. -/
theorem settle_spellings_mixed :
    let nat : Ty := .scalar ⟨0, 0, []⟩ .nat
    let ty : Ty := .pair ⟨0, 0, []⟩ nat (.pair ⟨0, 0, []⟩ nat (.pair ⟨0, 0, []⟩ nat nat))
    let mixed : Node := .app "Pair" [.int 1, .int 2, .seq [.int 3, .int 4]]
    let listed : Node := .seq [.int 1, .int 2, .int 3, .int 4]
    ∃ v v', ty.settle mixed = .ok v ∧ ty.settle listed = .ok v' ∧ v ≠ v'
      ∧ ty.project .readable v = ty.project .readable v' ∧ ty.compare v v' = .ok .eq
      ∧ ty.project .preserve v = .ok mixed ∧ ty.project .preserve v' = .ok listed := by
  intro nat ty mixed listed
  let members : List (Ty × Node) := [(nat, .int 1), (nat, .int 2), (nat, .int 3), (nat, .int 4)]
  have hty : IsComb (members.map (·.1)) ty := .pair _ _ (.pair _ _ (.pair _ _ (.last nat)))
  have hmixed : Writes (.group (.pair []) 1 (.group .seq 0 .last)) (members.map (·.2)) mixed :=
    .group (.pair []) (.int 1) [.int 2] rfl (.group .seq (.int 3) [] rfl (.last (.int 4)))
  have hlisted : Writes (.group .seq 2 .last) (members.map (·.2)) listed :=
    .group .seq (.int 1) [.int 2, .int 3] rfl (.last (.int 4))
  obtain ⟨e, he, -⟩ | ⟨parts, v, v', hparts, hv, -, hv', -, hreadable, -, hequal, -⟩ :=
    settle_spellings hty hmixed hlisted
  · cases he.symm.trans rfl
  · obtain rfl : [1, 2, 3, 4].map (fun z => Typed.mk nat (.literal (.int z))) = parts :=
      Except.ok.inj hparts
    have hself : ∀ z : Int, ∃ o, (Typed.mk nat (.literal (.int z))).compare
        (Typed.mk nat (.literal (.int z))) = .ok o := fun z => ⟨_, rfl⟩
    obtain rfl := Except.ok.inj hv
    obtain rfl := Except.ok.inj hv'
    exact ⟨_, _, rfl, rfl, by decide, hreadable, hequal (List.forall_mem_map.2 fun z _ => hself z),
      rfl, rfl⟩

end Ty

end Micheline
