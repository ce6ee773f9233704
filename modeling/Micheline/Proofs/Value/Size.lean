/-
Micheline/Proofs/Value/Size.lean

What a value is written as is no larger than what it was settled from
(`Ty.count_project_le`): annotations and all that a set or a map takes only once are gone,
and nothing is added.
-/
import Mathlib.Algebra.BigOperators.Group.List.Basic
import Mathlib.Algebra.GroupWithZero.Nat
import Micheline.Proofs.Value.Preserve

namespace Micheline

/-! ### Weights of sets and maps -/

namespace Sorted

variable {ε κ ν : Type} {cmp : κ → κ → Except ε Ordering} (w : κ → Nat) (u : ν → Nat)

/-- Adding an element adds its weight at most. -/
theorem sum_add_le {x : κ} {xs ys : List κ} (h : add cmp x xs = .ok ys) :
    (ys.map w).sum ≤ w x + (xs.map w).sum := by
  induction xs generalizing ys with
  | nil =>
    obtain rfl := Except.ok.inj h
    exact Nat.le_refl _
  | cons y xs ih =>
    rw [add, bind_eq_ok_iff] at h
    obtain ⟨o, -, h⟩ := h
    cases o with
    | lt =>
      obtain ⟨rest, hrest, h⟩ := bind_eq_ok_iff.1 h
      obtain rfl := pure_eq_ok_iff.1 h
      have := ih hrest
      simp only [List.map_cons, List.sum_cons]
      omega
    | eq =>
      obtain rfl := pure_eq_ok_iff.1 h
      exact Nat.le_add_left _ _
    | gt =>
      obtain rfl := pure_eq_ok_iff.1 h
      exact Nat.le_refl _

theorem sum_foldlM_add_le {xs done ys : List κ}
    (h : xs.foldlM (fun done x => add cmp x done) done = .ok ys) :
    (ys.map w).sum ≤ (done.map w).sum + (xs.map w).sum := by
  induction xs generalizing done with
  | nil =>
    obtain rfl := Except.ok.inj h
    exact Nat.le_refl _
  | cons x xs ih =>
    rw [List.foldlM_cons, bind_eq_ok_iff] at h
    obtain ⟨done', hadd, h⟩ := h
    have := sum_add_le w hadd
    have := ih h
    simp only [List.map_cons, List.sum_cons]
    omega

/-- The weight of an entry. -/
def entryWeight (p : κ × ν) : Nat := w p.1 + u p.2

/-- Inserting an entry adds its weight at most. -/
theorem sum_insert_le {key : κ} {value : ν} {old : Option ν} {pairs done : List (κ × ν)}
    (h : insert cmp key value pairs = .ok (old, done)) :
    (done.map (entryWeight w u)).sum
      ≤ entryWeight w u (key, value) + (pairs.map (entryWeight w u)).sum := by
  induction pairs generalizing old done with
  | nil =>
    obtain ⟨-, rfl⟩ := Prod.mk.inj (Except.ok.inj h)
    exact Nat.le_refl _
  | cons q pairs ih =>
    obtain ⟨k, v⟩ := q
    rw [insert, bind_eq_ok_iff] at h
    obtain ⟨o, -, h⟩ := h
    cases o with
    | lt =>
      obtain ⟨⟨old', rest⟩, hrest, h⟩ := bind_eq_ok_iff.1 h
      obtain ⟨-, rfl⟩ := Prod.mk.inj (pure_eq_ok_iff.1 h)
      have := ih hrest
      simp only [List.map_cons, List.sum_cons]
      omega
    | eq =>
      -- one of the two keys goes, and one of the two values
      obtain ⟨-, rfl⟩ := Prod.mk.inj (pure_eq_ok_iff.1 h)
      simp only [List.map_cons, List.sum_cons, entryWeight]
      omega
    | gt =>
      obtain ⟨-, rfl⟩ := Prod.mk.inj (pure_eq_ok_iff.1 h)
      exact Nat.le_refl _

theorem sum_foldlM_put_le {pairs done made : List (κ × ν)}
    (h : pairs.foldlM (put cmp) done = .ok made) :
    (made.map (entryWeight w u)).sum
      ≤ (done.map (entryWeight w u)).sum + (pairs.map (entryWeight w u)).sum := by
  induction pairs generalizing done with
  | nil =>
    obtain rfl := Except.ok.inj h
    exact Nat.le_refl _
  | cons q pairs ih =>
    rw [List.foldlM_cons, bind_eq_ok_iff] at h
    obtain ⟨done', hput, h⟩ := h
    obtain ⟨⟨old, rest⟩, hins, hput⟩ := bind_eq_ok_iff.1 hput
    obtain rfl := pure_eq_ok_iff.1 hput
    have hle : (rest.map (entryWeight w u)).sum
        ≤ entryWeight w u q + (done.map (entryWeight w u)).sum := sum_insert_le w u hins
    calc (made.map (entryWeight w u)).sum
        ≤ (rest.map (entryWeight w u)).sum + (pairs.map (entryWeight w u)).sum := ih h
      _ ≤ (done.map (entryWeight w u)).sum + ((q :: pairs).map (entryWeight w u)).sum := by
          rw [List.map_cons, List.sum_cons]
          omega

end Sorted

namespace Ty

/-! ### Lists of expressions -/

section Lists

variable {α : Type} {w : α → Nat} {as : List α} {ns : List Node}

theorem countAll_le_of_mapM {f : α → Except Error Node} (h : as.mapM f = .ok ns)
    (hw : ∀ a ∈ as, ∀ n, f a = .ok n → n.count ≤ w a) : Node.countAll ns ≤ (as.map w).sum := by
  have hall := forall₂_of_mapM h hw
  clear h hw
  induction hall with
  | nil => exact Nat.le_refl _
  | cons hn _ ih =>
    simp only [Node.countAll, List.map_cons, List.sum_cons]
    omega

theorem sum_le_countAll_of_mapM {g : Node → Except Error α} (h : ns.mapM g = .ok as)
    (hw : ∀ n ∈ ns, ∀ a, g n = .ok a → w a ≤ n.count) : (as.map w).sum ≤ Node.countAll ns := by
  have hall := forall₂_of_mapM h hw
  clear h hw
  induction hall with
  | nil => exact Nat.le_refl _
  | cons hn _ ih =>
    simp only [Node.countAll, List.map_cons, List.sum_cons]
    omega

end Lists

/-! ### The size of a value -/

/-- The size of what a value is written as. -/
def writtenSize (ty : Ty) (v : Val) : Nat :=
  match ty.project .preserve v with
  | .ok n => n.count
  | .error _ => 0

variable {ty : Ty} {n m : Node} {v : Val}

theorem count_eq_writtenSize (h : ty.project .preserve v = .ok n) :
    n.count = ty.writtenSize v := by
  rw [writtenSize, h]

theorem writtenSize_le {bound : Nat} (h : ∀ n, ty.project .preserve v = .ok n → n.count ≤ bound) :
    ty.writtenSize v ≤ bound := by
  rw [writtenSize]
  split
  next n hn => exact h n hn
  next => exact Nat.zero_le _

/-! ### Pairs -/

/-- Cutting a pair and writing it again keeps the number of nodes. -/
theorem count_of_splits {nested : Bool} {n first second : Node} {comb : Comb}
    (h : Splits nested n first second comb) : (writePair comb first second).count = n.count := by
  cases h <;> rfl

/-- The size of a pair is that of its parts, and one more unless the first part joins the
members of the second one. -/
theorem count_writePair {comb : Comb} {first second : Node}
    (h : comb = .joined → IsPairNode second) :
    (writePair comb first second).count
      = first.count + second.count + if comb = .joined then 0 else 1 := by
  cases comb with
  | joined =>
    obtain ⟨members, -, rfl | rfl⟩ := h rfl
    · simp only [writePair, Node.count, Node.countAll, if_true]
      omega
    · simp only [writePair, Node.app, Node.count, Node.countAll, if_true]
      omega
  | _ =>
    simp only [writePair, Node.app, Node.count, Node.countAll, reduceCtorEq, if_false]
    omega

theorem isPairNode_of_splits {nested : Bool} {n first second : Node} {comb : Comb}
    (h : Splits nested n first second comb) : comb = .joined → IsPairNode second := by
  cases h with
  | pair | seq => exact nofun
  | joinedPair _ hlen => exact fun _ => ⟨_, hlen, .inr rfl⟩
  | joinedSeq _ hlen => exact fun _ => ⟨_, hlen, .inl rfl⟩

/-! ### Entries -/

/-- The entries of a map are no larger than those it was made of. -/
theorem countAll_projectEntries_le {key value : Ty} {items ms : List Node}
    {pairs done : List (Val × Val)} (hpairs : items.mapM (settleEntry key value) = .ok pairs)
    (hdone : pairs.foldlM (Sorted.put key.compare) [] = .ok done)
    (hms : done.mapM (project.projectEntry (key.project .preserve) (value.project .preserve))
      = .ok ms)
    (ihk : ∀ {n v m}, key.settle n = .ok v → key.project .preserve v = .ok m → m.count ≤ n.count)
    (ihv : ∀ {n v m}, value.settle n = .ok v → value.project .preserve v = .ok m →
      m.count ≤ n.count) :
    Node.countAll ms ≤ Node.countAll items := by
  -- Weigh each entry by what it is written as: inserting replaces entries of one key and so
  -- cannot make the sum larger.
  let w : Val × Val → Nat := Sorted.entryWeight (fun k => 1 + key.writtenSize k) value.writtenSize
  calc Node.countAll ms
      ≤ (done.map w).sum := by
        refine countAll_le_of_mapM hms fun p _ n hn => ?_
        obtain ⟨k, hk, hn⟩ := bind_eq_ok_iff.1 hn
        obtain ⟨v, hv, hn⟩ := bind_eq_ok_iff.1 hn
        obtain rfl := pure_eq_ok_iff.1 hn
        simp only [Node.app, Node.count, Node.countAll, count_eq_writtenSize hk,
          count_eq_writtenSize hv, w, Sorted.entryWeight]
        omega
    _ ≤ (pairs.map w).sum := by
        simpa using
          Sorted.sum_foldlM_put_le (fun k => 1 + key.writtenSize k) value.writtenSize hdone
    _ ≤ Node.countAll items := by
        refine sum_le_countAll_of_mapM hpairs fun item _ p hp => ?_
        obtain ⟨k, v, annots, rfl, hk, hv⟩ := settleEntry_eq_ok_iff.1 hp
        have hkey : key.writtenSize p.1 ≤ k.count := writtenSize_le fun _ => ihk hk
        have hvalue : value.writtenSize p.2 ≤ v.count := writtenSize_le fun _ => ihv hv
        simp only [Node.count, Node.countAll, w, Sorted.entryWeight]
        omega

/-- **What is written is no larger than what was settled.** -/
theorem count_project_le (h : ty.settle n = .ok v) (hm : ty.project .preserve v = .ok m) :
    m.count ≤ n.count := by
  induction ty generalizing n v m with
  | unit i =>
    obtain ⟨rfl, annots, rfl⟩ := settle_unit_eq_ok_iff.1 h
    obtain rfl := Except.ok.inj hm
    exact Nat.le_refl _
  | never i | operation i => cases h
  | bool i =>
    obtain ⟨b, args, annots, rfl, rfl⟩ := settle_bool_eq_ok_iff.1 h
    have hcount : m.count = 1 := by
      cases b <;> obtain rfl := Except.ok.inj hm <;> rfl
    rw [hcount]
    exact Nat.le_add_right _ _
  | scalar i kind =>
    obtain ⟨l, rfl, rfl, -⟩ := (settle_literal_eq_ok_iff .scalar).1 h
    obtain rfl := Except.ok.inj hm
    exact Nat.le_refl _
  | contract i param =>
    obtain ⟨l, rfl, rfl, -⟩ := (settle_literal_eq_ok_iff .contract).1 h
    obtain rfl := Except.ok.inj hm
    exact Nat.le_refl _
  | pair i l r ihl ihr =>
    obtain ⟨first, second, comb, a, b, hs, ha, hb, rfl⟩ := settle_pair_eq_ok_iff.1 h
    obtain ⟨first', hfirst, hm⟩ := bind_eq_ok_iff.1 hm
    obtain ⟨second', hsecond, hm⟩ := bind_eq_ok_iff.1 hm
    obtain rfl := pure_eq_ok_iff.1 hm
    -- a pair is written for a pair, so that the first part has members to join
    have hjoined : comb = .joined → IsPairNode second' := by
      cases holds_of_settle h with
      | pair _ hheld hcomb => exact fun hc => isPairNode_of_project hheld (hcomb hc) hsecond
    have hl := ihl ha hfirst
    have hr := ihr hb hsecond
    calc (writePair (combIn .preserve comb) first' second').count
        = first'.count + second'.count + if comb = .joined then 0 else 1 := count_writePair hjoined
      _ ≤ first.count + second.count + if comb = .joined then 0 else 1 := by omega
      _ = (writePair comb first second).count := (count_writePair (isPairNode_of_splits hs)).symm
      _ = n.count := count_of_splits hs
  | or i l r ihl ihr =>
    obtain ⟨arg, a, annots, rfl, ha, rfl⟩ | ⟨arg, b, annots, rfl, hb, rfl⟩ :=
      settle_or_eq_ok_iff.1 h
    · obtain ⟨arg', harg, hm⟩ := bind_eq_ok_iff.1 hm
      obtain rfl := pure_eq_ok_iff.1 hm
      exact Nat.add_le_add_left (ihl ha harg) 1
    · obtain ⟨arg', harg, hm⟩ := bind_eq_ok_iff.1 hm
      obtain rfl := pure_eq_ok_iff.1 hm
      exact Nat.add_le_add_left (ihr hb harg) 1
  | option i t ih =>
    obtain ⟨annots, rfl, rfl⟩ | ⟨arg, a, annots, rfl, ha, rfl⟩ := settle_option_eq_ok_iff.1 h
    · obtain rfl := Except.ok.inj hm
      exact Nat.le_refl _
    · obtain ⟨arg', harg, hm⟩ := bind_eq_ok_iff.1 hm
      obtain rfl := pure_eq_ok_iff.1 hm
      exact Nat.add_le_add_left (ih ha harg) 1
  | list i elem ih =>
    obtain ⟨items, values, rfl, hvalues, rfl⟩ := settle_list_eq_ok_iff.1 h
    obtain ⟨ms, hms, hm⟩ := bind_eq_ok_iff.1 hm
    obtain rfl := pure_eq_ok_iff.1 hm
    apply Nat.add_le_add_left
    calc Node.countAll ms
        ≤ (values.map elem.writtenSize).sum :=
          countAll_le_of_mapM hms fun _ _ _ h => Nat.le_of_eq (count_eq_writtenSize h)
      _ ≤ Node.countAll items :=
          sum_le_countAll_of_mapM hvalues fun _ _ _ h => writtenSize_le fun _ => ih h
  | set i elem ih =>
    obtain ⟨items, values, done, rfl, hvalues, hdone, rfl⟩ := settle_set_eq_ok_iff.1 h
    obtain ⟨ms, hms, hm⟩ := bind_eq_ok_iff.1 hm
    obtain rfl := pure_eq_ok_iff.1 hm
    apply Nat.add_le_add_left
    calc Node.countAll ms
        ≤ (done.map elem.writtenSize).sum :=
          countAll_le_of_mapM hms fun _ _ _ h => Nat.le_of_eq (count_eq_writtenSize h)
      _ ≤ (values.map elem.writtenSize).sum := by
          simpa using Sorted.sum_foldlM_add_le elem.writtenSize hdone
      _ ≤ Node.countAll items :=
          sum_le_countAll_of_mapM hvalues fun _ _ _ h => writtenSize_le fun _ => ih h
  | map i key value ihk ihv =>
    obtain ⟨items, pairs, done, rfl, hpairs, hdone, rfl⟩ := settle_map_eq_ok_iff.1 h
    obtain ⟨ms, hms, hm⟩ := bind_eq_ok_iff.1 hm
    obtain rfl := pure_eq_ok_iff.1 hm
    exact Nat.add_le_add_left (countAll_projectEntries_le hpairs hdone hms ihk ihv) 1
  | bigMap i key value ihk ihv =>
    obtain ⟨id, rfl, -, rfl⟩ | ⟨items, pairs, done, rfl, hpairs, hdone, rfl⟩ :=
      settle_bigMap_eq_ok_iff.1 h
    · obtain rfl := Except.ok.inj hm
      exact Nat.le_refl _
    · rw [project_entries .bigMap (.inl rfl)] at hm
      obtain ⟨ms, hms, hm⟩ := bind_eq_ok_iff.1 hm
      obtain rfl := pure_eq_ok_iff.1 hm
      exact Nat.add_le_add_left (countAll_projectEntries_le hpairs hdone hms ihk ihv) 1
  | lambda i param result =>
    obtain ⟨rfl, -⟩ := settle_lambda_eq_ok_iff.1 h
    obtain rfl := Except.ok.inj hm
    exact Nat.le_refl _
  | ticket i content paired _ ih => exact ih h hm
  | saplingState i memo =>
    obtain ⟨rfl, -⟩ := settle_saplingState_eq_ok_iff.1 h
    obtain rfl := Except.ok.inj hm
    exact Nat.le_refl _
  | saplingTransaction i deprecated memo =>
    obtain ⟨rfl, -⟩ := settle_saplingTransaction_eq_ok_iff.1 h
    obtain rfl := Except.ok.inj hm
    exact Nat.le_refl _
  | constant i hash =>
    obtain rfl := settle_constant_eq_ok_iff.1 h
    obtain rfl := Except.ok.inj hm
    exact Nat.le_refl _

end Ty

end Micheline
