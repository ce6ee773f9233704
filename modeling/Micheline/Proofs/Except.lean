/-
Micheline/Proofs/Except.lean

Steps that may fail: a sequence of them succeeds when each step does.
-/
import Mathlib.Data.List.Forall2
import Mathlib.Data.List.Perm.Basic
import Micheline.Action

namespace Micheline

variable {ε α β : Type}

theorem bind_eq_ok_iff {x : Except ε α} {f : α → Except ε β} {b : β} :
    x >>= f = .ok b ↔ ∃ a, x = .ok a ∧ f a = .ok b := by
  constructor
  · intro h
    rcases x with e | a
    · cases h
    · exact ⟨a, rfl, h⟩
  · rintro ⟨a, rfl, h⟩
    exact h

theorem pure_eq_ok_iff {a b : α} : (pure a : Except ε α) = .ok b ↔ a = b :=
  ⟨Except.ok.inj, congrArg Except.ok⟩

/-- What is made of the result of a step is there if the step succeeds. -/
theorem exists_return_iff {x : Except ε α} {f : α → β} :
    (∃ b, (do return f (← x)) = Except.ok b) ↔ ∃ a, x = .ok a := by
  constructor
  · rintro ⟨b, hb⟩
    obtain ⟨a, ha, -⟩ := bind_eq_ok_iff.1 hb
    exact ⟨a, ha⟩
  · rintro ⟨a, ha⟩
    exact ⟨f a, bind_eq_ok_iff.2 ⟨a, ha, rfl⟩⟩

theorem map_eq_error_iff {f : α → β} {x : Except ε α} {e : ε} :
    (do return f (← x)) = .error e ↔ x = .error e := by
  rcases x with e' | a
  · exact ⟨fun h => congrArg _ (Except.error.inj h), fun h => congrArg _ (Except.error.inj h)⟩
  · exact ⟨nofun, nofun⟩

theorem map_eq_ok_iff {f : α → β} {x : Except ε α} {b : β} :
    x.map f = .ok b ↔ ∃ a, x = .ok a ∧ f a = b := by
  cases x with
  | ok a => exact ⟨fun h => ⟨a, rfl, Except.ok.inj h⟩, fun ⟨_, ha, h⟩ => by
      rw [← h, ← Except.ok.inj ha]
      rfl⟩
  | error e => exact ⟨nofun, nofun⟩

theorem lift_eq_ok_iff {wrap : ε → Error} {x : Except ε α} {a : α} :
    lift wrap x = .ok a ↔ x = .ok a := by
  cases x with
  | ok b => exact ⟨fun h => congrArg _ (Except.ok.inj h), fun h => congrArg _ (Except.ok.inj h)⟩
  | error e => exact ⟨nofun, nofun⟩

/-- A list is run through when every item is. -/
theorem mapM_eq_ok_iff {f : α → Except ε β} {as : List α} {bs : List β} :
    as.mapM f = .ok bs ↔ List.Forall₂ (fun a b => f a = .ok b) as bs := by
  induction as generalizing bs with
  | nil =>
    rw [List.mapM_nil, pure_eq_ok_iff, List.forall₂_nil_left_iff, eq_comm]
  | cons a as ih =>
    rw [List.mapM_cons, bind_eq_ok_iff, List.forall₂_cons_left_iff]
    constructor
    · rintro ⟨b, hb, h⟩
      obtain ⟨bs', hbs, h⟩ := bind_eq_ok_iff.1 h
      exact ⟨b, bs', hb, ih.1 hbs, (pure_eq_ok_iff.1 h).symm⟩
    · rintro ⟨b, bs', hb, hbs, rfl⟩
      exact ⟨b, hb, bind_eq_ok_iff.2 ⟨bs', ih.2 hbs, rfl⟩⟩

/-- What each step says of its item and result holds along a run that succeeds. -/
theorem forall₂_of_mapM {R : α → β → Prop} {f : α → Except ε β} {as : List α} {bs : List β}
    (h : as.mapM f = .ok bs) (hf : ∀ a ∈ as, ∀ b, f a = .ok b → R a b) :
    List.Forall₂ R as bs := by
  replace h := mapM_eq_ok_iff.1 h
  induction h with
  | nil => exact .nil
  | cons hab _ ih =>
    obtain ⟨ha, has⟩ := List.forall_mem_cons.1 hf
    exact .cons (ha _ hab) (ih has)

/-- Every result of a run comes from an item. -/
theorem exists_of_mem_mapM {f : α → Except ε β} {as : List α} {bs : List β}
    (h : as.mapM f = .ok bs) : ∀ b ∈ bs, ∃ a ∈ as, f a = .ok b := by
  replace h := mapM_eq_ok_iff.1 h
  induction h with
  | nil => exact nofun
  | cons hab _ ih =>
    refine List.forall_mem_cons.2 ⟨⟨_, List.mem_cons_self, hab⟩, fun b hb => ?_⟩
    obtain ⟨a, ha, h⟩ := ih b hb
    exact ⟨a, List.mem_cons_of_mem _ ha, h⟩

/-- Every item of a run that succeeds has a result. -/
theorem exists_of_mem_of_mapM {f : α → Except ε β} {as : List α} {bs : List β}
    (h : as.mapM f = .ok bs) : ∀ a ∈ as, ∃ b ∈ bs, f a = .ok b := by
  replace h := mapM_eq_ok_iff.1 h
  induction h with
  | nil => exact nofun
  | cons hab _ ih =>
    refine List.forall_mem_cons.2 ⟨⟨_, List.mem_cons_self, hab⟩, fun a ha => ?_⟩
    obtain ⟨b, hb, h⟩ := ih a ha
    exact ⟨b, List.mem_cons_of_mem _ hb, h⟩

/-- A result comes from the item at its place. -/
theorem exists_getElem?_of_mapM {f : α → Except ε β} {as : List α} {bs : List β} {i : Nat} {b : β}
    (h : as.mapM f = .ok bs) (hb : bs[i]? = some b) : ∃ a, as[i]? = some a ∧ f a = .ok b := by
  replace h := mapM_eq_ok_iff.1 h
  induction h generalizing i with
  | nil => cases hb
  | cons hab _ ih =>
    cases i with
    | zero =>
      obtain rfl := Option.some.inj hb
      exact ⟨_, rfl, hab⟩
    | succ i => exact ih hb

theorem exists_mapM_getElem? {f : α → Except ε β} {as : List α} {bs : List β} {i : Nat} {a : α}
    (h : as.mapM f = .ok bs) (ha : as[i]? = some a) : ∃ b, bs[i]? = some b ∧ f a = .ok b := by
  replace h := mapM_eq_ok_iff.1 h
  induction h generalizing i with
  | nil => cases ha
  | cons hab _ ih =>
    cases i with
    | zero =>
      obtain rfl := Option.some.inj ha
      exact ⟨_, rfl, hab⟩
    | succ i => exact ih ha

/-- A run along two lists is a run along each. -/
theorem mapM_append_eq_ok_iff {f : α → Except ε β} {as as' : List α} {cs : List β} :
    (as ++ as').mapM f = .ok cs
      ↔ ∃ bs bs', as.mapM f = .ok bs ∧ as'.mapM f = .ok bs' ∧ cs = bs ++ bs' := by
  rw [List.mapM_append, bind_eq_ok_iff]
  constructor
  · rintro ⟨bs, hbs, h⟩
    obtain ⟨bs', hbs', h⟩ := bind_eq_ok_iff.1 h
    exact ⟨bs, bs', hbs, hbs', (pure_eq_ok_iff.1 h).symm⟩
  · rintro ⟨bs, bs', hbs, hbs', rfl⟩
    exact ⟨bs, hbs, bind_eq_ok_iff.2 ⟨bs', hbs', rfl⟩⟩

/-- What is prepared in another order, is the same in that order. -/
theorem exists_mapM_of_perm {f : α → Except ε β} {as as' : List α} {bs : List β}
    (hp : as.Perm as') (h : as.mapM f = .ok bs) : ∃ bs', as'.mapM f = .ok bs' ∧ bs.Perm bs' := by
  obtain ⟨bs', h', hbs⟩ := List.perm_comp_forall₂ hp.symm (mapM_eq_ok_iff.1 h)
  exact ⟨bs', mapM_eq_ok_iff.2 h', hbs.symm⟩

/-- That the items are known to be in the list plays no part in a run. -/
theorem mapM_attach {m : Type → Type} [Monad m] [LawfulMonad m] {f : α → m β} {as : List α} :
    (as.attach.mapM fun a => f a.1) = as.mapM f := by
  have hmap : (as.attach.map Subtype.val).mapM f = as.attach.mapM fun a => f a.1 :=
    List.mapM_map
  rw [← hmap, List.attach_map_subtype_val]

/-- Steps that undo other steps undo them for a whole list. -/
theorem mapM_of_mapM {f : α → Except ε β} {g : β → Except ε α} {as : List α} {bs : List β}
    (h : as.mapM f = .ok bs) (hg : ∀ a ∈ as, ∀ b, f a = .ok b → g b = .ok a) :
    bs.mapM g = .ok as :=
  mapM_eq_ok_iff.2 (List.Forall₂.flip (forall₂_of_mapM h hg))

/-- Steps that do nothing a second time do nothing to a whole list. -/
theorem mapM_self_of_mapM {f : α → Except ε α} {as bs : List α} (h : as.mapM f = .ok bs)
    (hf : ∀ a ∈ as, ∀ b, f a = .ok b → f b = .ok b) : bs.mapM f = .ok bs := by
  refine mapM_eq_ok_iff.2 (List.forall₂_same.2 fun b hb => ?_)
  obtain ⟨a, ha, hab⟩ := exists_of_mem_mapM h b hb
  exact hf a ha b hab

/-- A step in place of two, for a whole list. -/
theorem exists_mapM_comp {γ : Type} {f : α → Except ε γ} {g : α → Except ε β}
    {h : β → Except ε γ} {as : List α} {cs : List γ} (hf : as.mapM f = .ok cs)
    (hstep : ∀ a ∈ as, ∀ c, f a = .ok c → ∃ b, g a = .ok b ∧ h b = .ok c) :
    ∃ bs, as.mapM g = .ok bs ∧ bs.mapM h = .ok cs := by
  replace hf := mapM_eq_ok_iff.1 hf
  induction hf with
  | nil => exact ⟨[], rfl, rfl⟩
  | cons hac _ ih =>
    obtain ⟨ha, has⟩ := List.forall_mem_cons.1 hstep
    obtain ⟨b, hb, hc⟩ := ha _ hac
    obtain ⟨bs, hbs, hcs⟩ := ih has
    refine ⟨b :: bs, ?_, ?_⟩
    · rw [List.mapM_cons, hb, hbs]
      rfl
    · rw [List.mapM_cons, hc, hcs]
      rfl

/-- Two steps in place of one, for a whole list. -/
theorem mapM_comp {γ : Type} {f : α → Except ε γ} {g : α → Except ε β} {h : β → Except ε γ}
    {as : List α} {bs : List β} {cs : List γ} (hg : as.mapM g = .ok bs)
    (hh : bs.mapM h = .ok cs)
    (hstep : ∀ a ∈ as, ∀ b c, g a = .ok b → h b = .ok c → f a = .ok c) :
    as.mapM f = .ok cs := by
  replace hg := mapM_eq_ok_iff.1 hg
  induction hg generalizing cs with
  | nil => exact hh
  | cons hab _ ih =>
    obtain ⟨ha, has⟩ := List.forall_mem_cons.1 hstep
    rw [List.mapM_cons, bind_eq_ok_iff] at hh
    obtain ⟨c, hc, hh⟩ := hh
    obtain ⟨cs', hcs, hh⟩ := bind_eq_ok_iff.1 hh
    obtain rfl := pure_eq_ok_iff.1 hh
    rw [List.mapM_cons, ha _ _ hab hc, ih hcs has]
    rfl

/-- Steps on related items that have the same results. -/
theorem mapM_of_forall₂ {γ : Type} {R : α → β → Prop} {f : α → Except ε γ} {g : β → Except ε γ}
    {as : List α} {bs : List β} {cs : List γ} (h : List.Forall₂ R as bs)
    (hf : as.mapM f = .ok cs)
    (hstep : ∀ a ∈ as, ∀ b c, R a b → f a = .ok c → g b = .ok c) : bs.mapM g = .ok cs := by
  induction h generalizing cs with
  | nil => exact hf
  | cons hab _ ih =>
    obtain ⟨ha, has⟩ := List.forall_mem_cons.1 hstep
    rw [List.mapM_cons, bind_eq_ok_iff] at hf
    obtain ⟨c, hc, hf⟩ := hf
    obtain ⟨cs', hcs, hf⟩ := bind_eq_ok_iff.1 hf
    rw [List.mapM_cons, ha _ _ hab hc, ih hcs has]
    exact hf

/-- Steps on related items whose results, as far as there are any, are the same. -/
theorem eq_of_mapM_of_forall₂ {γ : Type} {R : α → β → Prop} {f : α → Except ε γ}
    {g : β → Except ε γ} {as : List α} {bs : List β} {cs ds : List γ} (h : List.Forall₂ R as bs)
    (hf : as.mapM f = .ok cs) (hg : bs.mapM g = .ok ds)
    (hstep : ∀ a b c d, R a b → f a = .ok c → g b = .ok d → c = d) : cs = ds := by
  induction h generalizing cs ds with
  | nil => exact Except.ok.inj (hf.symm.trans hg)
  | cons hab _ ih =>
    rw [List.mapM_cons, bind_eq_ok_iff] at hf hg
    obtain ⟨c, hc, hf⟩ := hf
    obtain ⟨cs', hcs, hf⟩ := bind_eq_ok_iff.1 hf
    obtain ⟨d, hd, hg⟩ := hg
    obtain ⟨ds', hds, hg⟩ := bind_eq_ok_iff.1 hg
    rw [← pure_eq_ok_iff.1 hf, ← pure_eq_ok_iff.1 hg, hstep _ _ c d hab hc hd, ih hcs hds]

/-- Two steps at each item are a run of the first ones and then a run of the second ones. -/
theorem mapM_bind_eq_ok_iff {γ : Type} {f : α → Except ε β} {g : β → Except ε γ}
    {as : List α} {cs : List γ} :
    (as.mapM fun a => f a >>= g) = .ok cs ↔ ∃ bs, as.mapM f = .ok bs ∧ bs.mapM g = .ok cs := by
  constructor
  · intro h
    exact exists_mapM_comp h fun a _ c hc => bind_eq_ok_iff.1 hc
  · rintro ⟨bs, hbs, hcs⟩
    exact mapM_comp hbs hcs fun a _ b c hb hc => bind_eq_ok_iff.2 ⟨b, hb, hc⟩

/-- A run succeeds if every step does. -/
theorem exists_mapM {f : α → Except ε β} {as : List α} (h : ∀ a ∈ as, ∃ b, f a = .ok b) :
    ∃ bs, as.mapM f = .ok bs := by
  induction as with
  | nil => exact ⟨[], rfl⟩
  | cons a as ih =>
    obtain ⟨⟨b, hb⟩, has⟩ := List.forall_mem_cons.1 h
    obtain ⟨bs, hbs⟩ := ih has
    exact ⟨b :: bs, by rw [List.mapM_cons, hb, hbs]; rfl⟩

/-- Steps on what items are turned into that are the same as steps on the items. -/
theorem mapM_map_congr {γ : Type} {e : α → β} {f : β → Except ε γ} {g : α → Except ε γ}
    {as : List α} (h : ∀ a ∈ as, f (e a) = g a) : (as.map e).mapM f = as.mapM g := by
  induction as with
  | nil => rfl
  | cons a as ih =>
    obtain ⟨ha, has⟩ := List.forall_mem_cons.1 h
    rw [List.map_cons, List.mapM_cons, List.mapM_cons, ha, ih has]

/-- Steps that have the results of steps on what the items are turned into. -/
theorem exists_mapM_map {γ : Type} {e : α → β} {f : β → Except ε γ} {g : α → Except ε γ}
    {as : List α} (h : ∀ a ∈ as, ∃ c, f (e a) = .ok c ∧ g a = .ok c) :
    ∃ cs, (as.map e).mapM f = .ok cs ∧ as.mapM g = .ok cs := by
  induction as with
  | nil => exact ⟨[], rfl, rfl⟩
  | cons a as ih =>
    obtain ⟨⟨c, hf, hg⟩, has⟩ := List.forall_mem_cons.1 h
    obtain ⟨cs, hfs, hgs⟩ := ih has
    exact ⟨c :: cs, by rw [List.map_cons, List.mapM_cons, hf, hfs]; rfl,
      by rw [List.mapM_cons, hg, hgs]; rfl⟩

/-- What is made of the results of steps is made by the steps. -/
theorem map_mapM {γ : Type} {f : α → Except ε β} {g : β → γ} {as : List α} :
    (as.mapM f).map (List.map g) = as.mapM fun a => (f a).map g := by
  induction as with
  | nil => rfl
  | cons a as ih =>
    rw [List.mapM_cons, List.mapM_cons, ← ih]
    rcases f a with e | b
    · rfl
    · show ((as.mapM f >>= fun bs => pure (b :: bs)).map (List.map g)) = _
      rcases as.mapM f with e | bs <;> rfl

/-- Steps on the results of other steps that are the same as steps at once. -/
theorem mapM_eq_of_mapM {γ : Type} {f : α → Except ε γ} {g : α → Except ε β}
    {h : β → Except ε γ} {as : List α} {bs : List β} (hg : as.mapM g = .ok bs)
    (hstep : ∀ a ∈ as, ∀ b, g a = .ok b → h b = f a) : bs.mapM h = as.mapM f := by
  replace hg := mapM_eq_ok_iff.1 hg
  induction hg with
  | nil => rfl
  | cons hab _ ih =>
    obtain ⟨ha, has⟩ := List.forall_mem_cons.1 hstep
    rw [List.mapM_cons, List.mapM_cons, ha _ hab, ih has]

/-- Steps that succeed and can be undone can be undone for a whole list. -/
theorem exists_mapM_of_undone {f : α → Except ε β} {g : β → Except ε α} {as : List α}
    (h : ∀ a ∈ as, ∃ b, f a = .ok b ∧ g b = .ok a) :
    ∃ bs, as.mapM f = .ok bs ∧ bs.mapM g = .ok as := by
  obtain ⟨bs, hbs⟩ := exists_mapM fun a ha => (h a ha).imp fun b hb => hb.1
  refine ⟨bs, hbs, mapM_of_mapM hbs fun a ha b hb => ?_⟩
  obtain ⟨b', hb', hg⟩ := h a ha
  rw [hb] at hb'
  exact Except.ok.inj hb' ▸ hg

/-- Steps that each prepare an item and then take it in succeed when all items can be
prepared and can be taken in one after another. -/
theorem foldlM_bind_eq_ok_iff {γ : Type} {f : α → Except ε β} {g : γ → β → Except ε γ}
    {as : List α} {c r : γ} :
    as.foldlM (fun c a => f a >>= g c) c = .ok r
      ↔ ∃ bs, as.mapM f = .ok bs ∧ bs.foldlM g c = .ok r := by
  induction as generalizing c with
  | nil =>
    constructor
    · intro h
      exact ⟨[], rfl, h⟩
    · rintro ⟨bs, hbs, h⟩
      obtain rfl := Except.ok.inj hbs
      exact h
  | cons a as ih =>
    rw [List.foldlM_cons, List.mapM_cons, bind_eq_ok_iff]
    constructor
    -- the step prepares an item and takes it in before it comes to the next one
    · rintro ⟨c', hc, h⟩
      obtain ⟨b, hb, hg⟩ := bind_eq_ok_iff.1 hc
      obtain ⟨bs, hbs, hr⟩ := ih.1 h
      refine ⟨b :: bs, by rw [hb, hbs]; rfl, ?_⟩
      rw [List.foldlM_cons, hg]
      exact hr
    · rintro ⟨bs, hbs, hr⟩
      obtain ⟨b, hb, h⟩ := bind_eq_ok_iff.1 hbs
      obtain ⟨bs', hbs', h⟩ := bind_eq_ok_iff.1 h
      obtain rfl := pure_eq_ok_iff.1 h
      rw [List.foldlM_cons] at hr
      obtain ⟨c', hc, hr⟩ := bind_eq_ok_iff.1 hr
      exact ⟨c', bind_eq_ok_iff.2 ⟨b, hb, hc⟩, ih.2 ⟨bs', hbs', hr⟩⟩

/-! ### Actions -/

namespace Action

variable {σ : Type} {make : σ → Except Error (α × σ)} {s s' : σ} {a : α} {e : Error}

/-- What replaces the state is the next state if it could be made. -/
theorem outcome_replace_of_ok (h : make s = .ok (a, s')) :
    (replace make).outcome s = (.ok a, s') := by
  show outcome (do
    let (a, s') ← MonadExcept.ofExcept (make s)
    set s'
    return a) s = _
  rw [h]
  rfl

/-- **An action that fails leaves the state as it was.** -/
theorem outcome_replace_of_error (h : make s = .error e) :
    (replace make).outcome s = (.error e, s) := by
  show outcome (do
    let (a, s') ← MonadExcept.ofExcept (make s)
    set s'
    return a) s = _
  rw [h]
  rfl

theorem outcome_replace_eq_error_iff :
    ((replace make).outcome s).1 = .error e ↔ make s = .error e := by
  rcases h : make s with e' | ⟨a, s'⟩
  · simp [outcome_replace_of_error h]
  · simp [outcome_replace_of_ok h]

end Action

end Micheline
