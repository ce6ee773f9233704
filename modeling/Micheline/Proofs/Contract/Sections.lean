/-
Micheline/Proofs/Contract/Sections.lean

Sections of scripts in another order.  Each section is read by itself, and of the parameters, the
storages and the codes the last one counts (`Script.Sections.foldl_add`).  So where there is one
of each, a script is made of these and of its views (`Script.IsMadeOf`), and it is the same in
every order of its sections that keeps the order of the views (`Script.ofNodes_of_perm`).
-/
import Micheline.Proofs.Contract.Constants
import Micheline.Proofs.Except

namespace Micheline.Script

variable {ns parts parts' : List Node} {cs cs' : List Section} {s : Script}

/-! ### The names of sections -/

/-- Whether an expression is a section of a name. -/
def isSection (name : String) (part : Node) : Bool :=
  part.name? == some name

namespace Section

/-- The name of a section. -/
def name : Section → String
  | .parameter _ => parameterName
  | .storage _ => storageName
  | .code _ => codeName
  | .view _ => viewName

/-- The parameter type, if the section is one. -/
def parameter? : Section → Option Node
  | .parameter type => some type
  | _ => none

/-- The storage type, if the section is one. -/
def storage? : Section → Option Node
  | .storage type => some type
  | _ => none

/-- The code, if the section is that. -/
def code? : Section → Option Node
  | .code n => some n
  | _ => none

/-- The view, if the section is one. -/
def view? : Section → Option View
  | .view v => some v
  | _ => none

/-- What an expression looks like that writes a section. -/
inductive IsWritten : Node → Section → Prop
  | parameter {type : Node} {annots : List String} :
    IsWritten (.prim parameterName [type] annots) (.parameter type)
  | storage {type : Node} {annots : List String} :
    IsWritten (.prim storageName [type] annots) (.storage type)
  | code {n : Node} {annots : List String} : IsWritten (.prim codeName [n] annots) (.code n)
  | view {args : List Node} {annots : List String} {v : View}
    (h : Script.view (.prim viewName args annots) = .ok v) :
    IsWritten (.prim viewName args annots) (.view v)

theorem args_of_onlyArg {name : String} {args : List Node} {annots : List String} {n : Node}
    (h : onlyArg name (.prim name args annots) = .ok n) : args = [n] := by
  match args with
  | [arg] => rw [Except.ok.inj h]
  | [] | _ :: _ :: _ => cases h

/-- A section that is read is written by the node that it was read from. -/
theorem isWritten_of_ofNode {part : Node} {c : Section} (h : ofNode part = .ok c) :
    IsWritten part c := by
  rw [ofNode] at h
  split at h
  next => cases h
  next name hname =>
    obtain ⟨args, annots, rfl⟩ : ∃ args annots, part = .prim name args annots := by
      cases part <;> cases hname
      exact ⟨_, _, rfl⟩
    split_ifs at h with hparameter hstorage hcode hview
    all_goals
      subst name
      obtain ⟨n, hn, h⟩ := bind_eq_ok_iff.1 h
      obtain rfl := pure_eq_ok_iff.1 h
    · rw [args_of_onlyArg hn]
      exact .parameter
    · rw [args_of_onlyArg hn]
      exact .storage
    · rw [args_of_onlyArg hn]
      exact .code
    · exact .view hn

theorem name_of_ofNode {part : Node} {c : Section} (h : ofNode part = .ok c) :
    part.name? = some c.name := by
  cases isWritten_of_ofNode h <;> rfl

/-- The sections of a name are read from the expressions of that name. -/
theorem mapM_filter (h : parts.mapM ofNode = .ok cs) (name : String) :
    (parts.filter (isSection name)).mapM ofNode = .ok (cs.filter (·.name == name)) := by
  refine mapM_eq_ok_iff.2 (List.rel_filter ?_ (mapM_eq_ok_iff.1 h))
  intro part c hc
  show (part.name? == some name) = true ↔ (c.name == name) = true
  rw [name_of_ofNode hc, beq_iff_eq, beq_iff_eq, Option.some.injEq]

/-- A section of another name has none of them. -/
theorem none_of_name_ne (c : Section) :
    (c.name ≠ parameterName → c.parameter? = none) ∧ (c.name ≠ storageName → c.storage? = none)
      ∧ (c.name ≠ codeName → c.code? = none) ∧ (c.name ≠ viewName → c.view? = none) := by
  cases c <;> simp [name, parameter?, storage?, code?, view?]

section Kinds

variable {α : Type} {f : Section → Option α} {name : String}

/-- What only sections of a name have comes of the sections of that name. -/
theorem filterMap_filter_name (hf : ∀ c, c.name ≠ name → f c = none) (cs : List Section) :
    (cs.filter (·.name == name)).filterMap f = cs.filterMap f := by
  rw [List.filterMap_filter]
  refine List.filterMap_congr fun c _ => ?_
  by_cases hc : c.name = name
  · rw [beq_iff_eq.2 hc, if_pos rfl]
  · rw [hf c hc, ite_self]

/-- What is found among sections comes of the only expression of their name. -/
theorem exists_only {n : Node} {f : Section → Option Node}
    (hf : ∀ c, c.name ≠ name → f c = none) (h : parts.mapM ofNode = .ok cs)
    (hone : parts.countP (isSection name) = 1) (hn : (cs.filterMap f).getLast? = some n) :
    ∃ part c, parts.filter (isSection name) = [part] ∧ IsWritten part c ∧ f c = some n := by
  rw [List.countP_eq_length_filter] at hone
  obtain ⟨part, hpart⟩ := List.length_eq_one_iff.1 hone
  have hread := mapM_filter h name
  rw [hpart, mapM_eq_ok_iff, List.forall₂_cons_left_iff] at hread
  obtain ⟨c, rest, hc, hrest, hcs⟩ := hread
  obtain rfl := List.forall₂_nil_left_iff.1 hrest
  refine ⟨part, c, hpart, isWritten_of_ofNode hc, ?_⟩
  rw [← filterMap_filter_name hf, hcs, List.filterMap_cons] at hn
  cases hfc : f c <;> simp_all

end Kinds

/-- The views are read in their order. -/
theorem mapM_view (h : parts.mapM ofNode = .ok cs) :
    (parts.filter (isSection viewName)).mapM Script.view = .ok (cs.filterMap view?) := by
  rw [mapM_eq_ok_iff] at h ⊢
  induction h with
  | nil => exact .nil
  | cons hc _ ih =>
    cases isWritten_of_ofNode hc with
    | parameter | storage | code => exact ih
    | view hv => exact .cons hv ih

end Section

/-! ### Sections one after another -/

namespace Sections

/-- **Of several sections of a kind the last one counts**, and views are kept in their order. -/
theorem foldl_add (s : Sections) (cs : List Section) :
    cs.foldl add s = {
      parameter := (cs.filterMap Section.parameter?).getLast?.or s.parameter
      storage := (cs.filterMap Section.storage?).getLast?.or s.storage
      code := (cs.filterMap Section.code?).getLast?.or s.code
      views := s.views ++ cs.filterMap Section.view? } := by
  induction cs generalizing s with
  | nil => simp
  | cons c cs ih =>
    -- what the first section adds counts where no later one is of its kind
    rw [List.foldl_cons, ih]
    cases c <;> simp [add, Section.parameter?, Section.storage?, Section.code?, Section.view?,
      List.filterMap_cons, List.getLast?_cons]

/-- Sections that are the same name by name are the same together. -/
theorem foldl_add_congr (h : ∀ name, cs'.filter (·.name == name) = cs.filter (·.name == name))
    (s : Sections) : cs'.foldl add s = cs.foldl add s := by
  have hkind {α : Type} (f : Section → Option α) (name : String)
      (hf : ∀ c, c.name ≠ name → f c = none) : cs'.filterMap f = cs.filterMap f := by
    rw [← Section.filterMap_filter_name hf cs', h, Section.filterMap_filter_name hf]
  rw [foldl_add, foldl_add, hkind _ _ fun c => c.none_of_name_ne.1,
    hkind _ _ fun c => c.none_of_name_ne.2.1, hkind _ _ fun c => c.none_of_name_ne.2.2.1,
    hkind _ _ fun c => c.none_of_name_ne.2.2.2]

end Sections

/-! ### Scripts -/

/-- The expressions are kept as they are, and have no part in anything else. -/
theorem Sections.script_eq_ok {read : Sections} (h : read.script parts = .ok s) :
    s.sections = parts ∧ ∀ parts', read.script parts' = .ok { s with sections := parts' } := by
  obtain ⟨parameter, hparameter, h⟩ := bind_eq_ok_iff.1 h
  obtain ⟨storage, hstorage, h⟩ := bind_eq_ok_iff.1 h
  obtain ⟨code, hcode, h⟩ := bind_eq_ok_iff.1 h
  obtain ⟨parameterTree, hparameterTree, h⟩ := bind_eq_ok_iff.1 h
  obtain ⟨storageTree, hstorageTree, h⟩ := bind_eq_ok_iff.1 h
  obtain rfl := pure_eq_ok_iff.1 h
  refine ⟨rfl, fun parts' => ?_⟩
  rw [Sections.script, hparameter, hstorage, hcode]
  refine bind_eq_ok_iff.2 ⟨parameter, rfl, bind_eq_ok_iff.2 ⟨storage, rfl,
    bind_eq_ok_iff.2 ⟨code, rfl, bind_eq_ok_iff.2 ⟨parameterTree, hparameterTree, ?_⟩⟩⟩⟩
  exact bind_eq_ok_iff.2 ⟨storageTree, hstorageTree, rfl⟩

/-- A script is made of sections that are each read by itself. -/
theorem ofNodes_eq_ok_iff : ofNodes ns = .ok s ↔ ∃ cs, (listed ns).mapM Section.ofNode = .ok cs
    ∧ (cs.foldl Sections.add {}).script (listed ns) = .ok s := by
  rw [ofNodes, bind_eq_ok_iff]
  constructor
  · rintro ⟨read, hread, h⟩
    obtain ⟨cs, hcs, hfold⟩ := foldlM_bind_eq_ok_iff.1 hread
    rw [List.foldlM_pure] at hfold
    obtain rfl := pure_eq_ok_iff.1 hfold
    exact ⟨cs, hcs, h⟩
  · rintro ⟨cs, hcs, h⟩
    refine ⟨_, foldlM_bind_eq_ok_iff.2 ⟨cs, hcs, ?_⟩, h⟩
    rw [List.foldlM_pure]
    rfl

/-- The sections of a script are those of its parts, one after another. -/
theorem sections_of_ofNodes (h : ofNodes ns = .ok s) : s.sections = listed ns := by
  obtain ⟨cs, -, hscript⟩ := ofNodes_eq_ok_iff.1 h
  exact (Sections.script_eq_ok hscript).1

/-! ### Another order -/

/-- Expressions among which there is one parameter, one storage and one code. -/
structure HasOneOfEach (parts : List Node) : Prop where
  parameter : parts.countP (isSection parameterName) = 1
  storage : parts.countP (isSection storageName) = 1
  code : parts.countP (isSection codeName) = 1

/-- What is there once is there once in any order. -/
theorem HasOneOfEach.of_perm (h : HasOneOfEach parts) (hperm : parts'.Perm parts) :
    HasOneOfEach parts' where
  parameter := (hperm.countP_eq _).trans h.parameter
  storage := (hperm.countP_eq _).trans h.storage
  code := (hperm.countP_eq _).trans h.code

/-- They are no sequence that lists the sections. -/
theorem HasOneOfEach.listed_eq (h : HasOneOfEach parts) : listed parts = parts := by
  have hparameter := h.parameter
  rw [listed.eq_def]
  split
  next items => cases hparameter
  next => rfl

/-- Where there is one element of a kind, another order does not change it. -/
theorem filter_eq_of_perm {p : Node → Bool} (hperm : parts'.Perm parts)
    (hone : parts.countP p = 1) : parts'.filter p = parts.filter p := by
  rw [List.countP_eq_length_filter] at hone
  obtain ⟨part, hpart⟩ := List.length_eq_one_iff.1 hone
  have hfilter := hperm.filter p
  rw [hpart] at hfilter ⊢
  exact List.perm_singleton.1 hfilter

/-- The sections of a name are the same in another order that keeps the order of the views. -/
theorem filter_name_of_perm (hone : HasOneOfEach parts) (hperm : parts'.Perm parts)
    (hviews : parts'.filter (isSection viewName) = parts.filter (isSection viewName))
    (hcs : parts.mapM Section.ofNode = .ok cs) (hcs' : parts'.mapM Section.ofNode = .ok cs')
    (name : String) : cs'.filter (·.name == name) = cs.filter (·.name == name) := by
  -- the sections of a name come of the expressions of that name, which have not changed
  have hkept (kind : String)
      (hparts : parts'.filter (isSection kind) = parts.filter (isSection kind)) :
      cs'.filter (·.name == kind) = cs.filter (·.name == kind) := by
    have hkind := Section.mapM_filter hcs' kind
    rw [hparts, Section.mapM_filter hcs kind] at hkind
    exact (Except.ok.inj hkind).symm
  by_cases hname : ∃ c : Section, c.name = name
  · obtain ⟨c, rfl⟩ := hname
    cases c with
    | parameter type => exact hkept _ (filter_eq_of_perm hperm hone.parameter)
    | storage type => exact hkept _ (filter_eq_of_perm hperm hone.storage)
    | code n => exact hkept _ (filter_eq_of_perm hperm hone.code)
    | view v => exact hkept _ hviews
  · -- no section has this name
    have hnone (xs : List Section) : xs.filter (·.name == name) = [] :=
      List.filter_eq_nil_iff.2 fun c _ hc => hname ⟨c, beq_iff_eq.1 hc⟩
    rw [hnone, hnone]

/-- A script of expressions in another order. -/
theorem ofNodes_eq_of_perm (hone : HasOneOfEach parts) (hlisted : listed ns = parts)
    (h : ofNodes ns = .ok s) (hperm : parts'.Perm parts)
    (hviews : parts'.filter (isSection viewName) = parts.filter (isSection viewName))
    {ns' : List Node} (hlisted' : listed ns' = parts') :
    ofNodes ns' = .ok { s with sections := parts' } := by
  obtain ⟨cs, hcs, hscript⟩ := ofNodes_eq_ok_iff.1 h
  rw [hlisted] at hcs hscript
  obtain ⟨cs', hcs', -⟩ := exists_mapM_of_perm hperm.symm hcs
  -- each section is read by itself, so that the order matters only when they are added
  have hread := Sections.foldl_add_congr (filter_name_of_perm hone hperm hviews hcs hcs') {}
  rw [ofNodes_eq_ok_iff, hlisted']
  exact ⟨cs', hcs', hread ▸ (Sections.script_eq_ok hscript).2 parts'⟩

/-! ### What a script has -/

/-- A script has the type of the only parameter, the type of the only storage and the only code
among expressions, and their views in the order in which they stand. -/
structure IsMadeOf (s : Script) (parts : List Node) : Prop where
  parameter : ∃ type annots,
    parts.filter (isSection parameterName) = [.prim parameterName [type] annots]
      ∧ Tree.ofNodes [type] = .ok s.parameter
  storage : ∃ type annots,
    parts.filter (isSection storageName) = [.prim storageName [type] annots]
      ∧ Tree.ofNodes [type] = .ok s.storage
  code : ∃ annots, parts.filter (isSection codeName) = [.prim codeName [s.code] annots]
  views : (parts.filter (isSection viewName)).mapM view = .ok s.views

theorem needed_eq_ok {name : String} {found : Option Node} {n : Node}
    (h : needed name found = .ok n) : found = some n := by
  rcases found with _ | m
  · cases h
  · rw [Except.ok.inj h]

/-- **Nothing but its section counts for each part of a script.** -/
theorem isMadeOf_of_script (hone : HasOneOfEach parts) (hcs : parts.mapM Section.ofNode = .ok cs)
    (h : (cs.foldl Sections.add {}).script parts = .ok s) : s.IsMadeOf parts := by
  obtain ⟨parameter, hparameter, h⟩ := bind_eq_ok_iff.1 h
  obtain ⟨storage, hstorage, h⟩ := bind_eq_ok_iff.1 h
  obtain ⟨code, hcode, h⟩ := bind_eq_ok_iff.1 h
  obtain ⟨parameterTree, hparameterTree, h⟩ := bind_eq_ok_iff.1 h
  obtain ⟨storageTree, hstorageTree, h⟩ := bind_eq_ok_iff.1 h
  obtain rfl := pure_eq_ok_iff.1 h
  rw [Sections.foldl_add] at hparameter hstorage hcode
  -- nothing was there before the first section
  have hparameter := Option.or_none.symm.trans (needed_eq_ok hparameter)
  have hstorage := Option.or_none.symm.trans (needed_eq_ok hstorage)
  have hcode := Option.or_none.symm.trans (needed_eq_ok hcode)
  refine ⟨?_, ?_, ?_, ?_⟩
  · obtain ⟨part, c, hpart, hwritten, hfound⟩ :=
      Section.exists_only (fun c => c.none_of_name_ne.1) hcs hone.parameter hparameter
    cases hwritten <;> cases hfound
    exact ⟨_, _, hpart, hparameterTree⟩
  · obtain ⟨part, c, hpart, hwritten, hfound⟩ :=
      Section.exists_only (fun c => c.none_of_name_ne.2.1) hcs hone.storage hstorage
    cases hwritten <;> cases hfound
    exact ⟨_, _, hpart, hstorageTree⟩
  · obtain ⟨part, c, hpart, hwritten, hfound⟩ :=
      Section.exists_only (fun c => c.none_of_name_ne.2.2.1) hcs hone.code hcode
    cases hwritten <;> cases hfound
    exact ⟨_, hpart⟩
  · rw [Section.mapM_view hcs, Sections.foldl_add]
    rfl

/-- **A script is what its sections say, and the same in another order of them** that keeps the
order of the views, where it has one parameter, one storage and one code.  Its constants are
listed once, in the order of the first expressions that have their hashes. -/
theorem ofNodes_of_perm (hns : ns = parts ∨ ns = [.seq parts]) (hone : HasOneOfEach parts)
    (h : ofNodes ns = .ok s) :
    s.IsMadeOf parts
      ∧ (∀ parts' : List Node, parts'.Perm parts →
        parts'.filter (isSection viewName) = parts.filter (isSection viewName) →
        ofNodes parts' = .ok { s with sections := parts' }
          ∧ ofNodes [.seq parts'] = .ok { s with sections := parts' })
      ∧ s.constants.Nodup
      ∧ s.constants.Pairwise (fun a b =>
          firstPlace (Node.preorderAll parts) a < firstPlace (Node.preorderAll parts) b)
      ∧ ∀ hash, hash ∈ s.constants
          ↔ ∃ annots, .prim "constant" [.string hash] annots ∈ Node.preorderAll parts := by
  have hlisted : listed ns = parts := by
    rcases hns with rfl | rfl
    · exact hone.listed_eq
    · rfl
  have hconstants := isListed_constants s
  rw [sections_of_ofNodes h, hlisted] at hconstants
  refine ⟨?_, fun parts' hperm hviews => ⟨?_, ?_⟩, hconstants.nodup, hconstants.ordered,
    hconstants.mem_iff_prim⟩
  · obtain ⟨cs, hcs, hscript⟩ := ofNodes_eq_ok_iff.1 h
    rw [hlisted] at hcs hscript
    exact isMadeOf_of_script hone hcs hscript
  · exact ofNodes_eq_of_perm hone hlisted h hperm hviews (hone.of_perm hperm).listed_eq
  · exact ofNodes_eq_of_perm hone hlisted h hperm hviews rfl

/-- A script with two views in another order, and a constant in the arguments of another
expression of that name. -/
theorem ofNodes_of_two_views :
    let constant (hash : String) : Node := .app "constant" [.string hash]
    let views := [.app "view" [.string "one", .app "unit" [], .app "nat" [], .seq [constant "b"]],
      .app "view" [.string "other", .app "unit" [], constant "a", .seq []]]
    let storage : Node := .app "storage" [.app "list" [constant "a"]]
    let parameter : Node := .app "parameter" [.app "pair" [.app "nat" [], constant "b"]]
    let code : Node := .app "code" [.seq [.app "constant" [constant "c", constant "a"]]]
    let parts := views ++ [storage, parameter, code]
    let parts' := parameter :: views ++ [code, storage]
    ∃ s, ofNodes [.seq parts] = .ok s
      ∧ ofNodes parts' = .ok { s with sections := parts' }
      ∧ (∃ annots, parts.filter (isSection codeName) = [.prim codeName [s.code] annots])
      ∧ s.constants.Nodup ∧ ∀ hash ∈ ["a", "b", "c"], hash ∈ s.constants := by
  intro constant views storage parameter code parts parts'
  have hread : (ofNodes [.seq parts]).isOk = true := by decide +kernel
  cases h : ofNodes [.seq parts] with
  | error e =>
    rw [h] at hread
    cases hread
  | ok s =>
    have hone : HasOneOfEach parts := ⟨by decide +kernel, by decide +kernel, by decide +kernel⟩
    obtain ⟨hmade, hperms, hnodup, -, hmem⟩ := ofNodes_of_perm (.inr rfl) hone h
    have hperm : parts'.Perm parts := by decide +kernel
    refine ⟨s, rfl, (hperms parts' hperm (by decide +kernel)).1, hmade.code, hnodup,
      fun hash hhash => ?_⟩
    refine (hmem hash).2 ⟨[], ?_⟩
    revert hash
    decide +kernel

end Micheline.Script
