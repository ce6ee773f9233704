/-
Micheline/Proofs/Contract/Constants.lean

The constants of a script.  The expressions in the sections are run through in the order in which
they are written (`Node.preorder`), and the hash of a constant is added when it was not found
before.  So each hash is there once, in the order of the first constants that have it
(`Script.isListed_constants`).
-/
import Mathlib.Data.List.Basic
import Micheline.Contract.Script

namespace Micheline

/-! ### The expressions in an expression -/

namespace Node

mutual

/-- The expressions in an expression, each before its parts. -/
def preorder (n : Node) : List Node :=
  n :: match n with
    | .prim _ args _ => preorderAll args
    | .seq items => preorderAll items
    | _ => []

/-- The expressions in a list of expressions. -/
def preorderAll : List Node → List Node
  | [] => []
  | n :: ns => preorder n ++ preorderAll ns

end

end Node

namespace Script

/-- A constant is an application of that name to one text, whatever its annotations. -/
theorem constant?_eq_some_iff {n : Node} {hash : String} :
    constant? n = some hash ↔ ∃ annots, n = .prim "constant" [.string hash] annots := by
  constructor
  · intro h
    rw [constant?.eq_def] at h
    split at h
    next annots =>
      obtain rfl := Option.some.inj h
      exact ⟨annots, rfl⟩
    next => cases h
  · rintro ⟨annots, rfl⟩
    rfl

/-! ### Finding hashes -/

/-- The place of the first constant with a hash. -/
def firstPlace (ns : List Node) (hash : String) : Nat :=
  ns.findIdx fun n => constant? n == some hash

/-- The hashes of the constants among expressions, in the order of the first constants that have
them. -/
structure IsListed (ns : List Node) (found : List String) : Prop where
  mem_iff : ∀ hash, hash ∈ found ↔ ∃ n ∈ ns, constant? n = some hash
  ordered : found.Pairwise fun a b => firstPlace ns a < firstPlace ns b

variable {ns : List Node} {found : List String} {hash : String} {n : Node}

/-- A hash has a first place in the nodes exactly if one of them is its constant. -/
theorem firstPlace_lt_length_iff :
    firstPlace ns hash < ns.length ↔ ∃ n ∈ ns, constant? n = some hash := by
  simp [firstPlace]

/-- Further expressions do not move a place. -/
theorem firstPlace_append (h : ∃ n ∈ ns, constant? n = some hash) (ns' : List Node) :
    firstPlace (ns ++ ns') hash = firstPlace ns hash :=
  List.findIdx_append.trans (if_pos (firstPlace_lt_length_iff.2 h))

namespace IsListed

theorem nil : IsListed [] [] :=
  ⟨by simp, .nil⟩

theorem nodup (h : IsListed ns found) : found.Nodup := by
  refine h.ordered.imp fun {a b} hlt heq => ?_
  rw [heq] at hlt
  exact Nat.lt_irrefl _ hlt

theorem mem_iff_prim (h : IsListed ns found) (hash : String) :
    hash ∈ found ↔ ∃ annots, .prim "constant" [.string hash] annots ∈ ns := by
  simp only [h.mem_iff, constant?_eq_some_iff]
  constructor
  · rintro ⟨n, hn, annots, rfl⟩
    exact ⟨annots, hn⟩
  · rintro ⟨annots, hn⟩
    exact ⟨_, hn, annots, rfl⟩

/-- What was found keeps its order when further expressions are run through. -/
theorem ordered_append (h : IsListed ns found) (ns' : List Node) :
    found.Pairwise fun a b => firstPlace (ns ++ ns') a < firstPlace (ns ++ ns') b := by
  refine h.ordered.imp_of_mem fun ha hb hlt => ?_
  rwa [firstPlace_append ((h.mem_iff _).1 ha), firstPlace_append ((h.mem_iff _).1 hb)]

/-- An expression that is no constant, or one with a hash that is there already. -/
theorem append_old (h : IsListed ns found) (hn : ∀ hash, constant? n = some hash → hash ∈ found) :
    IsListed (ns ++ [n]) found := by
  refine ⟨fun hash => ?_, h.ordered_append [n]⟩
  constructor
  · intro hmem
    obtain ⟨m, hm, hhash⟩ := (h.mem_iff hash).1 hmem
    exact ⟨m, List.mem_append_left [n] hm, hhash⟩
  · rintro ⟨m, hm, hhash⟩
    rcases List.mem_append.1 hm with hm | hm
    · exact (h.mem_iff hash).2 ⟨m, hm, hhash⟩
    · obtain rfl := List.mem_singleton.1 hm
      exact hn hash hhash

/-- **A constant with a new hash** has its place behind all others. -/
theorem append_new (h : IsListed ns found) (hn : constant? n = some hash) (hnew : hash ∉ found) :
    IsListed (ns ++ [n]) (found ++ [hash]) := by
  have hnone : ¬ ∃ m ∈ ns, constant? m = some hash := mt (h.mem_iff hash).2 hnew
  constructor
  · intro other
    have hother : constant? n = some other ↔ other = hash := by
      rw [hn, Option.some.injEq, eq_comm]
    simp only [List.mem_append, List.mem_singleton, h.mem_iff, or_and_right, exists_or,
      exists_eq_left, hother]
  · refine List.pairwise_append.2 ⟨h.ordered_append [n], List.pairwise_singleton _ _, ?_⟩
    intro old hold last hlast
    rw [List.mem_singleton.1 hlast]
    have hold := (h.mem_iff old).1 hold
    -- no expression so far has the hash, so its place is the last one
    have hend : firstPlace (ns ++ [n]) hash = firstPlace [n] hash + ns.length :=
      List.findIdx_append.trans (if_neg (mt firstPlace_lt_length_iff.1 hnone))
    rw [firstPlace_append hold, hend]
    exact Nat.lt_add_left _ (firstPlace_lt_length_iff.2 hold)

/-- **Noting an expression** lists the hashes of all expressions that were run through. -/
theorem note (h : IsListed ns found) (n : Node) : IsListed (ns ++ [n]) (note found n) := by
  rw [Script.note]
  split
  next hash hn =>
    split
    next hold =>
      refine h.append_old fun other hother => ?_
      obtain rfl := Option.some.inj (hn.symm.trans hother)
      exact hold
    next hnew => exact h.append_new hn hnew
  next hn => exact h.append_old fun other hother => absurd (hn.symm.trans hother) nofun

end IsListed

mutual

/-- **Collecting runs through the expressions in an expression**, each before its parts. -/
theorem IsListed.collect {ns : List Node} {found : List String} (h : IsListed ns found) :
    ∀ n : Node, IsListed (ns ++ n.preorder) (collect found n)
  | .prim name args annots => by
    rw [Node.preorder, List.append_cons]
    exact (h.note _).collectAll args
  | .seq items => by
    rw [Node.preorder, List.append_cons]
    exact (h.note (.seq items)).collectAll items
  | .int value => h.note (.int value)
  | .string text => h.note (.string text)
  | .bytes data => h.note (.bytes data)

/-- Collecting along more nodes lists what is in these too. -/
theorem IsListed.collectAll {ns : List Node} {found : List String} (h : IsListed ns found) :
    ∀ ms : List Node, IsListed (ns ++ Node.preorderAll ms) (collectAll found ms)
  | [] => by
    rw [Node.preorderAll, List.append_nil]
    exact h
  | m :: ms => by
    rw [Node.preorderAll, ← List.append_assoc]
    exact (h.collect m).collectAll ms

end

/-- **The constants of a script are listed once**, in the order of the first expressions in the
sections that are constants with these hashes. -/
theorem isListed_constants (s : Script) : IsListed (Node.preorderAll s.sections) s.constants :=
  IsListed.nil.collectAll s.sections

end Script

end Micheline
