/-
Micheline/Proofs/Node/Keyword.lean

Keywords and their codes determine each other, because no keyword occurs twice
(`name?_eq_some_iff`).  Every code fits in a byte (`lt_of_name?`).
-/
import Micheline.Node.Keyword

namespace Micheline.Keyword

theorem length_all : all.length = 157 := by decide +kernel

theorem nodup_all : all.Nodup := by decide +kernel

/-- The codes and the names of keywords are two readings of one list. -/
theorem name?_eq_some_iff {code : Nat} {name : String} :
    name? code = some name ↔ code? name = some code := by
  rw [name?, code?, List.idxOf?_eq_some_iff, List.getElem?_eq_some_iff]
  constructor
  · rintro ⟨h, rfl⟩
    refine ⟨h, rfl, fun j hj he => ?_⟩
    have : j = code := (List.getElem_inj nodup_all).1 he
    omega
  · rintro ⟨h, he, -⟩
    exact ⟨h, he⟩

theorem lt_of_name? {code : Nat} {name : String} (h : name? code = some name) : code < 157 := by
  rw [← length_all]
  exact (List.getElem?_eq_some_iff.1 h).1

end Micheline.Keyword
