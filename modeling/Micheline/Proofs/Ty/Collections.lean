/-
Micheline/Proofs/Ty/Collections.lean

Types that are treated alike.  Lists and sets have items of one type, maps and big maps have
entries with a key and a value, and scalars and contracts hold literals.  Where a set is treated
as a list is, a big map as a map, and the address of a contract as any other literal, what is
done is stated once: for all types with items (`Ty.HasItems`), for all types with entries
(`Ty.HasEntries`), and for all types of literals (`Ty.HasLiteral`).
-/
import Micheline.Value.Project

namespace Micheline.Ty

/-- Lists and sets, with the type of their items. -/
inductive HasItems : Ty → Ty → Prop
  | list {i elem} : HasItems (.list i elem) elem
  | set {i elem} : HasItems (.set i elem) elem

/-- Maps and big maps, with the types of their keys and values. -/
inductive HasEntries : Ty → Ty → Ty → Prop
  | map {i key value} : HasEntries (.map i key value) key value
  | bigMap {i key value} : HasEntries (.bigMap i key value) key value

/-- Scalars and contracts, with the content of their literals. -/
inductive HasLiteral : Ty → Content → Prop
  | scalar {i kind} : HasLiteral (.scalar i kind) kind.content
  | contract {i param} : HasLiteral (.contract i param) (.identifier .address)

variable {ty elem key value : Ty}

theorem HasItems.size_lt (h : ty.HasItems elem) : elem.size < ty.size := by
  cases h <;> simp only [size] <;> omega

theorem HasEntries.size_key_lt (h : ty.HasEntries key value) : key.size < ty.size := by
  cases h <;> simp only [size] <;> omega

theorem HasEntries.size_value_lt (h : ty.HasEntries key value) : value.size < ty.size := by
  cases h <;> simp only [size] <;> omega

/-! ### As expressions -/

variable {form : ValueForm}

theorem project_items (h : ty.HasItems elem) (values : List Val) :
    ty.project form (.items values)
      = (values.mapM (elem.project form) >>= fun items => pure (.seq items)) := by
  cases h <;> rw [project]

/-- A big map without entries may be written as its pointer; all other entries are written
out. -/
theorem project_entries (h : ty.HasEntries key value) {pointer : Option Int}
    {pairs : List (Val × Val)} (hpairs : pointer = none ∨ pairs ≠ []) :
    ty.project form (.entries pointer pairs)
      = (pairs.mapM (project.projectEntry (key.project form) (value.project form)) >>=
          fun items => pure (.seq items)) := by
  cases h
  · rw [project]
  · rw [project]
    rintro id rfl rfl
    simp at hpairs

end Micheline.Ty
