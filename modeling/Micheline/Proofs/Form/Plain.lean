/-
Micheline/Proofs/Form/Plain.lean

Types without code.  Values of these types keep nothing as it was written (`Ty.IsPlain`), and
what they are written as consists of constructors and literals, which all have codes
(`Ty.hasCodes_of_project`).
-/
import Micheline.Proofs.Binary.Overflow
import Micheline.Proofs.Form.Entered
import Micheline.Proofs.Value.Payload

namespace Micheline

/-! ### Codes -/

/-- The names with which values are written are keywords. -/
theorem Ty.exists_code_of_mem_constructors {name : String} (h : name ∈ constructors) :
    ∃ code, Keyword.code? name = some code := by
  have hall : ∀ name ∈ constructors, (Keyword.code? name).isSome = true := by decide +kernel
  exact Option.isSome_iff_exists.1 (hall name h)

theorem Node.isHereditary_hasCodes : IsHereditary HasCodes where
  literal l := by
    cases l with
    | int => exact .int
    | string => exact .string
    | bytes => exact .bytes
  seq_iff items := by
    refine ⟨fun h => ?_, .seq⟩
    cases h with
    | seq h => exact h
  app name args hname h := by
    obtain ⟨code, hcode⟩ := Ty.exists_code_of_mem_constructors hname
    exact .prim hcode h
  cons name first args annots hfirst h := by
    cases h with
    | prim hcode h => exact .prim hcode (List.forall_mem_cons.2 ⟨hfirst, h⟩)

/-! ### Types -/

namespace Ty

/-- The types of which no part holds code.  The parameter of a contract and the content of a
ticket are not written in values of these types. -/
def IsPlain : Ty → Prop
  | .pair _ left right => left.IsPlain ∧ right.IsPlain
  | .or _ left right => left.IsPlain ∧ right.IsPlain
  | .option _ inner => inner.IsPlain
  | .list _ elem => elem.IsPlain
  | .set _ elem => elem.IsPlain
  | .map _ key value => key.IsPlain ∧ value.IsPlain
  | .bigMap _ key value => key.IsPlain ∧ value.IsPlain
  | .ticket _ _ paired => paired.IsPlain
  | .lambda _ _ _ => False
  | .saplingState _ _ => False
  | .saplingTransaction _ _ _ => False
  | .constant _ _ => False
  | _ => True

theorem isPlain_of_mem_leaves {ty : Ty} {leaf : List Side × Ty} (h : ty.IsPlain)
    (hleaf : leaf ∈ ty.leaves) : leaf.2.IsPlain :=
  of_mem_leaves (fun _ _ _ h => h) h hleaf

/-- Values of types without code keep nothing as it was written. -/
theorem payloads_of_isPlain {ty : Ty} (h : ty.IsPlain) (v : Val) : ty.payloads v = [] := by
  have hentries {key value : Ty} {pairs : List (Val × Val)} (hk : ∀ v, key.payloads v = [])
      (hv : ∀ v, value.payloads v = []) :
      pairs.flatMap (fun p => key.payloads p.1 ++ value.payloads p.2) = [] :=
    List.flatMap_eq_nil_iff.2 fun p _ => by rw [hk, hv, List.append_nil]
  induction ty generalizing v with
  | pair i left right ihl ihr =>
    cases v with
    | pair a b comb => exact List.append_eq_nil_iff.2 ⟨ihl h.1 a, ihr h.2 b⟩
    | _ => rfl
  | or i left right ihl ihr =>
    cases v with
    | left a => exact ihl h.1 a
    | right b => exact ihr h.2 b
    | _ => rfl
  | option i inner ih =>
    cases v with
    | some a => exact ih h a
    | _ => rfl
  | list i elem ih | set i elem ih =>
    cases v with
    | items values => exact List.flatMap_eq_nil_iff.2 fun v _ => ih h v
    | _ => rfl
  | map i key value ihk ihv | bigMap i key value ihk ihv =>
    cases v with
    | entries pointer pairs => exact hentries (ihk h.1) (ihv h.2)
    | _ => rfl
  | ticket i content paired _ ih => exact ih h v
  | lambda | saplingState | saplingTransaction | constant => cases h
  | _ => rfl

variable {ty : Ty} {n : Node}

/-- What a value without code is written as has codes for all its primitives. -/
theorem hasCodes_of_project {form : ValueForm} {loaded : Bool} {v : Val} (hplain : ty.IsPlain)
    (hv : ty.Holds loaded v) (h : ty.project form v = .ok n) : n.HasCodes := by
  refine hereditary_of_project Node.isHereditary_hasCodes hv h ?_
  rw [payloads_of_isPlain hplain]
  exact nofun

end Ty

end Micheline
