/-
Micheline/Proofs/Binary/Overflow.lean

Why an expression has no bytes.  There are two reasons: a primitive has no code, or a length
does not fit in four bytes.  If all primitives have codes (`Node.HasCodes`), only the second
one is left (`Binary.onlyOverflows_encode`).
-/
import Micheline.Binary.Packed
import Micheline.Proofs.Except

namespace Micheline

/-- All primitives in the expression have codes. -/
inductive Node.HasCodes : Node → Prop
  | int {value} : HasCodes (.int value)
  | string {text} : HasCodes (.string text)
  | bytes {data} : HasCodes (.bytes data)
  | seq {items} (h : ∀ n ∈ items, HasCodes n) : HasCodes (.seq items)
  | prim {name code args annots} (hcode : Keyword.code? name = some code)
      (h : ∀ n ∈ args, HasCodes n) : HasCodes (.prim name args annots)

namespace Binary

variable {α β : Type}

/-- An outcome that is there, unless a length does not fit. -/
def OnlyOverflows (x : Except Error α) : Prop :=
  ∀ e, x = .error e → e = .lengthOverflow

theorem OnlyOverflows.ok (a : α) : OnlyOverflows (.ok a) :=
  nofun

theorem OnlyOverflows.bind {x : Except Error α} {f : α → Except Error β} (hx : OnlyOverflows x)
    (hf : ∀ a, OnlyOverflows (f a)) : OnlyOverflows (x >>= f) := by
  intro e he
  cases x with
  | error e' =>
    obtain rfl := Except.error.inj he
    exact hx _ rfl
  | ok a => exact hf a e he

theorem onlyOverflows_withLength (body : Bytes) : OnlyOverflows (withLength body) := by
  intro e he
  rw [withLength] at he
  split at he
  next => cases he
  next => exact (Except.error.inj he).symm

theorem onlyOverflows_annotsIfAny (annots : List String) : OnlyOverflows (annotsIfAny annots) := by
  rw [annotsIfAny]
  split
  next => exact .ok _
  next => exact onlyOverflows_withLength _

theorem onlyOverflows_encodeAll {ns : List Node} (h : ∀ n ∈ ns, OnlyOverflows (encode n)) :
    OnlyOverflows (encodeAll ns) := by
  induction ns with
  | nil => exact .ok _
  | cons n ns ih =>
    obtain ⟨hn, hns⟩ := List.forall_mem_cons.1 h
    rw [encodeAll]
    exact hn.bind fun _ => (ih hns).bind fun _ => .ok _

/-- **An expression whose primitives have codes has bytes**, unless a length does not fit. -/
theorem onlyOverflows_encode {n : Node} (h : n.HasCodes) : OnlyOverflows (encode n) := by
  induction h with
  | int => exact .ok _
  | string | bytes => exact (onlyOverflows_withLength _).bind fun _ => .ok _
  | seq _ ih =>
    rw [encode]
    exact (onlyOverflows_encodeAll ih).bind fun _ =>
      (onlyOverflows_withLength _).bind fun _ => .ok _
  | @prim name code args annots hcode _ ih =>
    rw [encode, hcode]
    refine (onlyOverflows_encodeAll ih).bind fun body => ?_
    split
    next => exact (onlyOverflows_annotsIfAny annots).bind fun _ => .ok _
    next =>
      exact (onlyOverflows_withLength body).bind fun _ =>
        (onlyOverflows_withLength _).bind fun _ => .ok _

theorem onlyOverflows_encodeDocument {ns : List Node} (h : ∀ n ∈ ns, n.HasCodes) :
    OnlyOverflows (encodeDocument ns) := by
  rw [encodeDocument.eq_def]
  split
  next => exact onlyOverflows_encode (h _ List.mem_cons_self)
  next => exact onlyOverflows_encode (.seq h)

theorem onlyOverflows_pack {n : Node} (h : n.HasCodes) : OnlyOverflows (pack n) :=
  (onlyOverflows_encode h).bind fun _ => .ok _

/-- An outcome that is there, or a length that does not fit, as the outcome for a tree. -/
theorem OnlyOverflows.lift_cases {x : Except Error α} (h : OnlyOverflows x) :
    (∃ a, lift .binary x = .ok a) ∨ lift .binary x = .error (.binary .lengthOverflow) := by
  cases x with
  | ok a => exact .inl ⟨a, rfl⟩
  | error e =>
    obtain rfl := h e rfl
    exact .inr rfl

end Binary

end Micheline
