/-
Micheline/Proofs/Value/Code.lean

Values that are code.  Such a value is an expression, it is shown as the source of that, and
beside an earlier one only the sources are compared (`Ty.diff_code`).

This misses no change of an expression that can be executed: where the primitives are keywords
and the annotations well formed, the source tells expressions apart, since both are words then
(`Node.isWorded_of_hasCodes`).
-/
import Micheline.Proofs.Binary.Overflow
import Micheline.Proofs.Node.Spacing
import Micheline.Proofs.Value.Shown

namespace Micheline

/-! ### Words -/

namespace Node

/-- A name whose characters are known. -/
theorem isName_ofList {c : Char} {cs : List Char}
    (h : (c.isAlpha && cs.all isInner) = true) : IsName (String.ofList (c :: cs)) := by
  obtain ⟨hc, hcs⟩ := Bool.and_eq_true_iff.1 h
  exact ⟨c, cs, String.toList_ofList, hc, List.all_eq_true.1 hcs⟩

/-- Keywords are names. -/
theorem isName_of_mem_all : ∀ name ∈ Keyword.all, IsName name := by
  simp only [Keyword.all, List.forall_mem_cons]
  -- a literal unfolds to its characters; to decide the statement would decode its bytes
  repeat refine ⟨isName_ofList rfl, ?_⟩
  exact nofun

/-- Whatever has a code is a keyword, and these are words. -/
theorem isName_of_code? {name : String} {code : Nat} (h : Keyword.code? name = some code) :
    IsName name := by
  rw [Keyword.code?, List.idxOf?_eq_some_iff] at h
  obtain ⟨hlt, rfl, -⟩ := h
  exact isName_of_mem_all _ (List.getElem_mem hlt)

/-- Valid annotations are marks. -/
theorem isMark_of_isValid {annot : String} (h : Annot.isValid annot = true) : IsMark annot := by
  obtain ⟨c, cs, hcs, hc, hname⟩ := Annot.exists_toList_of_isValid h
  exact ⟨c, cs, hcs, hc, fun d hd => isInner_of_class rfl rfl (hname d hd)⟩

theorem allWorded_iff {ns : List Node} : AllWorded ns ↔ ∀ n ∈ ns, n.IsWorded := by
  induction ns with
  | nil => simp [AllWorded]
  | cons n ns ih => simp [AllWorded, ih]

/-- **Keywords and well-formed annotations are words.** -/
theorem isWorded_of_hasCodes {n : Node} (hn : n.HasCodes)
    (hannots : ∀ a ∈ n.allAnnots, Annot.isValid a = true) : n.IsWorded := by
  induction hn with
  | int | string | bytes => trivial
  | @seq items _ ih =>
    exact allWorded_iff.2 fun n hn => ih n hn fun a ha => hannots a (mem_allAnnotsOf.2 ⟨n, hn, ha⟩)
  | @prim name code args annots hcode _ ih =>
    refine ⟨isName_of_code? hcode, fun a ha => ?_, allWorded_iff.2 fun n hn => ?_⟩
    · exact isMark_of_isValid (hannots a (List.mem_append_left _ ha))
    · exact ih n hn fun a ha =>
        hannots a (List.mem_append_right _ (mem_allAnnotsOf.2 ⟨n, hn, ha⟩))

end Node

/-! ### Code beside earlier code -/

namespace Ty

/-- What code is shown as. -/
def presentCode (ty : Ty) (n : Node) : Presentation :=
  { Presentation.ofTy ty ty.prim.name with value := some (.str n.michelson) }

variable {ty oldTy : Ty}

theorem shown_code (hty : ty.isCode = true) (n : Node) :
    ty.shown (.code n) = .ok (some (.text n.michelson)) := by
  cases ty with
  | lambda | saplingState | saplingTransaction | constant => rfl
  | _ => cases hty

theorem binaryForm_code (hty : ty.isCode = true) (n : Node) : ty.binaryForm (.code n) = .ok n := by
  cases ty with
  | lambda | saplingState | saplingTransaction | constant => rfl
  | _ => cases hty

theorem present_code (hty : ty.isCode = true) (n : Node) :
    ty.present (.code n) = .ok (ty.presentCode n) := by
  cases ty with
  | lambda | saplingState | saplingTransaction | constant => rfl
  | _ => cases hty

/-- **Code beside earlier code is marked if its source is another.** -/
theorem diff_code (hty : ty.isCode = true) (hold : oldTy.isCode = true)
    (hprim : ty.prim = oldTy.prim) (n m : Node) :
    ty.diff (.code n) oldTy (.code m) = .ok (if n.michelson = m.michelson then ty.presentCode n
      else
        { ty.presentCode n with change := some .update, before := some (.str m.michelson) }) := by
  have hdiff : ty.diff (.code n) oldTy (.code m) = (do
      let shown ← ty.present (.code n)
      let after ← ty.shown (.code n)
      let before ← oldTy.shown (.code m)
      if after = before then return shown
      else return { shown with change := some .update, before := before.map Shown.toJson }) := by
    cases ty with
    | lambda | saplingState | saplingTransaction | constant =>
      rw [diff, if_neg fun h => h hprim]
      all_goals intros; contradiction
    | _ => cases hty
  rw [hdiff, present_code hty, shown_code hty, shown_code hold]
  show (if some (Shown.text n.michelson) = some (Shown.text m.michelson) then _ else _) = _
  by_cases h : n.michelson = m.michelson
  · rw [if_pos h, if_pos (by rw [h])]
    rfl
  · rw [if_neg h, if_neg fun hsame => h (Shown.text.inj (Option.some.inj hsame))]
    rfl

/-- Code is marked exactly if its source text changed. -/
theorem exists_diff_code (hty : ty.isCode = true) (hold : oldTy.isCode = true)
    (hprim : ty.prim = oldTy.prim) (n m : Node) :
    ∃ p, ty.diff (.code n) oldTy (.code m) = .ok p
      ∧ (p.hasChanges = true ↔ n.michelson ≠ m.michelson) := by
  refine ⟨_, diff_code hty hold hprim n m, ?_⟩
  split
  next h => simp [h, presentCode, Presentation.ofTy, Presentation.hasChanges,
      Presentation.anyChanges]
  next h => simp [h, Presentation.hasChanges]

end Ty

/-- **Michelson source is unambiguous.**  Expressions of keywords and well-formed annotations
with one source are one expression, whatever the literals in them are.  So code that has changed
is marked beside what it was, and no other code is. -/
theorem Node.michelson_eq_iff {n m : Node} (hn : n.HasCodes) (hm : m.HasCodes)
    (hna : ∀ a ∈ n.allAnnots, Annot.isValid a = true)
    (hma : ∀ a ∈ m.allAnnots, Annot.isValid a = true) :
    (n.michelson = m.michelson ↔ n = m)
    ∧ ∀ ty oldTy : Ty, ty.isCode = true → oldTy.isCode = true → ty.prim = oldTy.prim →
      ∃ p, ty.diff (.code n) oldTy (.code m) = .ok p ∧ (p.hasChanges = true ↔ n ≠ m) := by
  have hsource : n.michelson = m.michelson ↔ n = m :=
    ⟨michelson_injective (isWorded_of_hasCodes hn hna) (isWorded_of_hasCodes hm hma),
      congrArg michelson⟩
  refine ⟨hsource, fun ty oldTy hty hold hprim => ?_⟩
  obtain ⟨p, hp, hchanges⟩ := Ty.exists_diff_code hty hold hprim n m
  exact ⟨p, hp, hchanges.trans (not_congr hsource)⟩

/-- Code that pushes a text, which looks like the end of the code, and code that ends there. -/
theorem Node.michelson_eq_iff_push :
    let ty : Ty := .lambda ⟨0, 0, []⟩ (.unit ⟨1, 1, []⟩) (.scalar ⟨2, 1, []⟩ .string)
    let push (text : String) : Node := .seq [.app "PUSH" [.prim "string" [] [":t"], .string text]]
    (push "a\" ; \"b").michelson ≠ (push "a\\\" ; \"b").michelson
    ∧ ∃ p, ty.diff (.code (push "a\" ; \"b")) ty (.code (push "a\\\" ; \"b")) = .ok p
      ∧ p.hasChanges = true := by
  intro ty push
  have hcodes (text : String) : (push text).HasCodes := by
    have hpush : Keyword.code? "PUSH" = some 67 := by decide +kernel
    have hstring : Keyword.code? "string" = some 104 := by decide +kernel
    refine .seq (List.forall_mem_singleton.2 (.prim hpush (List.forall_mem_cons.2 ⟨?_, ?_⟩)))
    · exact .prim hstring nofun
    · exact List.forall_mem_singleton.2 .string
  have hannots (text : String) : ∀ a ∈ (push text).allAnnots, Annot.isValid a = true :=
    List.forall_mem_singleton.2 (by decide)
  have hne : push "a\" ; \"b" ≠ push "a\\\" ; \"b" := by
    simp [push, app]
  obtain ⟨hsource, hdiff⟩ := michelson_eq_iff (hcodes "a\" ; \"b") (hcodes "a\\\" ; \"b")
    (hannots _) (hannots _)
  obtain ⟨p, hp, hchanges⟩ := hdiff ty ty rfl rfl rfl
  exact ⟨fun h => hne (hsource.1 h), p, hp, hchanges.2 hne⟩

end Micheline
