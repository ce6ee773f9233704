/-
Micheline/Proofs/Form/Source.lean

Expressions that are entered in a form as the text of their document: code, sapling states and
transactions, constants.  The text is read as a list of expressions, and a sequence has the same
text as the list of its items.  A list is therefore taken for a sequence, but a list of one item
is taken for the item (`Ty.submit_text`).  So a sequence of one item loses its brackets, whatever
the item is.  Only for the one instruction of a function they are put back; a block in a block,
a literal and a function that calls itself are entered without them (`Ty.submit_text_iff`).
-/
import Micheline.Form.Submission
import Micheline.Proofs.Except
import Micheline.Proofs.Node.Text

namespace Micheline.Ty

open Submission

/-- Whether values of the type are entered as the text of an expression. -/
def isEnteredAsSource : Ty → Bool
  | .lambda _ _ _ => true
  | .saplingState _ _ => true
  | .saplingTransaction _ _ _ => true
  | .constant _ _ => true
  | _ => false

/-- An expression as it is after it was entered. -/
def entered (ty : Ty) : Node → Node
  | .seq [x] => if isBareInstruction ty [x] then .seq [x] else x
  | n => n

variable {ty : Ty} {n x : Node} {v : Val} {text : String}

theorem submit_eq_source (hty : ty.isEnteredAsSource = true) (data : Json) :
    ty.submit data = source ty data := by
  cases ty
  case lambda | saplingState | saplingTransaction | constant => rw [submit] <;> simp
  all_goals cases hty

/-- No instruction alone is a function, and so none is accepted without brackets. -/
theorem isBareInstruction_of_settle (h : ty.settle n = .ok v) :
    isBareInstruction ty [n] = false := by
  cases n with
  | prim name args annots =>
    cases ty with
    | lambda i param result =>
      by_cases hname : name = "Lambda_rec"
      · subst hname
        rfl
      · rw [settle] at h
        · simp [Node.name?, hname] at h
        · simp
    | _ => rfl
  | _ => rfl

theorem isBareInstruction_singleton_iff : isBareInstruction ty [x] = true ↔
    ∃ name args annots, isLambda ty = true ∧ name ≠ "Lambda_rec" ∧ x = .prim name args annots := by
  cases x with
  | prim name args annots => simp [isBareInstruction]
  | _ => simp [isBareInstruction]

/-- A sequence of one item is not its item. -/
theorem ne_seq_self (x : Node) : x ≠ .seq [x] := by
  intro h
  have := congrArg Node.count h
  simp [Node.count, Node.countAll] at this

/-- What was entered is unwrapped only if it is a list of one that is no bare instruction of a
lambda. -/
theorem entered_eq_self_iff :
    ty.entered n = n ↔ ∀ x, n = .seq [x] → isBareInstruction ty [x] = true := by
  rw [entered.eq_def]
  split
  next x =>
    split
    next hbare => exact iff_of_true rfl fun y hy => by cases hy; exact hbare
    next hbare => exact iff_of_false (ne_seq_self x) fun h => hbare (h x rfl)
  next hne => exact iff_of_true rfl fun x hx => absurd hx (hne x)

/-- What the expressions that are read from the text of an expression are taken for. -/
theorem taken_eq (hn : ty.settle n = .ok v) :
    (if isBareInstruction ty (Node.opened [n]) then pure (.seq (Node.opened [n]))
      else match Node.opened [n] with
        | [x] => pure x
        | ns => pure (.seq ns)) = (.ok (ty.entered n) : Except Error Node) := by
  rcases n with _ | _ | _ | items | ⟨name, args, annots⟩
  case seq =>
    match items with
    | [] => rfl
    | [x] =>
      show (if isBareInstruction ty [x] then pure (.seq [x]) else pure x)
        = Except.ok (if isBareInstruction ty [x] then .seq [x] else x)
      split <;> rfl
    | x :: y :: rest => cases x <;> rfl
  all_goals
    show (if isBareInstruction ty [_] then _ else _) = _
    rw [isBareInstruction_of_settle hn]
    rfl

/-- **What the text of an expression is entered as.** -/
theorem submit_text (hty : ty.isEnteredAsSource = true) (hn : ty.settle n = .ok v)
    (htext : text = n.toJson.compact ∨ text = n.toJson.pretty) :
    ty.submit (.str text) = if n.toJson.nesting ≤ Json.maxNesting then .ok (ty.entered n)
      else .error (.misfit (.source ty.name .malformed)) := by
  -- Only the nesting limit can keep a written text from being read.
  have hparse : Node.parse text = if n.toJson.nesting ≤ Json.maxNesting then .ok (Node.opened [n])
      else .error .malformed := by
    have hread := Node.parse_text [n] htext (show Json.IsPassed "".toList from Json.isPassed_nil)
    rwa [String.append_empty] at hread
  have hstring : Submission.text ty "micheline text" (.str text) = .ok text := rfl
  rw [submit_eq_source hty]
  split
  next hle =>
    rw [if_pos hle] at hparse
    refine bind_eq_ok_iff.2 ⟨text, hstring, ?_⟩
    rw [hparse]
    exact taken_eq hn
  next hle =>
    rw [if_neg hle] at hparse
    rw [source, hstring]
    dsimp only [bind, Except.bind]
    rw [hparse]
    rfl

/-- **Which expressions a form keeps.**  The text of an accepted expression, if it does not nest
too deeply, is entered as that expression exactly if this is not a sequence of one item, the one
instruction of a function aside; else it is entered as the item.  A text that nests too deeply
is rejected. -/
theorem submit_text_iff (hty : ty.isEnteredAsSource = true) (hn : ty.settle n = .ok v)
    (htext : text = n.toJson.compact ∨ text = n.toJson.pretty) :
    (n.toJson.nesting ≤ Json.maxNesting →
      (ty.submit (.str text) = .ok n ↔ ∀ x, n = .seq [x] →
        ∃ name args annots, isLambda ty = true ∧ name ≠ "Lambda_rec" ∧ x = .prim name args annots)
      ∧ ∀ x, n = .seq [x] → ty.submit (.str text) ≠ .ok n → ty.submit (.str text) = .ok x)
    ∧ (Json.maxNesting < n.toJson.nesting →
      ty.submit (.str text) = .error (.misfit (.source ty.name .malformed))) := by
  have hsubmit := submit_text hty hn htext
  constructor
  · intro hle
    rw [if_pos hle] at hsubmit
    rw [hsubmit]
    -- What was entered is kept exactly if it is not unwrapped: then its only expression is no
    -- bare instruction.
    have hkept : Except.ok (ty.entered n) = (.ok n : Except Error Node) ↔ ty.entered n = n :=
      ⟨Except.ok.inj, congrArg Except.ok⟩
    rw [Ne, hkept, entered_eq_self_iff]
    simp only [isBareInstruction_singleton_iff, true_and]
    rintro x rfl hlost
    rw [entered, if_neg]
    intro hbare
    refine hlost fun y hy => ?_
    cases hy
    exact isBareInstruction_singleton_iff.1 hbare
  · intro hlt
    rw [hsubmit, if_neg (Nat.not_le.2 hlt)]

/-- A block with one instruction is entered as the code of a function. -/
theorem submit_text_drop :
    let ty := Ty.lambda ⟨0, 0, ["%f"]⟩ (.unit ⟨1, 1, []⟩) (.unit ⟨2, 1, []⟩)
    ty.submit (.str (Node.seq [.app "DROP" []]).toJson.compact)
      = .ok (.seq [.app "DROP" []]) := by
  intro ty
  have haccepted : ty.settle (.seq [.app "DROP" []]) = .ok (.code (.seq [.app "DROP" []])) := by
    rw [settle]
  refine ((submit_text_iff rfl haccepted (.inl rfl)).1 (by decide +kernel)).1.2 fun x hx => ?_
  obtain ⟨rfl, -⟩ := List.cons.inj (Node.seq.inj hx)
  exact ⟨"DROP", [], [], rfl, by decide, rfl⟩

/-- Code that is a block in a block, or a function in brackets that calls itself, is entered
without the brackets. -/
theorem submit_text_brackets_lost :
    let ty := Ty.lambda ⟨0, 0, ["%f"]⟩ (.unit ⟨1, 1, []⟩) (.unit ⟨2, 1, []⟩)
    ∀ n ∈ [Node.seq [.app "DROP" []], Node.app "Lambda_rec" [.seq [.app "DROP" []]]],
      ty.settle (.seq [n]) = .ok (.code (.seq [n]))
        ∧ (Node.seq [n]).toJson.nesting ≤ Json.maxNesting
        ∧ ty.submit (.str (Node.seq [n]).toJson.compact) = .ok n
        ∧ n ≠ .seq [n] := by
  intro ty n hn
  have hnesting : (Node.seq [n]).toJson.nesting ≤ Json.maxNesting := by
    revert n
    decide +kernel
  have haccepted : ty.settle (.seq [n]) = .ok (.code (.seq [n])) := by
    rw [settle]
  refine ⟨haccepted, hnesting, ?_, ne_seq_self n⟩
  have hsubmit := submit_text rfl haccepted (.inl rfl)
  rw [if_pos hnesting] at hsubmit
  rcases List.mem_pair.1 hn with rfl | rfl <;> exact hsubmit

end Micheline.Ty
