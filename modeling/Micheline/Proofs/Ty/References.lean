/-
Micheline/Proofs/Ty/References.lean

What the description of a type refers to.  Whoever reads the text takes the names behind its
dollar signs for references, unless they stand in quotes (`references`).  These are the names of
the pairs and choices at which the description ends (`Ty.references_description`): a name goes on
as long as there are characters of names, what follows it is no such character, and the hash of a
constant cannot be taken for a reference because it is in quotes.
-/
import Micheline.Proofs.Text.Decimal
import Micheline.Ty.Docs

namespace Micheline

/-! ### Reading references -/

/-- The names behind the dollar signs outside of quotes, in characters that begin inside of
quotes or outside. -/
def referencesFrom : (quoted : Bool) → List Char → List String
  | _, [] => []
  | true, '\\' :: _ :: cs => referencesFrom true cs
  | true, c :: cs => referencesFrom (c != '"') cs
  | false, '$' :: cs =>
    String.ofList (cs.takeWhile Annot.isNameChar) :: referencesFrom false cs
  | false, c :: cs => referencesFrom (c == '"') cs

/-- The names that a text refers to. -/
def references (text : String) : List String :=
  referencesFrom false text.toList

example : references "map($a, or(constant(\"$b\"), $@pair_4))" = ["a", "@pair_4"] := by
  decide +kernel

/-- What may follow a name: nothing that a name could go on with. -/
def EndsName (rest : List Char) : Prop :=
  ∀ c ∈ rest.head?, Annot.isNameChar c = false

/-- A text adds these names to those of whatever follows it. -/
def Refers (text : String) (names : List String) : Prop :=
  ∀ rest, EndsName rest →
    referencesFrom false (text.toList ++ rest) = names ++ referencesFrom false rest

variable {rest cs : List Char} {text first second opening : String}
  {names names' : List String}

theorem Refers.references_eq (h : Refers text names) : references text = names := by
  simpa [references, referencesFrom] using h [] nofun

/-! ### Texts without references -/

/-- Whether a character has no part in references and quotes. -/
def isPlain (c : Char) : Bool :=
  c != '$' && c != '"'

/-- Text without a mark refers to nothing. -/
theorem referencesFrom_append (h : cs.all isPlain = true) :
    referencesFrom false (cs ++ rest) = referencesFrom false rest := by
  induction cs with
  | nil => rfl
  | cons c cs ih =>
    obtain ⟨hc, hcs⟩ := Bool.and_eq_true_iff.1 h
    obtain ⟨hdollar, hquote⟩ := Bool.and_eq_true_iff.1 hc
    rw [List.cons_append, referencesFrom, beq_eq_false_iff_ne.2 (bne_iff_ne.1 hquote), ih hcs]
    exact bne_iff_ne.1 hdollar

theorem isPlain_of_isNameChar {c : Char} (h : Annot.isNameChar c = true) : isPlain c = true := by
  have hdollar : c ≠ '$' := by
    rintro rfl
    cases h
  have hquote : c ≠ '"' := by
    rintro rfl
    cases h
  rw [isPlain, bne_iff_ne.2 hdollar, bne_iff_ne.2 hquote]
  rfl

theorem refers_of_isPlain (h : text.toList.all isPlain = true) : Refers text [] :=
  fun _ _ => referencesFrom_append h

theorem refers_of_isNameChar (h : text.toList.all Annot.isNameChar = true) : Refers text [] :=
  refers_of_isPlain (List.all_eq_true.2 fun c hc =>
    isPlain_of_isNameChar (List.all_eq_true.1 h c hc))

/-! ### Brackets -/

/-- A text in brackets, behind a plain one. -/
theorem Refers.bracketed (hopening : opening.toList.all isPlain = true) (h : Refers text names) :
    Refers (opening ++ text ++ ")") names := by
  intro rest _
  have hclosing : EndsName (')' :: rest) := by
    rintro c ⟨⟩
    rfl
  simp only [String.toList_append, List.append_assoc]
  rw [referencesFrom_append hopening]
  exact h (')' :: rest) hclosing

/-- Two texts in brackets. -/
theorem Refers.pair_bracketed (hopening : opening.toList.all isPlain = true)
    (hfirst : Refers first names) (hsecond : Refers second names') :
    Refers (opening ++ first ++ ", " ++ second ++ ")") (names ++ names') := by
  intro rest _
  have hclosing : EndsName (')' :: rest) := by
    rintro c ⟨⟩
    rfl
  have hcomma : EndsName (',' :: ' ' :: (second.toList ++ ')' :: rest)) := by
    rintro c ⟨⟩
    rfl
  simp only [String.toList_append, List.append_assoc]
  rw [referencesFrom_append hopening]
  refine (hfirst _ hcomma).trans ?_
  exact congrArg (names ++ ·) (hsecond _ hclosing)

/-! ### Names behind dollar signs -/

/-- **A name behind a dollar sign is read up to its end.** -/
theorem refers_dollar {name : String} (h : name.toList.all Annot.isNameChar = true) :
    Refers ("$" ++ name) [name] := by
  intro rest hrest
  have hname : (name.toList ++ rest).takeWhile Annot.isNameChar = name.toList := by
    rw [List.takeWhile_append_of_pos (List.all_eq_true.1 h)]
    cases rest with
    | nil => simp
    | cons c rest => rw [List.takeWhile_cons_of_neg (by simp [hrest c rfl]), List.append_nil]
  rw [String.toList_append, List.append_assoc]
  show referencesFrom false ('$' :: (name.toList ++ rest)) = _
  rw [referencesFrom, hname, String.ofList_toList, refers_of_isNameChar h rest hrest]
  rfl

/-! ### Quotes -/

namespace Quoted

/-- The digits of a code are characters of names. -/
theorem isNameChar_of_mem_toDigits (n : Nat) :
    ∀ c ∈ Nat.toDigits 16 n, Annot.isNameChar c = true := by
  have hdigit : ∀ d < 16, Annot.isNameChar d.digitChar = true := by decide
  induction n using Nat.strongRecOn with
  | ind n ih =>
    rw [Nat.toDigits_eq_if (by decide)]
    split
    next hlt => exact List.forall_mem_singleton.2 (hdigit n hlt)
    next hle =>
      refine List.forall_mem_append.2 ⟨ih (n / 16) (by omega), List.forall_mem_singleton.2 ?_⟩
      exact hdigit _ (Nat.mod_lt n (by decide))

/-- Characters inside of quotes that end no quotes and escape nothing. -/
theorem referencesFrom_inside (h : ∀ c ∈ cs, c ≠ '\\' ∧ c ≠ '"') :
    referencesFrom true (cs ++ rest) = referencesFrom true rest := by
  induction cs with
  | nil => rfl
  | cons c cs ih =>
    obtain ⟨⟨hescape, hquote⟩, hcs⟩ := List.forall_mem_cons.1 h
    rw [List.cons_append, referencesFrom, bne_iff_ne.2 hquote, ih hcs]
    exact fun _ _ hc => absurd hc hescape

/-- **A character does not end the quotes that it is written in.** -/
theorem referencesFrom_escape (c : Char) :
    referencesFrom true (escape '"' c ++ rest) = referencesFrom true rest := by
  rw [escape.eq_def]
  split
  next => rfl
  next hplain =>
    obtain ⟨hquote, hescape⟩ := not_or.1 hplain
    split
    next => rfl
    next => rfl
    next => rfl
    next => rfl
    next =>
      split
      next => exact referencesFrom_inside (List.forall_mem_singleton.2 ⟨hescape, hquote⟩)
      next =>
        -- behind the backslash and its letter there are digits between braces
        have hbraced : ∀ d ∈ '\x7b' :: (Nat.toDigits 16 c.toNat ++ ['\x7d']),
            d ≠ '\\' ∧ d ≠ '"' := by
          refine List.forall_mem_cons.2 ⟨by decide, List.forall_mem_append.2
            ⟨fun d hd => ?_, List.forall_mem_singleton.2 (by decide)⟩⟩
          have hd := isNameChar_of_mem_toDigits _ d hd
          constructor <;> rintro rfl <;> cases hd
        show referencesFrom true ('\x7b' :: (Nat.toDigits 16 c.toNat ++ ['\x7d']) ++ rest) = _
        exact referencesFrom_inside hbraced

/-- Nothing in quotes is a reference. -/
theorem refers_string (text : String) : Refers (string text) [] := by
  intro rest _
  have hinside (cs : List Char) :
      referencesFrom true (cs.flatMap (escape '"') ++ '"' :: rest) = referencesFrom false rest := by
    induction cs with
    | nil => rfl
    | cons c cs ih => rw [List.flatMap_cons, List.append_assoc, referencesFrom_escape, ih]
  rw [string, String.toList_ofList, List.append_assoc, List.append_assoc]
  exact hinside text.toList

end Quoted

/-! ### Names -/

/-- A literal whose characters all have a property. -/
theorem all_toList_ofList {p : Char → Bool} (h : cs.all p = true) :
    (String.ofList cs).toList.all p = true := by
  rwa [String.toList_ofList]

theorem Prim.isNameChar_name (p : Prim) : p.name.toList.all Annot.isNameChar = true := by
  -- a literal unfolds to its characters
  rcases p with _ | _ | _ | _ | kind
  case scalar => cases kind <;> exact all_toList_ofList rfl
  all_goals exact all_toList_ofList rfl

/-- A name that is given by an annotation has the characters of names only. -/
theorem Annot.isNameChar_of_name? {sigil : Sigil} {annots : List String} {name : String}
    (h : name? sigil annots = some name) : name.toList.all isNameChar = true := by
  obtain ⟨annot, -, hannot⟩ := List.exists_of_findSome?_eq_some h
  split at hannot
  next s given hparts =>
    split at hannot
    next =>
      obtain rfl := Option.some.inj hannot
      rw [parts?] at hparts
      split at hparts
      next => cases hparts
      next c cs hcs =>
        simp only [Option.bind_eq_bind, Option.bind_eq_some_iff] at hparts
        obtain ⟨_, -, _, hguard, hname⟩ := hparts
        obtain ⟨-, hall⟩ := Bool.and_eq_true_iff.1 ((Option.guard_eq_some' _).1 hguard)
        obtain ⟨-, rfl⟩ := Prod.mk.inj (Option.some.inj hname)
        exact all_toList_ofList hall
    next => cases hannot
  next => cases hannot

namespace Ty

/-- **Names are made of characters of names**, whether an annotation gives them or not. -/
theorem isNameChar_name (ty : Ty) : ty.name.toList.all Annot.isNameChar = true := by
  rw [name]
  cases hgiven : ty.info.givenName? with
  | some given =>
    rw [Info.givenName?] at hgiven
    split at hgiven
    next hfield =>
      obtain rfl := Option.some.inj hgiven
      exact Annot.isNameChar_of_name? hfield
    next => exact Annot.isNameChar_of_name? hgiven
  | none =>
    -- A type without a name is named by its primitive and its id.
    have hnumber : ty.info.id.repr.toList.all Annot.isNameChar = true := by
      refine List.all_eq_true.2 fun c hc => ?_
      have hdigit : c.isDigit = true := Decimal.isDigit_of_mem_ofNat c hc
      simp [Annot.isNameChar, Char.isAlphanum, hdigit]
    simp only [Option.getD_none, String.toList_append, List.all_append, Bool.and_eq_true]
    exact ⟨⟨⟨rfl, ty.prim.isNameChar_name⟩, rfl⟩, hnumber⟩

/-! ### Descriptions -/

/-- The description of a type. -/
def description (ty : Ty) : String :=
  match ty with
  | .pair _ _ _ => "$" ++ ty.name
  | .or _ _ _ => "$" ++ ty.name
  | .contract _ param => "contract(" ++ param.description ++ ")"
  | .option _ inner => "option(" ++ inner.description ++ ")"
  | .list _ elem => "list(" ++ elem.description ++ ")"
  | .set _ elem => "set(" ++ elem.description ++ ")"
  | .map _ key value => "map(" ++ key.description ++ ", " ++ value.description ++ ")"
  | .bigMap _ key value => "big_map(" ++ key.description ++ ", " ++ value.description ++ ")"
  | .lambda _ param result => "lambda(" ++ param.description ++ ", " ++ result.description ++ ")"
  | .ticket _ content _ => "ticket(" ++ content.description ++ ")"
  | .saplingState _ memo => "sapling_state(" ++ Decimal.ofInt memo ++ ")"
  | .saplingTransaction _ _ memo => ty.prim.name ++ "(" ++ Decimal.ofInt memo ++ ")"
  | .constant _ hash => "constant(" ++ Quoted.string hash ++ ")"
  | ty => ty.prim.name

/-- The pairs and choices at which the description of a type ends. -/
def referred (ty : Ty) : List Ty :=
  match ty with
  | .pair _ _ _ => [ty]
  | .or _ _ _ => [ty]
  | .contract _ param => param.referred
  | .option _ inner => inner.referred
  | .list _ elem => elem.referred
  | .set _ elem => elem.referred
  | .map _ key value => key.referred ++ value.referred
  | .bigMap _ key value => key.referred ++ value.referred
  | .lambda _ param result => param.referred ++ result.referred
  | .ticket _ content _ => content.referred
  | _ => []

theorem refers_memo (memo : Int) : Refers (Decimal.ofInt memo) [] := by
  obtain ⟨c, cs, htext, hc, hcs⟩ := Decimal.exists_toList_ofInt memo
  have hdigit {d : Char} (hd : d.isDigit = true) : isPlain d = true :=
    isPlain_of_isNameChar (by simp [Annot.isNameChar, Char.isAlphanum, hd])
  refine refers_of_isPlain (htext ▸ List.all_eq_true.2 (List.forall_mem_cons.2 ⟨?_, ?_⟩))
  · rcases hc with hc | rfl
    · exact hdigit hc
    · rfl
  · exact fun d hd => hdigit (hcs d hd)

/-- The description of a type refers to the types that it says it refers to. -/
theorem refers_description (ty : Ty) : Refers ty.description (ty.referred.map name) := by
  induction ty with
  -- Only these two are written as a reference; the others bracket what they are made of.
  | pair i l r | or i l r => exact refers_dollar (isNameChar_name _)
  | contract i param ih | option i inner ih | list i elem ih | set i elem ih
    | ticket i content paired ih => exact ih.bracketed (all_toList_ofList rfl)
  | map i key value ihkey ihvalue | bigMap i key value ihkey ihvalue =>
    rw [referred, List.map_append]
    exact ihkey.pair_bracketed (all_toList_ofList rfl) ihvalue
  | lambda i param result ihparam ihresult =>
    rw [referred, List.map_append]
    exact ihparam.pair_bracketed (all_toList_ofList rfl) ihresult
  | saplingState i memo => exact (refers_memo memo).bracketed (all_toList_ofList rfl)
  | saplingTransaction i deprecated memo =>
    have hopening : ((saplingTransaction i deprecated memo).prim.name ++ "(").toList.all isPlain
        = true := by
      rw [String.toList_append, List.all_append, Bool.and_eq_true]
      exact ⟨List.all_eq_true.2 fun c hc => isPlain_of_isNameChar
        (List.all_eq_true.1 (Prim.isNameChar_name _) c hc), rfl⟩
    exact (refers_memo memo).bracketed hopening
  | constant i hash => exact (Quoted.refers_string hash).bracketed (all_toList_ofList rfl)
  | unit i | never i | operation i | bool i | scalar i kind =>
    exact refers_of_isNameChar (Prim.isNameChar_name _)

/-- **A description refers to the pairs and choices at which it ends**, by their names. -/
theorem references_description (ty : Ty) :
    references ty.description = ty.referred.map name :=
  ty.refers_description.references_eq

end Ty

end Micheline
