/-
Micheline/Proofs/Node/Michelson.lean

Michelson source tells expressions apart (`Node.michelson_injective`), as far as their names
and annotations are words: a name begins with a letter, an annotation with a sigil, and
neither has a blank or a closing bracket in it (`Node.IsWorded`).  Other names may run
together with what stands behind them.

Two equal texts are cut at the same place, part by part (`Node.source_append_injective`).
Literals and sequences say where they end.  An argument ends at a blank or a bracket
(`Node.Ends`); an application that is no argument ends where no annotation and no argument
follows any more (`Node.Closes`).
-/
import Micheline.Node.Annot
import Micheline.Node.Michelson
import Micheline.Proofs.Text.Decimal
import Micheline.Proofs.Text.Hex

namespace Micheline.Node

/-! ### Words -/

/-- Whether a character may stand in a word. -/
def isInner (c : Char) : Bool :=
  c != ' ' && c != ')'

/-- The name of a primitive: a letter, then anything but blanks and closing brackets. -/
def IsName (name : String) : Prop :=
  ∃ c cs, name.toList = c :: cs ∧ c.isAlpha = true ∧ ∀ d ∈ cs, isInner d = true

/-- An annotation: a sigil, then anything but blanks and closing brackets. -/
def IsMark (annot : String) : Prop :=
  ∃ c cs, annot.toList = c :: cs ∧ (Annot.sigil? c).isSome = true ∧ ∀ d ∈ cs, isInner d = true

mutual

/-- Every name and every annotation in the expression is a word. -/
def IsWorded : Node → Prop
  | .seq items => AllWorded items
  | .prim name args annots => IsName name ∧ (∀ a ∈ annots, IsMark a) ∧ AllWorded args
  | _ => True

/-- Every name and every annotation in the expressions is a word. -/
def AllWorded : List Node → Prop
  | [] => True
  | n :: ns => IsWorded n ∧ AllWorded ns

end

/-- What may follow an argument. -/
def Ends (r : List Char) : Prop :=
  ∀ c ∈ r.head?, isInner c = false

/-- What may follow an application: no annotation and no argument. -/
def Closes (r : List Char) : Prop :=
  Ends r ∧ ∀ c rest, r = ' ' :: c :: rest → c = ';' ∨ c = '\x7d'

/-- What may follow an expression, among arguments or by itself. -/
def Follows : (wrap : Bool) → List Char → Prop
  | true => Ends
  | false => Closes

theorem ends_nil : Ends [] := nofun

theorem ends_cons {c : Char} {r : List Char} : Ends (c :: r) ↔ isInner c = false := by
  simp [Ends]

theorem closes_bracket (r : List Char) : Closes (')' :: r) :=
  ⟨ends_cons.2 rfl, nofun⟩

theorem closes_blank {c : Char} {r : List Char} (hc : c = ';' ∨ c = '\x7d') :
    Closes (' ' :: c :: r) := by
  refine ⟨ends_cons.2 rfl, fun d rest h => ?_⟩
  obtain ⟨-, hd⟩ := List.cons.inj h
  exact (List.cons.inj hd).1 ▸ hc

theorem Follows.ends : ∀ {wrap : Bool} {r : List Char}, Follows wrap r → Ends r
  | true, _, h => h
  | false, _, h => h.1

variable {as bs r s : List Char}

/-- **A word ends where something else begins.** -/
theorem word_append_injective (ha : ∀ c ∈ as, isInner c = true) (hb : ∀ c ∈ bs, isInner c = true)
    (hr : Ends r) (hs : Ends s) (h : as ++ r = bs ++ s) : as = bs ∧ r = s := by
  induction as generalizing bs with
  | nil =>
    cases bs with
    | nil => exact ⟨rfl, h⟩
    | cons b bs =>
      subst h
      exact absurd (ends_cons.1 hr) (by simp [hb b List.mem_cons_self])
  | cons a as ih =>
    cases bs with
    | nil =>
      subst h
      exact absurd (ends_cons.1 hs) (by simp [ha a List.mem_cons_self])
    | cons b bs =>
      obtain ⟨hhead, htail⟩ := List.cons.inj h
      obtain ⟨hword, hrest⟩ :=
        ih (List.forall_mem_cons.1 ha).2 (List.forall_mem_cons.1 hb).2 htail
      exact ⟨by rw [hhead, hword], hrest⟩

/-! ### How an expression begins -/

/-- How the source of an expression begins. -/
inductive Opening where
  | number
  | quote
  | brace
  | word

/-- What a character opens, if anything. -/
def Opening.ofChar? (c : Char) : Option Opening :=
  if c.isDigit ∨ c = '-' then some .number
  else if c = '"' then some .quote
  else if c = '\x7b' then some .brace
  else if c.isAlpha ∨ c = '(' then some .word
  else none

/-- The opening of an expression. -/
def opening : Node → Opening
  | .int _ => .number
  | .bytes _ => .number
  | .string _ => .quote
  | .seq _ => .brace
  | .prim _ _ _ => .word

theorem ne_of_class {p : Char → Bool} {c d : Char} (hc : p c = true) (hd : p d = false) :
    c ≠ d := by
  rintro rfl
  cases hc.symm.trans hd

/-- No character of a class without blanks and closing brackets ends a word. -/
theorem isInner_of_class {p : Char → Bool} {c : Char} (hblank : p ' ' = false)
    (hbracket : p ')' = false) (h : p c = true) : isInner c = true := by
  have hne : c ≠ ' ' := ne_of_class h hblank
  have hne' : c ≠ ')' := ne_of_class h hbracket
  simp [isInner, hne, hne']

theorem isDigit_of_isAlpha {c : Char} (h : c.isAlpha = true) : c.isDigit = false := by
  refine Bool.eq_false_iff.2 fun hdigit => ?_
  have hnine : c.toNat ≤ 57 := (Char.isDigit_iff_toNat.1 hdigit).2
  rcases Bool.or_eq_true_iff.1 h with hupper | hlower
  · have hletter : 65 ≤ c.toNat := UInt32.le_iff_toNat_le.1 (of_decide_eq_true hupper).1
    omega
  · have hletter : 97 ≤ c.toNat :=
      UInt32.le_iff_toNat_le.1 (of_decide_eq_true (Bool.and_eq_true_iff.1 hlower).1)
    omega

theorem ofChar?_of_isAlpha {c : Char} (h : c.isAlpha = true) :
    Opening.ofChar? c = some .word := by
  have hminus : c ≠ '-' := ne_of_class h rfl
  have hquote : c ≠ '"' := ne_of_class h rfl
  have hbrace : c ≠ '\x7b' := ne_of_class h rfl
  simp [Opening.ofChar?, isDigit_of_isAlpha h, hminus, hquote, hbrace, h]

/-- The characters that lead annotations. -/
theorem sigil?_isSome_iff {c : Char} :
    (Annot.sigil? c).isSome = true ↔ c = '%' ∨ c = ':' ∨ c = '@' := by
  rw [Annot.sigil?]
  split
  next h => simp [h]
  next h =>
    split
    next h' => simp [h']
    next h' => split <;> simp [*]

/-- Nothing that begins an expression leads an annotation. -/
theorem sigil?_of_ofChar? {c : Char} {o : Opening} (h : Opening.ofChar? c = some o) :
    Annot.sigil? c = none := by
  rw [← Option.not_isSome_iff_eq_none, sigil?_isSome_iff]
  rintro (rfl | rfl | rfl) <;> cases h

/-- Among arguments some applications are bracketed. -/
theorem source_true_prim {name : String} {args : List Node} {annots : List String} :
    source true (.prim name args annots)
      = if args = [] ∧ annots = [] then name.toList
        else '(' :: (source false (.prim name args annots) ++ [')']) := by
  rw [source]
  cases args with
  | nil =>
    cases annots with
    | nil => simp [sourceAnnots, sourceArgs]
    | cons a annots => simp [source]
  | cons n args => simp [source]

theorem source_false_prim {name : String} {args : List Node} {annots : List String} :
    source false (.prim name args annots) = name.toList ++ sourceAnnots annots ++ sourceArgs args :=
  rfl

/-- **An expression begins as its kind does.** -/
theorem exists_source (wrap : Bool) {n : Node} (hn : n.IsWorded) :
    ∃ c cs, source wrap n = c :: cs ∧ Opening.ofChar? c = some n.opening := by
  cases n with
  | int value =>
    obtain ⟨c, cs, h, hc, -⟩ := Decimal.exists_toList_ofInt value
    exact ⟨c, cs, by rw [source, h], if_pos hc⟩
  | string text => exact ⟨'"', _, rfl, rfl⟩
  | bytes data => exact ⟨'0', _, rfl, rfl⟩
  | seq items =>
    cases items with
    | nil => exact ⟨'\x7b', _, rfl, rfl⟩
    | cons n items => exact ⟨'\x7b', _, rfl, rfl⟩
  | prim name args annots =>
    obtain ⟨c, cs, hname, hc, -⟩ := hn.1
    cases wrap with
    | false =>
      rw [source_false_prim, hname]
      exact ⟨c, _, rfl, ofChar?_of_isAlpha hc⟩
    | true =>
      rw [source_true_prim]
      split
      · exact ⟨c, cs, hname, ofChar?_of_isAlpha hc⟩
      · exact ⟨'(', _, rfl, rfl⟩

/-- Expressions with equal sources are of one kind. -/
theorem opening_eq {wrap : Bool} {m n : Node} (hn : n.IsWorded) (hm : m.IsWorded)
    (h : source wrap n ++ r = source wrap m ++ s) : n.opening = m.opening := by
  obtain ⟨c, cs, hc, ho⟩ := exists_source wrap hn
  obtain ⟨d, ds, hd, ho'⟩ := exists_source wrap hm
  rw [hc, hd] at h
  have hcd : c = d := (List.cons.inj h).1
  rw [hcd, ho'] at ho
  exact (Option.some.inj ho).symm

/-! ### Literals -/

/-- A character in a string literal ends in one place. -/
theorem escape_append_injective {a b : Char} (h : escape a ++ r = escape b ++ s) :
    a = b ∧ r = s := by
  rw [escape.eq_def a, escape.eq_def b] at h
  split at h <;> split at h <;> grind

/-- No character is escaped as the quotation mark that ends a text. -/
theorem escape_ne_quote {a : Char} : escape a ++ r ≠ '"' :: s := by
  rw [escape.eq_def]
  split <;> simp_all

/-- **A string literal ends at its closing quote.** -/
theorem flatMap_escape_append_injective
    (h : as.flatMap escape ++ '"' :: r = bs.flatMap escape ++ '"' :: s) : as = bs ∧ r = s := by
  induction as generalizing bs with
  | nil =>
    cases bs with
    | nil => exact ⟨rfl, (List.cons.inj h).2⟩
    | cons b bs =>
      rw [List.flatMap_cons, List.append_assoc] at h
      exact absurd h.symm escape_ne_quote
  | cons a as ih =>
    cases bs with
    | nil =>
      rw [List.flatMap_cons, List.append_assoc] at h
      exact absurd h escape_ne_quote
    | cons b bs =>
      rw [List.flatMap_cons, List.append_assoc, List.flatMap_cons, List.append_assoc] at h
      obtain ⟨rfl, htail⟩ := escape_append_injective h
      obtain ⟨rfl, hrest⟩ := ih htail
      exact ⟨rfl, hrest⟩

theorem sourceString_append_injective {x y : String}
    (h : sourceString x ++ r = sourceString y ++ s) : x = y ∧ r = s := by
  simp only [sourceString, List.append_assoc, List.cons_append, List.cons.injEq,
    true_and] at h
  exact (flatMap_escape_append_injective h).imp_left String.toList_inj.1

/-- A number is a word, and has no mark of a byte string. -/
theorem isInner_of_mem_ofInt {value : Int} :
    ∀ c ∈ (Decimal.ofInt value).toList, isInner c = true ∧ c ≠ 'x' := by
  obtain ⟨c, cs, htext, hc, hcs⟩ := Decimal.exists_toList_ofInt value
  have hdigit {d : Char} (hd : d.isDigit = true) : isInner d = true ∧ d ≠ 'x' :=
    ⟨isInner_of_class rfl rfl hd, ne_of_class hd rfl⟩
  rw [htext]
  refine List.forall_mem_cons.2 ⟨?_, fun d hd => hdigit (hcs d hd)⟩
  rcases hc with hc | rfl
  · exact hdigit hc
  · exact ⟨rfl, by decide⟩

theorem isInner_of_mem_bytes {data : Bytes} :
    ∀ c ∈ '0' :: 'x' :: (Hex.encode data).toList, isInner c = true := by
  have hdigit : ∀ n < 16, isInner (Hex.digit n) = true := by decide
  refine List.forall_mem_cons.2 ⟨rfl, List.forall_mem_cons.2 ⟨rfl, fun c hc => ?_⟩⟩
  rw [Hex.encode, String.toList_ofList] at hc
  obtain ⟨byte, -, hc⟩ := List.mem_flatMap.1 hc
  have hlt : byte.toNat < 256 := byte.toNat_lt
  rcases List.mem_cons.1 hc with rfl | hc
  · exact hdigit _ (by omega)
  · obtain rfl := List.mem_singleton.1 hc
    exact hdigit _ (by omega)

/-- No bytes are written like an integer. -/
theorem ofInt_ne_bytes {value : Int} {cs : List Char} :
    (Decimal.ofInt value).toList ≠ '0' :: 'x' :: cs := by
  intro h
  have hx : 'x' ∈ (Decimal.ofInt value).toList := by
    rw [h]
    simp
  exact (isInner_of_mem_ofInt 'x' hx).2 rfl

/-! ### Annotations -/

/-- What may follow annotations: something else. -/
def AfterAnnots (r : List Char) : Prop :=
  Ends r ∧ ∀ c rest, r = ' ' :: c :: rest → Annot.sigil? c = none

theorem ends_sourceAnnots {annots : List String} (hr : Ends r) :
    Ends (sourceAnnots annots ++ r) := by
  cases annots with
  | nil => exact hr
  | cons a annots => exact ends_cons.2 rfl

/-- An annotation goes on to its end as a word. -/
theorem isInner_of_isMark {annot : String} (h : IsMark annot) :
    ∀ c ∈ annot.toList, isInner c = true := by
  obtain ⟨c, cs, htext, hc, hcs⟩ := h
  rw [htext]
  refine List.forall_mem_cons.2 ⟨?_, hcs⟩
  rcases sigil?_isSome_iff.1 hc with rfl | rfl | rfl <;> rfl

theorem isInner_of_isName {name : String} (h : IsName name) :
    ∀ c ∈ name.toList, isInner c = true := by
  obtain ⟨c, cs, htext, hc, hcs⟩ := h
  rw [htext]
  exact List.forall_mem_cons.2 ⟨isInner_of_class rfl rfl hc, hcs⟩

/-- No annotation stands where something else follows. -/
theorem AfterAnnots.ne_annot {annot : String} (hr : AfterAnnots r) (ha : IsMark annot) :
    r ≠ ' ' :: (annot.toList ++ s) := by
  rintro rfl
  obtain ⟨c, cs, htext, hc, -⟩ := ha
  rw [hr.2 c (cs ++ s) (by rw [htext, List.cons_append])] at hc
  cases hc

/-- The annotations can be told from what follows them. -/
theorem sourceAnnots_append_injective {xs ys : List String} (hx : ∀ a ∈ xs, IsMark a)
    (hy : ∀ a ∈ ys, IsMark a) (hr : AfterAnnots r) (hs : AfterAnnots s)
    (h : sourceAnnots xs ++ r = sourceAnnots ys ++ s) : xs = ys ∧ r = s := by
  have hcons : ∀ (a : String) (as : List String) (rest : List Char),
      sourceAnnots (a :: as) ++ rest = ' ' :: (a.toList ++ (sourceAnnots as ++ rest)) := by
    intro a as rest
    simp [sourceAnnots]
  induction xs generalizing ys with
  | nil =>
    cases ys with
    | nil => exact ⟨rfl, h⟩
    | cons b ys =>
      rw [hcons] at h
      -- What follows the annotations does not look like another one.
      exact absurd h (hr.ne_annot (hy b List.mem_cons_self))
  | cons a xs ih =>
    obtain ⟨ha, hx⟩ := List.forall_mem_cons.1 hx
    cases ys with
    | nil =>
      rw [hcons] at h
      exact absurd h.symm (hs.ne_annot ha)
    | cons b ys =>
      obtain ⟨hb, hy⟩ := List.forall_mem_cons.1 hy
      rw [hcons, hcons] at h
      obtain ⟨hab, hrest⟩ := word_append_injective (isInner_of_isMark ha) (isInner_of_isMark hb)
        (ends_sourceAnnots hr.1) (ends_sourceAnnots hs.1) (List.cons.inj h).2
      obtain ⟨rfl, hrs⟩ := ih hx hy hrest
      exact ⟨by rw [String.toList_inj.1 hab], hrs⟩

/-! ### Expressions -/

/-- Arguments do not look like annotations. -/
theorem afterAnnots_sourceArgs {args : List Node} (hargs : AllWorded args) (hr : Closes r) :
    AfterAnnots (sourceArgs args ++ r) := by
  cases args with
  | nil =>
    refine ⟨hr.1, fun c rest h => ?_⟩
    rcases hr.2 c rest h with rfl | rfl <;> rfl
  | cons n args =>
    obtain ⟨c, cs, hsource, hopen⟩ := exists_source true hargs.1
    refine ⟨ends_cons.2 rfl, fun d rest h => ?_⟩
    rw [sourceArgs, hsource] at h
    have hcd : c = d := (List.cons.inj (List.cons.inj h).2).1
    exact hcd ▸ sigil?_of_ofChar? hopen

theorem closes_sourceItems (items : List Node) : Closes (sourceItems items ++ r) := by
  cases items with
  | nil => exact closes_blank (.inr rfl)
  | cons n items => exact closes_blank (.inl rfl)

theorem ends_sourceArgs {args : List Node} (hr : Ends r) : Ends (sourceArgs args ++ r) := by
  cases args with
  | nil => exact hr
  | cons n args => exact ends_cons.2 rfl

/-- What follows an application is no argument. -/
theorem Closes.ne_sourceArgs {n : Node} {args : List Node} (hr : Closes r) (hn : n.IsWorded) :
    r ≠ sourceArgs (n :: args) ++ s := by
  rintro rfl
  obtain ⟨c, cs, hsource, hopen⟩ := exists_source true hn
  have hhead : sourceArgs (n :: args) ++ s = ' ' :: c :: (cs ++ (sourceArgs args ++ s)) := by
    rw [sourceArgs, hsource]
    simp
  rcases hr.2 c _ hhead with rfl | rfl <;> cases hopen

/-- The arguments of an application are told apart. -/
def ArgsCut (args : List Node) : Prop :=
  ∀ {args' : List Node} {r s : List Char}, AllWorded args' → Closes r → Closes s →
    sourceArgs args ++ r = sourceArgs args' ++ s → args = args' ∧ r = s

/-- **An application ends where its arguments do.** -/
theorem source_false_prim_injective {name name' : String} {args args' : List Node}
    {annots annots' : List String} (hn : (prim name args annots).IsWorded)
    (hm : (prim name' args' annots').IsWorded) (hargs : ArgsCut args) (hr : Closes r)
    (hs : Closes s)
    (h : source false (.prim name args annots) ++ r
      = source false (.prim name' args' annots') ++ s) :
    prim name args annots = prim name' args' annots' ∧ r = s := by
  obtain ⟨hname, hannots, hwords⟩ := hn
  obtain ⟨hname', hannots', hwords'⟩ := hm
  simp only [source_false_prim, List.append_assoc] at h
  obtain ⟨hnames, hrest⟩ := word_append_injective (isInner_of_isName hname)
    (isInner_of_isName hname') (ends_sourceAnnots (ends_sourceArgs hr.1))
    (ends_sourceAnnots (ends_sourceArgs hs.1)) h
  obtain ⟨rfl, htail⟩ := sourceAnnots_append_injective hannots hannots'
    (afterAnnots_sourceArgs hwords hr) (afterAnnots_sourceArgs hwords' hs) hrest
  obtain ⟨rfl, hrs⟩ := hargs hwords' hr hs htail
  exact ⟨by rw [String.toList_inj.1 hnames], hrs⟩

/-- **An application among arguments ends at its bracket**, or where its name does. -/
theorem source_true_prim_injective {name name' : String} {args args' : List Node}
    {annots annots' : List String} (hn : (prim name args annots).IsWorded)
    (hm : (prim name' args' annots').IsWorded) (hargs : ArgsCut args) (hr : Ends r) (hs : Ends s)
    (h : source true (.prim name args annots) ++ r = source true (.prim name' args' annots') ++ s) :
    prim name args annots = prim name' args' annots' ∧ r = s := by
  -- no name begins with a bracket
  have hbracket {x : String} {as bs cs : List Char} (hx : IsName x) :
      x.toList ++ as ≠ '(' :: bs ++ cs := by
    obtain ⟨c, ds, htext, hc, -⟩ := hx
    rw [htext]
    exact fun he => ne_of_class hc rfl (List.cons.inj he).1
  rw [source_true_prim, source_true_prim] at h
  by_cases hbare : args = [] ∧ annots = []
  · rw [if_pos hbare] at h
    by_cases hbare' : args' = [] ∧ annots' = []
    · rw [if_pos hbare'] at h
      obtain ⟨hnames, hrs⟩ := word_append_injective (isInner_of_isName hn.1)
        (isInner_of_isName hm.1) hr hs h
      obtain ⟨rfl, rfl⟩ := hbare
      obtain ⟨rfl, rfl⟩ := hbare'
      exact ⟨by rw [String.toList_inj.1 hnames], hrs⟩
    · rw [if_neg hbare'] at h
      exact absurd h (hbracket hn.1)
  · rw [if_neg hbare] at h
    by_cases hbare' : args' = [] ∧ annots' = []
    · rw [if_pos hbare'] at h
      exact absurd h.symm (hbracket hm.1)
    · rw [if_neg hbare', List.cons_append, List.cons_append, List.append_assoc,
        List.append_assoc] at h
      obtain ⟨hnode, hrest⟩ := source_false_prim_injective hn hm hargs (closes_bracket r)
        (closes_bracket s) (List.cons.inj h).2
      exact ⟨hnode, (List.cons.inj hrest).2⟩

mutual

/-- **The source of an expression ends in one place**, whatever follows. -/
theorem source_append_injective : ∀ {n m : Node} (wrap : Bool) {r s : List Char}, n.IsWorded →
    m.IsWorded → Follows wrap r → Follows wrap s → source wrap n ++ r = source wrap m ++ s →
    n = m ∧ r = s
  -- The first characters tell the constructors apart, except for numbers and byte strings,
  -- which both begin with a digit: these are told apart as whole words.
  | .int value, m, wrap, r, s, hn, hm, hr, hs, h => by
    have hvalue : ∀ c ∈ (Decimal.ofInt value).toList, isInner c = true :=
      fun c hc => (isInner_of_mem_ofInt c hc).1
    cases m with
    | int value' =>
      rw [source, source] at h
      obtain ⟨htexts, hrs⟩ := word_append_injective hvalue
        (fun c hc => (isInner_of_mem_ofInt c hc).1) hr.ends hs.ends h
      exact ⟨by rw [Decimal.ofInt_injective (String.toList_inj.1 htexts)], hrs⟩
    | bytes data =>
      rw [source, source] at h
      obtain ⟨htexts, -⟩ := word_append_injective hvalue isInner_of_mem_bytes hr.ends hs.ends h
      exact absurd htexts ofInt_ne_bytes
    | _ => cases opening_eq hn hm h
  | .bytes data, m, wrap, r, s, hn, hm, hr, hs, h => by
    cases m with
    | int value =>
      rw [source, source] at h
      obtain ⟨htexts, -⟩ := word_append_injective isInner_of_mem_bytes
        (fun c hc => (isInner_of_mem_ofInt c hc).1) hr.ends hs.ends h
      exact absurd htexts.symm ofInt_ne_bytes
    | bytes data' =>
      rw [source, source] at h
      obtain ⟨htexts, hrs⟩ := word_append_injective isInner_of_mem_bytes isInner_of_mem_bytes
        hr.ends hs.ends h
      have hdigits := String.toList_inj.1 (List.cons.inj (List.cons.inj htexts).2).2
      exact ⟨by rw [Hex.encode_injective hdigits], hrs⟩
    | _ => cases opening_eq hn hm h
  | .string text, m, wrap, r, s, hn, hm, hr, hs, h => by
    cases m with
    | string text' =>
      rw [source, source] at h
      obtain ⟨rfl, hrs⟩ := sourceString_append_injective h
      exact ⟨rfl, hrs⟩
    | _ => cases opening_eq hn hm h
  | .seq items, m, wrap, r, s, hn, hm, hr, hs, h => by
    cases m with
    | seq items' =>
      cases items with
      | nil =>
        cases items' with
        | nil => exact ⟨rfl, (List.cons.inj (List.cons.inj h).2).2⟩
        | cons n' items' => cases (List.cons.inj (List.cons.inj h).2).1
      | cons n items =>
        cases items' with
        | nil => cases (List.cons.inj (List.cons.inj h).2).1
        | cons n' items' =>
          simp only [source, List.append_assoc] at h
          obtain ⟨rfl, hrest⟩ := source_append_injective false hn.1 hm.1
            (closes_sourceItems items) (closes_sourceItems items') (List.append_cancel_left h)
          obtain ⟨rfl, hrs⟩ := sourceItems_append_injective hn.2 hm.2 hrest
          exact ⟨rfl, hrs⟩
    | _ => cases opening_eq hn hm h
  | .prim name args annots, m, wrap, r, s, hn, hm, hr, hs, h => by
    cases m with
    | prim name' args' annots' =>
      cases wrap with
      | true => exact source_true_prim_injective hn hm (argsCut_of_worded hn.2.2) hr hs h
      | false => exact source_false_prim_injective hn hm (argsCut_of_worded hn.2.2) hr hs h
    | _ => cases opening_eq hn hm h

/-- Items end at the closing brace. -/
theorem sourceItems_append_injective : ∀ {items items' : List Node} {r s : List Char},
    AllWorded items → AllWorded items' → sourceItems items ++ r = sourceItems items' ++ s →
    items = items' ∧ r = s
  | [], items', r, s, _, _, h => by
    cases items' with
    | nil => exact ⟨rfl, List.append_cancel_left h⟩
    | cons n' items' => cases (List.cons.inj (List.cons.inj h).2).1
  | n :: items, items', r, s, hn, hm, h => by
    cases items' with
    | nil => cases (List.cons.inj (List.cons.inj h).2).1
    | cons n' items' =>
      simp only [sourceItems, List.append_assoc] at h
      obtain ⟨rfl, hrest⟩ := source_append_injective false hn.1 hm.1 (closes_sourceItems items)
        (closes_sourceItems items') (List.append_cancel_left h)
      obtain ⟨rfl, hrs⟩ := sourceItems_append_injective hn.2 hm.2 hrest
      exact ⟨rfl, hrs⟩

/-- The arguments can be told from what follows them. -/
theorem argsCut_of_worded : ∀ {args : List Node}, AllWorded args → ArgsCut args
  | [], _, args', r, s, hm, hr, _, h => by
    cases args' with
    | nil => exact ⟨rfl, h⟩
    | cons n' args' => exact absurd h (hr.ne_sourceArgs hm.1)
  | n :: args, hn, args', r, s, hm, hr, hs, h => by
    cases args' with
    | nil => exact absurd h.symm (hs.ne_sourceArgs hn.1)
    | cons n' args' =>
      simp only [sourceArgs, List.append_assoc] at h
      obtain ⟨rfl, hrest⟩ := source_append_injective true hn.1 hm.1 (ends_sourceArgs hr.1)
        (ends_sourceArgs hs.1) (List.append_cancel_left h)
      obtain ⟨rfl, hrs⟩ := argsCut_of_worded hn.2 hm.2 hr hs hrest
      exact ⟨rfl, hrs⟩

end

/-- **Worded expressions are told apart by their source.** -/
theorem michelson_injective {n m : Node} (hn : n.IsWorded) (hm : m.IsWorded)
    (h : n.michelson = m.michelson) : n = m := by
  have hclosed : Follows false [] := ⟨ends_nil, nofun⟩
  have hsource : source false n ++ [] = source false m ++ [] := by
    rw [List.append_nil, List.append_nil]
    exact String.ofList_inj.1 h
  exact (source_append_injective false hn hm hclosed hclosed hsource).1

end Micheline.Node
