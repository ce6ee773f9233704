/-
Micheline/Proofs/Json/Text.lean

The text of a document is read back.  A document is written on one line or on many; both are
one way of writing with different white space (`Json.Layout`), which a reader passes over.

What is read back is every document without numbers in which no object has two members of one
name (`Json.IsPlain`), if it does not nest too deeply; a document that does is not read at all
(`Json.parse?_text`).
-/
import Mathlib.Tactic.IntervalCases
import Micheline.Json.Reader
import Micheline.Json.Writer
import Micheline.Proofs.Json.Members

namespace Micheline.Json

/-! ### Characters -/

/-- A control character is read from its code. -/
theorem code?_fourDigits : ∀ n < 32, ∃ a b c d, fourDigits n = [a, b, c, d]
    ∧ code? a b c d = some n := by
  intro n hn
  interval_cases n <;> exact ⟨_, _, _, _, rfl, rfl⟩

/-- A letter behind a backslash, other than the one of a code. -/
theorem chars_letter {c letter : Char} (h : letter? letter = some c) (rest : List Char) :
    chars ('\\' :: letter :: rest) = do
      let (more, rest) ← chars rest
      return (c :: more, rest) := by
  have hu : letter ≠ 'u' := by
    rintro rfl
    cases h
  rw [chars, h]
  · rfl
  · exact fun _ _ _ _ _ h => absurd h hu

/-- A character is read from what stands for it in a text. -/
theorem chars_escape (c : Char) (rest : List Char) :
    chars (escape c ++ rest) = do
      let (more, rest) ← chars rest
      return (c :: more, rest) := by
  unfold escape
  split
  -- the characters with a letter of their own
  iterate 7 exact chars_letter rfl rest
  next hquote hslash _ _ _ _ _ =>
    split
    next hlt =>
      obtain ⟨a, b, d, e, hdigits, hcode⟩ := code?_fourDigits c.toNat hlt
      rw [hdigits]
      show chars ('\\' :: 'u' :: a :: b :: d :: e :: rest) = _
      rw [chars, hcode]
      show (if 0xd800 ≤ c.toNat ∧ c.toNat < 0xdc00 then _
        else if 0xdc00 ≤ c.toNat ∧ c.toNat < 0xe000 then _
        else _) = _
      -- a control character is no surrogate
      rw [if_neg (by omega), if_neg (by omega), Char.ofNat_toNat]
    next hge =>
      show chars (c :: rest) = _
      rw [chars, if_neg hge]
      · exact hquote
      · exact fun _ _ _ _ _ h => absurd h hslash
      · exact fun _ _ h => absurd h hslash

/-- **A text is read back from between its quotes.** -/
theorem chars_flatMap_escape (cs rest : List Char) :
    chars (cs.flatMap escape ++ '"' :: rest) = some (cs, rest) := by
  induction cs with
  | nil => rw [List.flatMap_nil, List.nil_append, chars]
  | cons c cs ih =>
    rw [List.flatMap_cons, List.append_assoc, chars_escape, ih]
    rfl

/-! ### White space -/

/-- A reader passes over the characters. -/
def IsPassed (gap : List Char) : Prop :=
  ∀ rest, skipBlanks (gap ++ rest) = skipBlanks rest

theorem isPassed_nil : IsPassed [] :=
  fun _ => rfl

theorem isPassed_cons {c : Char} {gap : List Char}
    (hc : c = ' ' ∨ c = '\t' ∨ c = '\n' ∨ c = '\r') (h : IsPassed gap) : IsPassed (c :: gap) := by
  intro rest
  rw [List.cons_append, skipBlanks, if_pos hc, h]

theorem isPassed_newLine (level : Nat) : IsPassed (newLine level) := by
  refine isPassed_cons (by decide) ?_
  induction 2 * level with
  | zero => exact isPassed_nil
  | succ n ih => exact isPassed_cons (by decide) ih

/-! ### Items between brackets -/

section Items

variable {α : Type} {item : List Char → Option (α × List Char)} {write : α → List Char}
  {reads : α → Bool} {close : Char} {last : List Char}

/-- Items behind commas, up to and with the closing bracket. -/
def following (write : α → List Char) (last : List Char) (close : Char) (xs : List α) :
    List Char :=
  (xs.flatMap fun x => ',' :: write x) ++ (last ++ [close])

theorem following_nil (rest : List Char) :
    following write last close [] ++ rest = last ++ close :: rest := by
  simp [following]

theorem following_cons (x : α) (xs : List α) (rest : List Char) :
    following write last close (x :: xs) ++ rest
      = ',' :: (write x ++ (following write last close xs ++ rest)) := by
  simp [following]

variable (write close last) in
/-- The text of a list is long enough to be the fuel with which it is read. -/
theorem length_lt_following (xs : List α) : xs.length < (following write last close xs).length := by
  induction xs with
  | nil => simp [following]
  | cons x xs ih =>
    rw [← List.append_nil (following write last close (x :: xs)), following_cons]
    simp only [List.length_cons, List.length_append]
    omega

/-- Behind the last item stands the closing bracket. -/
theorem sequence_last {x : α} {fuel : Nat} {text after rest : List Char}
    (hitem : item text = some (x, after)) (hafter : skipBlanks after = close :: rest)
    (hcomma : close ≠ ',') : sequence item close (fuel + 1) text = some ([x], rest) := by
  simp [sequence, hitem, hafter, hcomma]

/-- Behind any other item stands a comma. -/
theorem sequence_comma {x : α} {fuel : Nat} {text after rest : List Char}
    (hitem : item text = some (x, after)) (hafter : skipBlanks after = ',' :: rest) :
    sequence item close (fuel + 1) text = do
      let (more, rest) ← sequence item close fuel rest
      return (x :: more, rest) := by
  simp [sequence, hitem, hafter]

/-- **Items are read one after another** if each of them is read; otherwise none is. -/
theorem sequence_following {x : α} {xs : List α} {fuel : Nat} (rest : List Char)
    (hcomma : close ≠ ',') (hclose : ∀ rest, skipBlanks (close :: rest) = close :: rest)
    (hlast : IsPassed last) (hfuel : xs.length < fuel)
    (hread : ∀ y ∈ x :: xs, ∀ rest,
      item (write y ++ rest) = if reads y then some (y, rest) else none) :
    sequence item close fuel (write x ++ (following write last close xs ++ rest))
      = if (x :: xs).all reads then some (x :: xs, rest) else none := by
  -- the budget falls by one an item, and there are fewer items than characters
  induction xs generalizing x fuel with
  | nil =>
    obtain ⟨fuel, rfl⟩ := Nat.exists_eq_succ_of_ne_zero (Nat.ne_of_gt hfuel)
    have hx := hread x List.mem_cons_self (following write last close [] ++ rest)
    cases h : reads x with
    | false =>
      rw [h] at hx
      simp [sequence, hx, h]
    | true =>
      rw [h] at hx
      have hafter : skipBlanks (following write last close [] ++ rest) = close :: rest := by
        rw [following_nil, hlast, hclose]
      rw [sequence_last hx hafter hcomma]
      simp [h]
  | cons y ys ih =>
    obtain ⟨fuel, rfl⟩ := Nat.exists_eq_succ_of_ne_zero (Nat.ne_of_gt (Nat.zero_lt_of_lt hfuel))
    have hx := hread x List.mem_cons_self (following write last close (y :: ys) ++ rest)
    have hys := ih (Nat.lt_of_succ_lt_succ hfuel) (List.forall_mem_of_forall_mem_cons hread)
    cases h : reads x with
    | false =>
      rw [h] at hx
      simp [sequence, hx, h]
    | true =>
      rw [h] at hx
      have hafter : skipBlanks (following write last close (y :: ys) ++ rest)
          = ',' :: (write y ++ (following write last close ys ++ rest)) := by
        rw [following_cons]
        rfl
      have hall : (x :: y :: ys).all reads = (y :: ys).all reads := by
        rw [List.all_cons, h, Bool.true_and]
      rw [sequence_comma hx hafter, hys, hall]
      cases (y :: ys).all reads <;> rfl

/-- **Items are read from between brackets.** -/
theorem bracketed_following {x : α} {xs : List α} {c : Char} {cs : List Char} (rest : List Char)
    (hcomma : close ≠ ',') (hclose : ∀ rest, skipBlanks (close :: rest) = close :: rest)
    (hlast : IsPassed last) (hfirst : ∀ rest, skipBlanks (write x ++ rest) = c :: (cs ++ rest))
    (hc : c ≠ close)
    (hread : ∀ y ∈ x :: xs, ∀ rest,
      item (write y ++ rest) = if reads y then some (y, rest) else none) :
    bracketed item close (write x ++ (following write last close xs ++ rest))
      = if (x :: xs).all reads then some (x :: xs, rest) else none := by
  have hfuel : xs.length < (write x ++ (following write last close xs ++ rest)).length := by
    have hlt := length_lt_following write close last xs
    simp only [List.length_append]
    omega
  rw [bracketed, hfirst]
  dsimp only
  rw [if_neg hc]
  exact sequence_following rest hcomma hclose hlast hfuel hread

end Items

/-! ### Layouts -/

/-- How a document is laid out: what stands in front of an item or a closing bracket at a level,
and in front of the value of a member. -/
structure Layout where
  gap : Nat → List Char
  valueGap : List Char
  isPassed_gap : ∀ level, IsPassed (gap level)
  isPassed_valueGap : IsPassed valueGap

/-- One line without blanks. -/
def Layout.line : Layout where
  gap _ := []
  valueGap := []
  isPassed_gap _ := isPassed_nil
  isPassed_valueGap := isPassed_nil

/-- A line for each item. -/
def Layout.lines : Layout where
  gap := newLine
  valueGap := [' ']
  isPassed_gap := isPassed_newLine
  isPassed_valueGap := isPassed_cons (by decide) isPassed_nil

mutual

/-- The characters of a document at a level. -/
def Layout.chars (l : Layout) (level : Nat) : Json → List Char
  | .arr (item :: items) =>
    ['['] ++ l.gap (level + 1) ++ l.chars (level + 1) item ++ l.items level items
  | .obj (member :: members) =>
    ['\x7b'] ++ l.gap (level + 1) ++ quote member.1 ++ (':' :: l.valueGap)
      ++ l.chars (level + 1) member.2 ++ l.members level members
  | .arr [] => ['[', ']']
  | .obj [] => ['\x7b', '\x7d']
  | .null => compactChars .null
  | .bool value => compactChars (.bool value)
  | .num value => compactChars (.num value)
  | .str value => compactChars (.str value)

/-- The items after the first, and the closing bracket. -/
def Layout.items (l : Layout) (level : Nat) : List Json → List Char
  | [] => l.gap level ++ [']']
  | item :: items =>
    [','] ++ l.gap (level + 1) ++ l.chars (level + 1) item ++ l.items level items

/-- The members after the first, and the closing brace. -/
def Layout.members (l : Layout) (level : Nat) : List (String × Json) → List Char
  | [] => l.gap level ++ ['\x7d']
  | (name, value) :: members =>
    [','] ++ l.gap (level + 1) ++ quote name ++ (':' :: l.valueGap) ++ l.chars (level + 1) value
      ++ l.members level members

end

mutual

/-- The compact text is the layout in one line. -/
theorem compactChars_eq (level : Nat) : ∀ json, compactChars json = Layout.line.chars level json
  | .null | .bool _ | .num _ | .str _ => by rw [Layout.chars]
  | .arr [] | .obj [] => by rw [Layout.chars, compactChars]
  | .arr (item :: items) => by
    rw [compactChars, Layout.chars, compactChars_eq (level + 1), compactItems_eq level]
    rfl
  | .obj (member :: members) => by
    rw [compactChars, Layout.chars, compactChars_eq (level + 1), compactMembers_eq level]
    rfl

theorem compactItems_eq (level : Nat) : ∀ items, compactItems items = Layout.line.items level items
  | [] => rfl
  | item :: items => by
    rw [compactItems, Layout.items, compactChars_eq (level + 1), compactItems_eq level]
    rfl

theorem compactMembers_eq (level : Nat) :
    ∀ members, compactMembers members = Layout.line.members level members
  | [] => rfl
  | (name, value) :: members => by
    rw [compactMembers, Layout.members, compactChars_eq (level + 1), compactMembers_eq level]
    rfl

end

mutual

/-- The indented text is the layout in lines. -/
theorem prettyChars_eq (level : Nat) :
    ∀ json, prettyChars level json = Layout.lines.chars level json
  | .null | .bool _ | .num _ | .str _ | .arr [] | .obj [] => by rw [prettyChars, Layout.chars]
  | .arr (item :: items) => by
    rw [prettyChars, Layout.chars, prettyChars_eq (level + 1), prettyItems_eq level]
    rfl
  | .obj (member :: members) => by
    rw [prettyChars, Layout.chars, prettyChars_eq (level + 1), prettyMembers_eq level]
    rfl

theorem prettyItems_eq (level : Nat) :
    ∀ items, prettyItems level items = Layout.lines.items level items
  | [] => rfl
  | item :: items => by
    rw [prettyItems, Layout.items, prettyChars_eq (level + 1), prettyItems_eq level]
    rfl

theorem prettyMembers_eq (level : Nat) :
    ∀ members, prettyMembers level members = Layout.lines.members level members
  | [] => rfl
  | (name, value) :: members => by
    rw [prettyMembers, Layout.members, prettyChars_eq (level + 1), prettyMembers_eq level]
    rfl

end

/-! ### Documents that are read back -/

/-- A document without numbers, in which the members of an object have different names. -/
inductive IsPlain : Json → Prop
  | null : IsPlain .null
  | bool (value : Bool) : IsPlain (.bool value)
  | str (value : String) : IsPlain (.str value)
  | arr {items : List Json} (h : ∀ item ∈ items, IsPlain item) : IsPlain (.arr items)
  | obj {members : List (String × Json)} (hnames : (members.map (·.1)).Nodup)
    (h : ∀ m ∈ members, IsPlain m.2) : IsPlain (.obj members)

mutual

/-- How many lists and objects nest in a document. -/
def nesting : Json → Nat
  | .arr items => nestingItems items + 1
  | .obj members => nestingMembers members + 1
  | _ => 0

/-- How many lists and objects nest in one of some documents. -/
def nestingItems : List Json → Nat
  | [] => 0
  | item :: items => max (nesting item) (nestingItems items)

/-- How many lists and objects nest in the value of one of some members. -/
def nestingMembers : List (String × Json) → Nat
  | [] => 0
  | (_, value) :: members => max (nesting value) (nestingMembers members)

end

/-- A list is nested within the budget if its items are. -/
theorem nestingItems_lt_iff {budget : Nat} (items : List Json) :
    nestingItems items < budget + 1 ↔ items.all (fun item => item.nesting < budget + 1) = true := by
  induction items with
  | nil => simp [nestingItems]
  | cons item items ih =>
    simp only [nestingItems, List.all_cons, Bool.and_eq_true, decide_eq_true_eq, ← ih, Nat.max_lt]

theorem nestingMembers_lt_iff {budget : Nat} (members : List (String × Json)) :
    nestingMembers members < budget + 1
      ↔ members.all (fun m => m.2.nesting < budget + 1) = true := by
  induction members with
  | nil => simp [nestingMembers]
  | cons m members ih =>
    simp only [nestingMembers, List.all_cons, Bool.and_eq_true, decide_eq_true_eq, ← ih, Nat.max_lt]

namespace Layout

variable (l : Layout) (level : Nat)

/-- An item with what stands in front of it. -/
def item (json : Json) : List Char :=
  l.gap (level + 1) ++ l.chars (level + 1) json

/-- A member with what stands in front of it. -/
def member (m : String × Json) : List Char :=
  l.gap (level + 1) ++ (quote m.1 ++ ':' :: (l.valueGap ++ l.chars (level + 1) m.2))

theorem items_eq (items : List Json) :
    l.items level items = following (l.item level) (l.gap level) ']' items := by
  induction items with
  | nil => rfl
  | cons item items ih =>
    rw [Layout.items, ih]
    simp [following, Layout.item]

theorem members_eq (members : List (String × Json)) :
    l.members level members = following (l.member level) (l.gap level) '\x7d' members := by
  induction members with
  | nil => rfl
  | cons m members ih =>
    rw [Layout.members, ih]
    simp [following, Layout.member]

theorem chars_arr (item : Json) (items : List Json) :
    l.chars level (.arr (item :: items))
      = '[' :: (l.item level item ++ following (l.item level) (l.gap level) ']' items) := by
  rw [Layout.chars, items_eq]
  simp [Layout.item]

theorem chars_obj (m : String × Json) (members : List (String × Json)) :
    l.chars level (.obj (m :: members))
      = '\x7b' :: (l.member level m
        ++ following (l.member level) (l.gap level) '\x7d' members) := by
  rw [Layout.chars, members_eq]
  simp [Layout.member]

/-- The first character of a document. -/
theorem exists_chars_cons {json : Json} (h : json.IsPlain) :
    ∃ c cs, l.chars level json = c :: cs ∧ (∀ rest, skipBlanks (c :: rest) = c :: rest)
      ∧ c ≠ ']' := by
  cases h with
  | null => exact ⟨_, _, by rw [Layout.chars, compactChars], fun _ => rfl, by decide⟩
  | bool value =>
    cases value <;> exact ⟨_, _, by rw [Layout.chars, compactChars], fun _ => rfl, by decide⟩
  | str value => exact ⟨'"', _, by rw [Layout.chars, compactChars]; rfl, fun _ => rfl, by decide⟩
  | @arr items _ =>
    cases items with
    | nil => exact ⟨_, _, by rw [Layout.chars], fun _ => rfl, by decide⟩
    | cons item items => exact ⟨_, _, l.chars_arr level item items, fun _ => rfl, by decide⟩
  | @obj members _ _ =>
    cases members with
    | nil => exact ⟨_, _, by rw [Layout.chars], fun _ => rfl, by decide⟩
    | cons m members => exact ⟨_, _, l.chars_obj level m members, fun _ => rfl, by decide⟩

end Layout

/-- A text in quotes is read. -/
theorem member_quote {read : List Char → Option (Json × List Char)} {gap : List Char}
    (hgap : IsPassed gap) (name : String) (text : List Char) :
    member read (gap ++ (quote name ++ ':' :: text)) = do
      let (value, rest) ← read text
      return ((name, value), rest) := by
  have hskip : skipBlanks (gap ++ (quote name ++ ':' :: text))
      = '"' :: (name.toList.flatMap escape ++ '"' :: ':' :: text) := by
    rw [hgap, quote]
    simp [skipBlanks]
  rw [member, hskip]
  show (chars (name.toList.flatMap escape ++ '"' :: ':' :: text) >>= _) = _
  rw [chars_flatMap_escape]
  show (do
    let (value, rest) ← read text
    return ((String.ofList name.toList, value), rest)) = _
  rw [String.ofList_toList]

/-! ### Reading back -/

section Document

variable {budget : Nat} {text after : List Char}

/-- A text is read up to the quotation mark that ends it. -/
theorem document_str (cs : List Char)
    (h : skipBlanks text = '"' :: (cs.flatMap escape ++ '"' :: after)) :
    document (budget + 1) text = some (.str (String.ofList cs), after) := by
  rw [document, h]
  show (chars (cs.flatMap escape ++ '"' :: after) >>= _) = _
  rw [chars_flatMap_escape]
  rfl

/-- An opening bracket starts a list, one level deeper. -/
theorem document_arr (h : skipBlanks text = '[' :: after) :
    document (budget + 2) text = do
      let (items, rest) ← bracketed (document (budget + 1)) ']' after
      return (.arr items, rest) := by
  rw [document, h]
  rfl

/-- An opening brace starts an object, one level deeper. -/
theorem document_obj (h : skipBlanks text = '\x7b' :: after) :
    document (budget + 2) text = do
      let (members, rest) ← bracketed (member (document (budget + 1))) '\x7d' after
      return (.obj (Members.ofList members), rest) := by
  rw [document, h]
  rfl

/-- A bracket is not read where nothing may nest. -/
theorem document_one (h : skipBlanks text = '[' :: after ∨ skipBlanks text = '\x7b' :: after) :
    document 1 text = none := by
  rw [document]
  rcases h with h | h <;> rw [h] <;> rfl

end Document

/-- A document is read back if fewer than `budget` lists and objects nest in it; otherwise none
is. -/
def IsReadBack (l : Layout) (json : Json) : Prop :=
  ∀ {gap : List Char}, IsPassed gap → ∀ (budget level : Nat) (rest : List Char),
    document budget (gap ++ (l.chars level json ++ rest))
      = if json.nesting < budget then some (json, rest) else none

section Nested

variable {l : Layout} {json : Json} {items : List Json} {m : String × Json}
  {members : List (String × Json)}

/-- The items of a list are read back if each is, within the budget. -/
theorem bracketed_items (h : ∀ x ∈ json :: items, x.IsPlain)
    (hread : ∀ x ∈ json :: items, IsReadBack l x) (budget level : Nat) (rest : List Char) :
    bracketed (document (budget + 1)) ']'
        (l.item level json ++ (following (l.item level) (l.gap level) ']' items ++ rest))
      = if nestingItems (json :: items) < budget + 1 then some (json :: items, rest) else none := by
  obtain ⟨c, cs, hc, hskip, hne⟩ := l.exists_chars_cons (level + 1) (h json List.mem_cons_self)
  have hfirst (rest : List Char) :
      skipBlanks (l.item level json ++ rest) = c :: (cs ++ rest) := by
    rw [Layout.item, List.append_assoc, l.isPassed_gap, hc]
    exact hskip _
  have hitem : ∀ x ∈ json :: items, ∀ rest, document (budget + 1) (l.item level x ++ rest)
      = if decide (x.nesting < budget + 1) then some (x, rest) else none := by
    intro x hx rest
    rw [Layout.item, List.append_assoc, hread x hx (l.isPassed_gap _)]
    simp
  rw [bracketed_following rest (by decide) (fun _ => rfl) (l.isPassed_gap level) hfirst hne hitem]
  exact if_congr (nestingItems_lt_iff _).symm rfl rfl

/-- The members of an object are read back if their values are, within the budget. -/
theorem bracketed_members (hread : ∀ x ∈ m :: members, IsReadBack l x.2) (budget level : Nat)
    (rest : List Char) :
    bracketed (member (document (budget + 1))) '\x7d'
        (l.member level m ++ (following (l.member level) (l.gap level) '\x7d' members ++ rest))
      = if nestingMembers (m :: members) < budget + 1 then some (m :: members, rest) else none := by
  -- After the blanks comes a quote, which is not the closing brace.
  have hfirst (rest : List Char) : skipBlanks (l.member level m ++ rest)
      = '"' :: (m.1.toList.flatMap escape ++ '"' :: ':' :: (l.valueGap ++ l.chars (level + 1) m.2)
        ++ rest) := by
    rw [Layout.member, List.append_assoc, l.isPassed_gap, quote]
    simp [skipBlanks]
  have hitem : ∀ x ∈ m :: members, ∀ rest,
      member (document (budget + 1)) (l.member level x ++ rest)
        = if decide (x.2.nesting < budget + 1) then some (x, rest) else none := by
    intro x hx rest
    have htext : l.member level x ++ rest = l.gap (level + 1)
        ++ (quote x.1 ++ ':' :: (l.valueGap ++ (l.chars (level + 1) x.2 ++ rest))) := by
      simp [Layout.member]
    rw [htext, member_quote (l.isPassed_gap _), hread x hx l.isPassed_valueGap]
    by_cases hlt : x.2.nesting < budget + 1 <;> simp [hlt]
  rw [bracketed_following rest (by decide) (fun _ => rfl) (l.isPassed_gap level) hfirst
    (by decide) hitem]
  exact if_congr (nestingMembers_lt_iff _).symm rfl rfl

end Nested

/-- What has nothing inside is read back within any budget. -/
theorem isReadBack_of_nesting_eq_zero {l : Layout} {json : Json} (hnesting : json.nesting = 0)
    (h : ∀ {gap : List Char}, IsPassed gap → ∀ (budget level : Nat) (rest : List Char),
      document (budget + 1) (gap ++ (l.chars level json ++ rest)) = some (json, rest)) :
    IsReadBack l json := by
  intro gap hgap budget level rest
  cases budget with
  | zero => rfl
  | succ budget => rw [h hgap, hnesting, if_pos (Nat.succ_pos budget)]

/-- **A document is read back**, however it is laid out. -/
theorem isReadBack_of_isPlain (l : Layout) {json : Json} (h : json.IsPlain) :
    IsReadBack l json := by
  induction h with
  | null =>
    refine isReadBack_of_nesting_eq_zero rfl fun hgap budget level rest => ?_
    rw [document, hgap]
    rfl
  | bool value =>
    refine isReadBack_of_nesting_eq_zero rfl fun hgap budget level rest => ?_
    rw [document, hgap]
    cases value <;> rfl
  | str value =>
    refine isReadBack_of_nesting_eq_zero rfl fun {gap} hgap budget level rest => ?_
    have hskip : skipBlanks (gap ++ (l.chars level (.str value) ++ rest))
        = '"' :: (value.toList.flatMap escape ++ '"' :: rest) := by
      rw [hgap, Layout.chars, compactChars, quote]
      simp [skipBlanks]
    rw [document_str _ hskip, String.ofList_toList]
  | @arr items hitems ih =>
    intro gap hgap budget level rest
    -- a bracket takes one level of the budget, and what is inside needs at least one more
    have hopen (after : List Char) : skipBlanks (gap ++ '[' :: after) = '[' :: after := hgap _
    match budget, items with
    | 0, _ => exact (if_neg (Nat.not_lt_zero _)).symm
    | 1, [] => exact document_one (.inl (hopen _))
    | 1, item :: items =>
      rw [Layout.chars_arr]
      exact document_one (.inl (hopen _))
    | budget + 2, [] => exact document_arr (hopen _)
    | budget + 2, item :: items =>
      rw [Layout.chars_arr, List.cons_append, document_arr (hopen _), List.append_assoc,
        bracketed_items hitems ih]
      by_cases hlt : nestingItems (item :: items) < budget + 1
      · rw [if_pos hlt, if_pos (by simpa [nesting] using hlt)]
        rfl
      · rw [if_neg hlt, if_neg (by simpa [nesting] using hlt)]
        rfl
  | @obj members hnames hmembers ih =>
    intro gap hgap budget level rest
    have hopen (after : List Char) : skipBlanks (gap ++ '\x7b' :: after) = '\x7b' :: after := hgap _
    match budget, members with
    | 0, _ => exact (if_neg (Nat.not_lt_zero _)).symm
    | 1, [] => exact document_one (.inr (hopen _))
    | 1, m :: members =>
      rw [Layout.chars_obj]
      exact document_one (.inr (hopen _))
    | budget + 2, [] => exact document_obj (hopen _)
    | budget + 2, m :: members =>
      rw [Layout.chars_obj, List.cons_append, document_obj (hopen _), List.append_assoc,
        bracketed_members ih]
      by_cases hlt : nestingMembers (m :: members) < budget + 1
      · rw [if_pos hlt, if_pos (by simpa [nesting] using hlt)]
        show some (Json.obj (Members.ofList (m :: members)), rest) = _
        rw [Members.ofList_of_nodup hnames]
      · rw [if_neg hlt, if_neg (by simpa [nesting] using hlt)]
        rfl

/-- **The text of a document is read back**, on one line or on many and with white space behind
it, if it does not nest too deeply; otherwise it is no document. -/
theorem parse?_text {json : Json} (h : json.IsPlain) {text tail : String}
    (htext : text = json.compact ∨ text = json.pretty) (htail : IsPassed tail.toList) :
    parse? (text ++ tail) = if json.nesting ≤ maxNesting then some json else none := by
  obtain ⟨l, hl⟩ : ∃ l : Layout, text.toList = l.chars 0 json := by
    rcases htext with rfl | rfl
    · exact ⟨.line, by rw [compact, String.toList_ofList, compactChars_eq 0]⟩
    · exact ⟨.lines, by rw [pretty, String.toList_ofList, prettyChars_eq]⟩
  -- The budget of the reader is one above the deepest nesting that is let through.
  have hread : document (maxNesting + 1) (text ++ tail).toList
      = if json.nesting < maxNesting + 1 then some (json, tail.toList) else none := by
    rw [String.toList_append, hl]
    exact isReadBack_of_isPlain l h isPassed_nil _ 0 _
  have hempty : skipBlanks tail.toList = [] := by
    simpa [skipBlanks] using htail []
  rw [parse?, parseNested?, hread]
  by_cases hle : json.nesting ≤ maxNesting
  · rw [if_pos hle, if_pos (Nat.lt_succ_of_le hle)]
    show (do
      guard (skipBlanks tail.toList).isEmpty
      return json) = some json
    rw [hempty]
    rfl
  · rw [if_neg hle, if_neg fun hlt => hle (Nat.le_of_lt_succ hlt)]
    rfl

end Micheline.Json
