/-
Micheline/Proofs/Ty/Reading.lean

Which expressions write which types, as a relation.  Besides the type, `Ty.WritesType` tells which
numbers it takes.  It has one rule for each way of writing a type, by the number of its parts.

Two rules speak of expressions that nobody wrote: the others of a pair of more than two write a
pair of their own, and the second type of a ticket is written by an expression with the content in
it (`Ty.ticketPair`).  So nothing else needs to be said of these.

The relation is what the reader does (`Ty.ofNodes_eq_ok_iff`).
-/
import Micheline.Proofs.Except
import Micheline.Proofs.Node.Spacing
import Micheline.Proofs.Ty.Written
import Micheline.Ty.Typing

namespace Micheline

namespace Prim

/-- A name in lower case. -/
def lower (name : String) : String :=
  String.ofList (name.toList.map lowerChar)

theorem lower_ofList {cs : List Char} (h : cs.map lowerChar = cs) :
    lower (String.ofList cs) = String.ofList cs := by
  rw [lower, String.toList_ofList, h]

theorem lower_name (p : Prim) : lower p.name = p.name := by
  -- a literal unfolds to its characters; to decide the statement would decode its bytes
  cases p with
  | scalar kind => cases kind <;> exact lower_ofList rfl
  | _ => exact lower_ofList rfl

theorem lower_eq_of_ofAnyCase? {name : String} {p : Prim} (h : ofAnyCase? name = some p) :
    lower name = p.name := by
  have hfound := List.find?_some (show all.find? (fun p => p.name == lower name) = some p from h)
  exact (eq_of_beq hfound).symm

theorem ofAnyCase?_name (p : Prim) : ofAnyCase? p.name = some p := by
  show ofName? (lower p.name) = some p
  rw [lower_name, ofName?_name]

end Prim

namespace Ty

/-- The expression that the second type of a ticket is written as: the issuing contract, the
content and the amount. -/
def ticketPair (content : Node) : Node :=
  .app "pair" [.prim "address" [] ["%ticketer"],
    .app "pair" [content, .prim "nat" [] ["%amount"]]]

/-- An expression writes a type at a depth.  The first number is the one that the type takes, the
second one the next that is left. -/
inductive WritesType : Nat → Node → Nat → Ty → Nat → Prop
  /-- A type without parts, written with its literals. -/
  | leaf {d s : Nat} {name : String} {args : List Node} {annots : List String} {ty : Ty}
    (hname : Prim.ofAnyCase? name = some ty.prim) (hinfo : ty.info = ⟨s, d, Annot.valid annots⟩)
    (hchildren : ty.children = []) (hargs : args = ty.operands.map Literal.node) :
    WritesType d (.prim name args annots) s ty (s + 1)
  /-- A type with one part. -/
  | one {d s s' : Nat} {name : String} {annots : List String} {n : Node} {ty t : Ty}
    (hname : Prim.ofAnyCase? name = some ty.prim) (hinfo : ty.info = ⟨s, d, Annot.valid annots⟩)
    (hchildren : ty.children = [t]) (hticket : ty.prim ≠ .ticket)
    (h : WritesType (d + 1) n (s + 1) t s') :
    WritesType d (.prim name [n] annots) s ty s'
  /-- A type with two parts. -/
  | two {d s s₁ s' : Nat} {name : String} {annots : List String} {n m : Node} {ty a b : Ty}
    (hname : Prim.ofAnyCase? name = some ty.prim) (hinfo : ty.info = ⟨s, d, Annot.valid annots⟩)
    (hchildren : ty.children = [a, b]) (ha : WritesType (d + 1) n (s + 1) a s₁)
    (hb : WritesType (d + 1) m s₁ b s') :
    WritesType d (.prim name [n, m] annots) s ty s'
  /-- A pair of more than two: the others are a pair of their own. -/
  | comb {d s s₁ s' : Nat} {name : String} {annots : List String} {n : Node} {rest : List Node}
    {a b : Ty} (hname : Prim.ofAnyCase? name = some .pair) (hrest : 2 ≤ rest.length)
    (ha : WritesType (d + 1) n (s + 1) a s₁) (hb : WritesType (d + 1) (.app "pair" rest) s₁ b s') :
    WritesType d (.prim name (n :: rest) annots) s (.pair ⟨s, d, Annot.valid annots⟩ a b) s'
  /-- A ticket: the content comes first, then the pair in which it stands again. -/
  | ticket {d s s₁ s' : Nat} {name : String} {annots : List String} {n : Node} {content paired : Ty}
    (hname : Prim.ofAnyCase? name = some .ticket)
    (hcontent : WritesType (d + 1) n (s + 1) content s₁)
    (hpaired : WritesType (d + 1) (ticketPair n) s₁ paired s') :
    WritesType d (.prim name [n] annots) s (.ticket ⟨s, d, Annot.valid annots⟩ content paired) s'

/-- What the pair of a ticket writes, if the content writes a type. -/
theorem writes_ticketPair {d s s' : Nat} {n : Node} {t : Ty}
    (h : WritesType (d + 2) n (s + 3) t s') :
    WritesType d (ticketPair n) s (.pair ⟨s, d, []⟩ (.scalar ⟨s + 1, d + 1, ["%ticketer"]⟩ .address)
      (.pair ⟨s + 2, d + 1, []⟩ t (.scalar ⟨s', d + 2, ["%amount"]⟩ .nat))) (s' + 1) := by
  have hpair : Prim.ofAnyCase? "pair" = some .pair := Prim.ofAnyCase?_name .pair
  have hticketer : Annot.valid ["%ticketer"] = ["%ticketer"] := by decide
  have hamount : Annot.valid ["%amount"] = ["%amount"] := by decide
  refine .two hpair rfl rfl (.leaf (Prim.ofAnyCase?_name (.scalar .address)) ?_ rfl rfl)
    (.two hpair rfl rfl h (.leaf (Prim.ofAnyCase?_name (.scalar .nat)) ?_ rfl rfl))
  · rw [hticketer]
    rfl
  · rw [hamount]
    rfl

/-! ### Steps -/

section Steps

variable {α β : Type} {s s' : Nat} {a : α}

theorem bind_eq_ok_run_iff {x : Numbered β} {f : β → Numbered α} :
    (x >>= f) s = .ok (a, s') ↔ ∃ b s₁, x s = .ok (b, s₁) ∧ f b s₁ = .ok (a, s') :=
  bind_eq_ok_iff.trans Prod.exists

theorem pure_eq_ok_run_iff {b : α} : (pure b : Numbered α) s = .ok (a, s') ↔ a = b ∧ s' = s := by
  constructor
  · intro h
    cases h
    exact ⟨rfl, rfl⟩
  · rintro ⟨rfl, rfl⟩
    rfl

theorem fresh_eq_ok_iff {d : Nat} {annots : List String} {i : Info} :
    fresh d annots s = .ok (i, s') ↔ i = ⟨s, d, annots⟩ ∧ s' = s + 1 := by
  constructor
  · intro h
    cases h
    exact ⟨rfl, rfl⟩
  · rintro ⟨rfl, rfl⟩
    rfl

/-- A step that is taken only under a condition. -/
theorem unless_eq_ok_iff {c : Prop} [Decidable c] {e : Error} {x : Numbered α} :
    (if c then throw e >>= fun _ : PUnit => x else x) s = .ok (a, s')
      ↔ ¬ c ∧ x s = .ok (a, s') := by
  split
  next hc =>
    rw [bind_eq_ok_run_iff]
    refine iff_of_false ?_ fun h => h.1 hc
    rintro ⟨b, s₁, h, -⟩
    cases h
  next hc => exact (and_iff_right hc).symm

end Steps

/-! ### One step of the reader -/

/-- The types with one part that is written, the ticket aside. -/
def single? : Prim → Option (Info → Ty → Ty)
  | .contract => some .contract
  | .option => some .option
  | .list => some .list
  | .set => some .set
  | _ => none

/-- The types with two parts. -/
def double? : Prim → Option (Info → Ty → Ty → Ty)
  | .pair => some .pair
  | .or => some .or
  | .map => some .map
  | .bigMap => some .bigMap
  | .lambda => some .lambda
  | _ => none

/-- The types that are written with a number. -/
def sized? : Prim → Option (Info → Int → Ty)
  | .saplingState => some .saplingState
  | .saplingTransaction => some fun i => .saplingTransaction i false
  | .saplingTransactionDeprecated => some fun i => .saplingTransaction i true
  | _ => none

section Forms

variable {d s : Nat} {name : String} {args : List Node} {annots : List String} {prim : Prim}
  {n m : Node}

/-- A type is read only of a known name with a number of arguments that it accepts. -/
theorem accepts_of_ofNodeAt {r : Ty × Nat} (h : ofNodeAt d (.prim name args annots) s = .ok r) :
    ∃ prim, Prim.ofAnyCase? name = some prim ∧ prim.arity.accepts args.length = true := by
  rw [ofNodeAt] at h
  rcases hname : Prim.ofAnyCase? name with - | prim
  · rw [hname] at h
    cases h
  · rw [hname] at h
    have harity := (unless_eq_ok_iff.1 h).1
    exact ⟨prim, rfl, by simpa using harity⟩

theorem ofNodeAt_leaf {ty : Ty} (hname : Prim.ofAnyCase? name = some ty.prim)
    (hinfo : ty.info = ⟨s, d, Annot.valid annots⟩) (hchildren : ty.children = []) :
    ofNodeAt d (.prim name (ty.operands.map Literal.node) annots) s = .ok (ty, s + 1) := by
  rw [ofNodeAt, hname]
  cases ty
  case saplingTransaction i deprecated memo =>
    cases hinfo
    cases deprecated <;> rfl
  case unit | never | operation | bool | scalar | saplingState | constant =>
    cases hinfo
    rfl
  all_goals cases hchildren

/-- What a step makes of the result of another one. -/
theorem bind_return_eq_ok_iff {α β : Type} {x : Numbered β} {f : β → α} {a : α} {s' : Nat} :
    (do return f (← x) : Numbered α) s = .ok (a, s') ↔ ∃ b, x s = .ok (b, s') ∧ a = f b := by
  rw [bind_eq_ok_run_iff]
  constructor
  · rintro ⟨b, s₁, hb, h⟩
    obtain ⟨rfl, rfl⟩ := pure_eq_ok_run_iff.1 h
    exact ⟨b, hb, rfl⟩
  · rintro ⟨b, hb, rfl⟩
    exact ⟨b, s', hb, rfl⟩

/-- The same for two steps. -/
theorem bind_bind_return_eq_ok_iff {α β γ : Type} {x : Numbered β} {y : Numbered γ}
    {f : β → γ → α} {a : α} {s' : Nat} :
    (do
      let b ← x
      return f b (← y) : Numbered α) s = .ok (a, s')
      ↔ ∃ b s₁ c, x s = .ok (b, s₁) ∧ y s₁ = .ok (c, s') ∧ a = f b c := by
  rw [bind_eq_ok_run_iff]
  refine exists_congr fun b => exists_congr fun s₁ => ?_
  rw [bind_return_eq_ok_iff, exists_and_left]

/-- Types with one child are read alike. -/
theorem ofNodeAt_single_eq_ok_iff {make : Info → Ty → Ty}
    (hname : Prim.ofAnyCase? name = some prim) (hmake : single? prim = some make) {ty : Ty}
    {s' : Nat} : ofNodeAt d (.prim name [n] annots) s = .ok (ty, s')
      ↔ ∃ t, ofNodeAt (d + 1) n (s + 1) = .ok (t, s')
        ∧ ty = make ⟨s, d, Annot.valid annots⟩ t := by
  rw [ofNodeAt, hname]
  cases prim <;> cases hmake <;> exact bind_return_eq_ok_iff

/-- Types with two children are read alike: the second is numbered from where the first ends. -/
theorem ofNodeAt_double_eq_ok_iff {make : Info → Ty → Ty → Ty}
    (hname : Prim.ofAnyCase? name = some prim) (hmake : double? prim = some make) {ty : Ty}
    {s' : Nat} : ofNodeAt d (.prim name [n, m] annots) s = .ok (ty, s')
      ↔ ∃ a s₁ b, ofNodeAt (d + 1) n (s + 1) = .ok (a, s₁) ∧ ofNodeAt (d + 1) m s₁ = .ok (b, s')
        ∧ ty = make ⟨s, d, Annot.valid annots⟩ a b := by
  rw [ofNodeAt, hname]
  cases prim <;> cases hmake <;> exact bind_bind_return_eq_ok_iff

theorem ofNodeAt_pair (hname : Prim.ofAnyCase? name = some .pair) (hargs : 2 ≤ args.length) :
    ofNodeAt d (.prim name args annots) s = pairOf ⟨s, d, Annot.valid annots⟩ args (s + 1) := by
  have harity : Prim.pair.arity.accepts args.length = true := decide_eq_true hargs
  rw [ofNodeAt, hname]
  dsimp only
  rw [harity]
  rfl

/-- A pair of more than two is the pair of the first one and of the pair of the others. -/
theorem ofNodeAt_comb_eq_ok_iff {rest : List Node} (hname : Prim.ofAnyCase? name = some .pair)
    (hrest : 2 ≤ rest.length) {ty : Ty} {s' : Nat} :
    ofNodeAt d (.prim name (n :: rest) annots) s = .ok (ty, s')
      ↔ ∃ a s₁ b, ofNodeAt (d + 1) n (s + 1) = .ok (a, s₁)
        ∧ ofNodeAt (d + 1) (.app "pair" rest) s₁ = .ok (b, s')
        ∧ ty = .pair ⟨s, d, Annot.valid annots⟩ a b := by
  have hinner (s₁ : Nat) : ofNodeAt (d + 1) (.app "pair" rest) s₁
      = pairOf ⟨s₁, d + 1, []⟩ rest (s₁ + 1) :=
    ofNodeAt_pair (Prim.ofAnyCase?_name .pair) hrest
  have hargs : 2 ≤ (n :: rest).length := Nat.le_succ_of_le hrest
  rw [ofNodeAt_pair hname hargs, pairOf, bind_eq_ok_run_iff]
  · refine exists_congr fun a => exists_congr fun s₁ => ?_
    show _ ∧ (do return Ty.pair ⟨s, d, Annot.valid annots⟩ a (← pairOf ⟨s₁, d + 1, []⟩ rest)
      : Numbered Ty) (s₁ + 1) = _ ↔ _
    rw [bind_return_eq_ok_iff, exists_and_left, hinner]
  · rintro m rfl
    simp at hrest

/-- The second type of a ticket. -/
theorem ofNodeAt_ticketPair_eq_ok_iff {ty : Ty} {s' : Nat} :
    ofNodeAt d (ticketPair n) s = .ok (ty, s')
      ↔ ∃ again s₁, ofNodeAt (d + 2) n (s + 3) = .ok (again, s₁)
        ∧ ty = .pair ⟨s, d, []⟩ (.scalar ⟨s + 1, d + 1, ["%ticketer"]⟩ .address)
          (.pair ⟨s + 2, d + 1, []⟩ again (.scalar ⟨s₁, d + 2, ["%amount"]⟩ .nat))
        ∧ s' = s₁ + 1 := by
  have hpair : Prim.ofAnyCase? "pair" = some .pair := Prim.ofAnyCase?_name .pair
  -- The ticketer and the amount are read as any annotated type is: they have ids of their own.
  have hscalar (kind : Scalar) (d s : Nat) {annot : String}
      (hvalid : Annot.valid [annot] = [annot]) :
      ofNodeAt d (.prim kind.name [] [annot]) s = .ok (.scalar ⟨s, d, [annot]⟩ kind, s + 1) := by
    have hname : Prim.ofAnyCase? kind.name = some (Ty.scalar ⟨s, d, [annot]⟩ kind).prim :=
      Prim.ofAnyCase?_name (.scalar kind)
    exact ofNodeAt_leaf hname (by rw [hvalid]; rfl) rfl
  have hticketer : ofNodeAt (d + 1) (.prim "address" [] ["%ticketer"]) (s + 1) = _ :=
    hscalar .address (d + 1) (s + 1) (by decide)
  have hamount (s₁ : Nat) : ofNodeAt (d + 2) (.prim "nat" [] ["%amount"]) s₁ = _ :=
    hscalar .nat (d + 2) s₁ (by decide)
  rw [ticketPair, Node.app, ofNodeAt_double_eq_ok_iff hpair rfl, hticketer]
  simp only [Node.app, ofNodeAt_double_eq_ok_iff hpair rfl, hamount]
  constructor
  · rintro ⟨a, s₁, b, ha, ⟨again, s₂, amount, hagain, hamount, rfl⟩, rfl⟩
    cases ha
    cases hamount
    exact ⟨again, s₂, hagain, rfl, rfl⟩
  · rintro ⟨again, s₁, hagain, rfl, rfl⟩
    exact ⟨_, _, _, rfl, ⟨again, s₁, _, hagain, rfl, rfl⟩, rfl⟩

/-- A ticket is its content and the pair in which that is read again. -/
theorem ofNodeAt_ticket_eq_ok_iff (hname : Prim.ofAnyCase? name = some .ticket) {ty : Ty}
    {s' : Nat} : ofNodeAt d (.prim name [n] annots) s = .ok (ty, s')
      ↔ ∃ content s₁ paired, ofNodeAt (d + 1) n (s + 1) = .ok (content, s₁)
        ∧ ofNodeAt (d + 1) (ticketPair n) s₁ = .ok (paired, s')
        ∧ ty = .ticket ⟨s, d, Annot.valid annots⟩ content paired := by
  rw [ofNodeAt, hname]
  -- The reader numbers the pair of a ticket by hand; that is the same as reading `ticketPair`.
  show (do
    let content ← ofNodeAt (d + 1) n
    let outer ← fresh (d + 1) []
    let ticketer ← fresh (d + 2) ["%ticketer"]
    let inner ← fresh (d + 2) []
    let again ← ofNodeAt (d + 3) n
    let amount ← fresh (d + 3) ["%amount"]
    return .ticket ⟨s, d, Annot.valid annots⟩ content
      (.pair outer (.scalar ticketer .address) (.pair inner again (.scalar amount .nat)))
    : Numbered Ty) (s + 1) = _ ↔ _
  simp only [bind_eq_ok_run_iff, fresh_eq_ok_iff, pure_eq_ok_run_iff,
    ofNodeAt_ticketPair_eq_ok_iff]
  constructor
  · rintro ⟨content, s₁, hcontent, _, _, ⟨rfl, rfl⟩, _, _, ⟨rfl, rfl⟩, _, _, ⟨rfl, rfl⟩, again, s₂,
      hagain, _, _, ⟨rfl, rfl⟩, rfl, rfl⟩
    exact ⟨content, s₁, _, hcontent, ⟨again, s₂, hagain, rfl, rfl⟩, rfl⟩
  · rintro ⟨content, s₁, _, hcontent, ⟨again, s₂, hagain, rfl, rfl⟩, rfl⟩
    exact ⟨content, s₁, hcontent, _, _, ⟨rfl, rfl⟩, _, _, ⟨rfl, rfl⟩, _, _, ⟨rfl, rfl⟩, again, s₂,
      hagain, _, _, ⟨rfl, rfl⟩, rfl, rfl⟩

/-- Types with a memo size are read of a number. -/
theorem exists_of_ofNodeAt_sized {make : Info → Int → Ty}
    (hname : Prim.ofAnyCase? name = some prim) (hmake : sized? prim = some make) {ty : Ty}
    {s' : Nat} (h : ofNodeAt d (.prim name [n] annots) s = .ok (ty, s')) :
    ∃ memo, n = .int memo ∧ ty = make ⟨s, d, Annot.valid annots⟩ memo ∧ s' = s + 1 := by
  have hmemo : (do return make ⟨s, d, Annot.valid annots⟩ (← memoSize n) : Numbered Ty) (s + 1)
      = .ok (ty, s') := by
    rw [← h, ofNodeAt, hname]
    cases prim <;> cases hmake <;> rfl
  cases n with
  | int memo =>
    cases hmemo
    exact ⟨memo, rfl, rfl, rfl⟩
  | _ => cases hmemo

/-- A constant is read of its hash. -/
theorem exists_of_ofNodeAt_constant (hname : Prim.ofAnyCase? name = some .constant) {ty : Ty}
    {s' : Nat} (h : ofNodeAt d (.prim name [n] annots) s = .ok (ty, s')) :
    ∃ hash, n = .string hash ∧ ty = .constant ⟨s, d, Annot.valid annots⟩ hash ∧ s' = s + 1 := by
  have hhash : (do return .constant ⟨s, d, Annot.valid annots⟩ (← constantHash n) : Numbered Ty)
      (s + 1) = .ok (ty, s') := by
    rw [← h, ofNodeAt, hname]
    rfl
  cases n with
  | string hash =>
    cases hhash
    exact ⟨hash, rfl, rfl, rfl⟩
  | _ => cases hhash

end Forms

/-! ### The reader and the relation -/

/-- **What the reader yields, the expression writes.** -/
theorem writes_of_ofNodeAt {d s s' : Nat} {n : Node} {ty : Ty}
    (h : ofNodeAt d n s = .ok (ty, s')) : WritesType d n s ty s' := by
  -- By induction on the number of nodes: the rest of a comb is read as a pair of its own, which
  -- is no part of the expression.
  induction hcount : n.count using Nat.strongRecOn generalizing d n s ty s' with
  | _ c ih =>
    cases n with
    | prim name args annots =>
      obtain ⟨prim, hname, harity⟩ := accepts_of_ofNodeAt h
      have hread {n : Node} (hn : n.count < (Node.prim name args annots).count) {d s s' : Nat}
          {ty : Ty} (h : ofNodeAt d n s = .ok (ty, s')) : WritesType d n s ty s' :=
        ih n.count (hcount ▸ hn) h rfl
      cases prim
      case unit | never | operation | bool | scalar =>
        obtain rfl := List.length_eq_zero_iff.1 (eq_of_beq harity)
        rw [ofNodeAt, hname] at h
        obtain ⟨rfl, rfl⟩ := pure_eq_ok_run_iff.1 h
        exact .leaf hname rfl rfl rfl
      case contract | option | list | set =>
        obtain ⟨n, rfl⟩ := List.length_eq_one_iff.1 (eq_of_beq harity)
        obtain ⟨t, ht, rfl⟩ := (ofNodeAt_single_eq_ok_iff hname rfl).1 h
        exact .one hname rfl rfl (by simp [prim])
          (hread (by simp [Node.count, Node.countAll]) ht)
      case or | map | bigMap | lambda =>
        obtain ⟨n, m, rfl⟩ := List.length_eq_two.1 (eq_of_beq harity)
        obtain ⟨a, s₁, b, ha, hb, rfl⟩ := (ofNodeAt_double_eq_ok_iff hname rfl).1 h
        have hcounts : (Node.prim name [n, m] annots).count = 1 + (n.count + m.count) := by
          simp [Node.count, Node.countAll]
        exact .two hname rfl rfl (hread (by omega) ha) (hread (by omega) hb)
      case pair =>
        rcases args with - | ⟨n, - | ⟨m, - | ⟨k, rest⟩⟩⟩
        · cases harity
        · cases harity
        · obtain ⟨a, s₁, b, ha, hb, rfl⟩ := (ofNodeAt_double_eq_ok_iff hname rfl).1 h
          have hcounts : (Node.prim name [n, m] annots).count = 1 + (n.count + m.count) := by
            simp [Node.count, Node.countAll]
          exact .two hname rfl rfl (hread (by omega) ha) (hread (by omega) hb)
        · have hrest : 2 ≤ (m :: k :: rest).length := by simp
          obtain ⟨a, s₁, b, ha, hb, rfl⟩ := (ofNodeAt_comb_eq_ok_iff hname hrest).1 h
          have hcounts : (Node.prim name (n :: m :: k :: rest) annots).count
              = n.count + (Node.app "pair" (m :: k :: rest)).count := by
            simp [Node.count, Node.countAll, Node.app]
            omega
          have := n.count_pos
          have := (Node.app "pair" (m :: k :: rest)).count_pos
          exact .comb hname hrest (hread (by omega) ha) (hread (by omega) hb)
      case ticket =>
        obtain ⟨n, rfl⟩ := List.length_eq_one_iff.1 (eq_of_beq harity)
        obtain ⟨content, s₁, paired, hcontent, hpaired, rfl⟩ :=
          (ofNodeAt_ticket_eq_ok_iff hname).1 h
        have hn : n.count < (Node.prim name [n] annots).count := by
          simp [Node.count, Node.countAll]
        refine .ticket hname (hread hn hcontent) ?_
        obtain ⟨again, s₂, hagain, rfl, rfl⟩ := ofNodeAt_ticketPair_eq_ok_iff.1 hpaired
        exact writes_ticketPair (hread hn hagain)
      case saplingState | saplingTransaction | saplingTransactionDeprecated =>
        obtain ⟨n, rfl⟩ := List.length_eq_one_iff.1 (eq_of_beq harity)
        obtain ⟨memo, rfl, rfl, rfl⟩ := exists_of_ofNodeAt_sized hname rfl h
        exact .leaf hname rfl rfl rfl
      case constant =>
        obtain ⟨n, rfl⟩ := List.length_eq_one_iff.1 (eq_of_beq harity)
        obtain ⟨hash, rfl, rfl, rfl⟩ := exists_of_ofNodeAt_constant hname h
        exact .leaf hname rfl rfl rfl
    | _ => cases h

/-- **The reader yields what the expression writes.** -/
theorem WritesType.ofNodeAt_eq {d s s' : Nat} {n : Node} {ty : Ty} (h : WritesType d n s ty s') :
    ofNodeAt d n s = .ok (ty, s') := by
  induction h with
  | leaf hname hinfo hchildren hargs => exact hargs ▸ ofNodeAt_leaf hname hinfo hchildren
  | @one d s s' name annots n ty t hname hinfo hchildren hticket _ ih =>
    obtain ⟨make, hmake, hty⟩ : ∃ make, single? ty.prim = some make ∧ ty = make ty.info t := by
      cases ty <;> cases hchildren <;> first | exact ⟨_, rfl, rfl⟩ | exact absurd rfl hticket
    rw [hinfo] at hty
    exact (ofNodeAt_single_eq_ok_iff hname hmake).2 ⟨t, ih, hty⟩
  | @two d s s₁ s' name annots n m ty a b hname hinfo hchildren _ _ iha ihb =>
    obtain ⟨make, hmake, hty⟩ : ∃ make, double? ty.prim = some make ∧ ty = make ty.info a b := by
      cases ty <;> cases hchildren <;> exact ⟨_, rfl, rfl⟩
    rw [hinfo] at hty
    exact (ofNodeAt_double_eq_ok_iff hname hmake).2 ⟨a, s₁, b, iha, ihb, hty⟩
  | comb hname hrest _ _ iha ihb =>
    exact (ofNodeAt_comb_eq_ok_iff hname hrest).2 ⟨_, _, _, iha, ihb, rfl⟩
  | ticket hname _ _ ihcontent ihpaired =>
    exact (ofNodeAt_ticket_eq_ok_iff hname).2 ⟨_, _, _, ihcontent, ihpaired, rfl⟩

/-- **The reader yields exactly the type that the expression writes.** -/
theorem ofNodeAt_eq_ok_iff {d s s' : Nat} {n : Node} {ty : Ty} :
    ofNodeAt d n s = .ok (ty, s') ↔ WritesType d n s ty s' :=
  ⟨writes_of_ofNodeAt, WritesType.ofNodeAt_eq⟩

/-! ### Several types -/

/-- Expressions write types side by side, which take numbers one after another. -/
inductive WritesTypes : List Node → Nat → List Ty → Nat → Prop
  | nil {s : Nat} : WritesTypes [] s [] s
  | cons {s s₁ s' : Nat} {n : Node} {ns : List Node} {ty : Ty} {tys : List Ty}
    (h : WritesType 0 n s ty s₁) (hs : WritesTypes ns s₁ tys s') :
    WritesTypes (n :: ns) s (ty :: tys) s'

/-- Roots are read one by one, numbered on. -/
theorem writesTypes_iff {ns : List Node} {s s' : Nat} {tys : List Ty} :
    (ns.mapM (ofNodeAt 0)) s = .ok (tys, s') ↔ WritesTypes ns s tys s' := by
  induction ns generalizing s tys with
  | nil =>
    rw [List.mapM_nil, pure_eq_ok_run_iff]
    constructor
    · rintro ⟨rfl, rfl⟩
      exact .nil
    · rintro ⟨⟩
      exact ⟨rfl, rfl⟩
  | cons n ns ih =>
    rw [List.mapM_cons, bind_bind_return_eq_ok_iff]
    simp only [ofNodeAt_eq_ok_iff, ih]
    constructor
    · rintro ⟨ty, s₁, tys, h, hs, rfl⟩
      exact .cons h hs
    · rintro ⟨⟩
      exact ⟨_, _, _, ‹_›, ‹_›, rfl⟩

/-- **The types that are read are those that the expressions write**, from zero on. -/
theorem ofNodes_eq_ok_iff {ns : List Node} {tys : List Ty} :
    ofNodes ns = .ok tys ↔ ∃ s', WritesTypes ns 0 tys s' := by
  simp only [← writesTypes_iff]
  rw [ofNodes, bind_eq_ok_iff]
  constructor
  · rintro ⟨⟨tys', s'⟩, h, heq⟩
    obtain rfl := pure_eq_ok_iff.1 heq
    exact ⟨s', h⟩
  · rintro ⟨s', h⟩
    exact ⟨(tys, s'), h, rfl⟩

end Ty

end Micheline
