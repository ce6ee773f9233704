/-
Micheline/Proofs/Binary/Layout.lean

How expressions may stand in bytes.  A `Layout` is an expression together with the choices
that its bytes show and that it does not: the digits of integers, which of the tags for
applications stands there, and the text that the annotations were joined to.

    sound      the bytes of a layout are read back
    canonical  the bytes of a layout are those that writing gives

Main results: a reader with some levels left reads exactly the sound layouts that nest no
deeper (`reads_readNode`), and fails on the deeper ones because they are too deep
(`rejectsDeeper`).
-/
import Micheline.Proofs.Binary.Reader
import Micheline.Proofs.Node.Keyword
import Micheline.Proofs.Node.Spacing

namespace Micheline.Binary

/-- An expression as it stands in bytes. -/
inductive Layout where
  | int (value : Int) (digits : Bytes)
  | string (text : String)
  | bytes (data : Bytes)
  | seq (items : List Layout)
  /-- An application with one of the tags 03 to 08; a text of annotations may follow. -/
  | prim (name : String) (code : UInt8) (args : List Layout) (blob : Option String)
  /-- An application with the tag 09; a text of annotations follows. -/
  | general (name : String) (code : UInt8) (args : List Layout) (blob : String)

namespace Layout

mutual

/-- The expression that stands there. -/
def node : Layout → Node
  | .int value _ => .int value
  | .string text => .string text
  | .bytes data => .bytes data
  | .seq items => .seq (nodes items)
  | .prim name _ args blob => .prim name (nodes args) (blob.elim [] words)
  | .general name _ args blob => .prim name (nodes args) (words blob)

/-- The expressions that stand there. -/
def nodes : List Layout → List Node
  | [] => []
  | l :: ls => node l :: nodes ls

end

mutual

/-- The bytes of a layout. -/
def encoding : Layout → Bytes
  | .int _ digits => 0x00 :: digits
  | .string text => 0x01 :: sized (Utf8.encode text)
  | .bytes data => 0x0a :: sized data
  | .seq items => 0x02 :: sized (encodings items)
  | .prim _ code args blob =>
    primTag args.length blob.isSome
      :: code :: (encodings args ++ blob.elim [] fun text => sized (Utf8.encode text))
  | .general _ code args blob =>
    0x09 :: code :: (sized (encodings args) ++ sized (Utf8.encode blob))

/-- The bytes of layouts one after another. -/
def encodings : List Layout → Bytes
  | [] => []
  | l :: ls => encoding l ++ encodings ls

end

/-- The bytes of a layout mean what it says: digits and codes are those of its integers and
names, lengths fit in four bytes, and the short tags have at most two arguments. -/
inductive IsSound : Layout → Prop
  | int {value digits} (h : Integer.read digits = .ok (value, [])) : IsSound (.int value digits)
  | string {text} (h : (Utf8.encode text).length < lengthBound) : IsSound (.string text)
  | bytes {data : Bytes} (h : data.length < lengthBound) : IsSound (.bytes data)
  | seq {items} (hitems : ∀ l ∈ items, IsSound l)
      (h : (encodings items).length < lengthBound) : IsSound (.seq items)
  | prim {name} {code : UInt8} {args : List Layout} {blob : Option String}
      (hargs : ∀ l ∈ args, IsSound l) (hname : Keyword.name? code.toNat = some name)
      (hcount : args.length ≤ 2) (hblob : ∀ text ∈ blob, (Utf8.encode text).length < lengthBound) :
      IsSound (.prim name code args blob)
  | general {name} {code : UInt8} {args : List Layout} {blob : String}
      (hargs : ∀ l ∈ args, IsSound l) (hname : Keyword.name? code.toNat = some name)
      (h : (encodings args).length < lengthBound)
      (hblob : (Utf8.encode blob).length < lengthBound) : IsSound (.general name code args blob)

/-- The bytes of a layout are the ones that writing chooses: integers are minimal, the tag
09 is used for three arguments or more, the tags that announce annotations are followed by
some, and no text of annotations has a blank at an end or two blanks in a row. -/
inductive IsCanonical : Layout → Prop
  | int {value digits} (h : Integer.IsMinimal digits) : IsCanonical (.int value digits)
  | string {text} : IsCanonical (.string text)
  | bytes {data} : IsCanonical (.bytes data)
  | seq {items} (hitems : ∀ l ∈ items, IsCanonical l) : IsCanonical (.seq items)
  | prim {name code args} {blob : Option String} (hargs : ∀ l ∈ args, IsCanonical l)
      (hblob : ∀ text ∈ blob, words text ≠ [] ∧ IsTight text) :
      IsCanonical (.prim name code args blob)
  | general {name code args blob} (hargs : ∀ l ∈ args, IsCanonical l)
      (hcount : 3 ≤ args.length) (hblob : IsTight blob) :
      IsCanonical (.general name code args blob)

/-- A list is canonical if its items are. -/
theorem isCanonical_seq_iff {items : List Layout} :
    IsCanonical (.seq items) ↔ ∀ l ∈ items, l.IsCanonical := by
  constructor
  · intro h
    cases h with
    | seq hitems => exact hitems
  · exact .seq

/-- A short application is canonical if its arguments are and its annotations, if it has any,
are words with single spaces. -/
theorem isCanonical_prim_iff {name : String} {code : UInt8} {args : List Layout}
    {blob : Option String} :
    IsCanonical (.prim name code args blob)
      ↔ (∀ l ∈ args, l.IsCanonical) ∧ ∀ text ∈ blob, words text ≠ [] ∧ IsTight text := by
  constructor
  · intro h
    cases h with
    | prim hargs hblob => exact ⟨hargs, hblob⟩
  · rintro ⟨hargs, hblob⟩
    exact .prim hargs hblob

/-- A long application is canonical if it needs to be long: it has three arguments or more. -/
theorem isCanonical_general_iff {name : String} {code : UInt8} {args : List Layout}
    {blob : String} :
    IsCanonical (.general name code args blob)
      ↔ (∀ l ∈ args, l.IsCanonical) ∧ 3 ≤ args.length ∧ IsTight blob := by
  constructor
  · intro h
    cases h with
    | general hargs hcount hblob => exact ⟨hargs, hcount, hblob⟩
  · rintro ⟨hargs, hcount, hblob⟩
    exact .general hargs hcount hblob

theorem length_nodes (ls : List Layout) : (nodes ls).length = ls.length := by
  induction ls with
  | nil => rfl
  | cons l ls ih => simp [nodes, ih]

theorem encoding_ne_nil (l : Layout) : encoding l ≠ [] := by
  cases l <;> simp [encoding]

end Layout

open Layout

/-! ### Readers of several expressions -/

/-- The reader `item` reads the layouts that satisfy `P`, and nothing else. -/
def Reads (item : Reader Node) (P : Layout → Prop) : Prop :=
  ∀ {d n rest}, outcome item d = (.ok n, rest)
    ↔ ∃ l, P l ∧ node l = n ∧ d = encoding l ++ rest

theorem readUntilEnd_nil (item : Reader Node) (fuel : Nat) :
    readUntilEnd item fuel [] = .ok [] := by
  cases fuel <;> rfl

theorem readUntilEnd_of_ok {item : Reader Node} {fuel : Nat} {d rest : Bytes} {n : Node}
    (hd : d ≠ []) (h : outcome item d = (.ok n, rest)) :
    readUntilEnd item (fuel + 1) d = (readUntilEnd item fuel rest).map (n :: ·) := by
  have h' : item.run.run d = (.ok n, rest) := h
  rw [readUntilEnd, if_neg (by simpa using hd), h']
  show (readUntilEnd item fuel rest >>= fun ns => pure (n :: ns)) = _
  rcases readUntilEnd item fuel rest with e | ns <;> rfl

theorem readUntilEnd_of_error {item : Reader Node} {fuel : Nat} {d rest : Bytes} {e : Error}
    (hd : d ≠ []) (h : outcome item d = (.error e, rest)) :
    readUntilEnd item (fuel + 1) d = .error e := by
  have h' : item.run.run d = (.error e, rest) := h
  rw [readUntilEnd, if_neg (by simpa using hd), h']

section Reads

variable {item : Reader Node} {P : Layout → Prop}

/-- A body is read to its end exactly if it is the encodings of layouts, one after another. -/
theorem readUntilEnd_eq_ok_iff (hitem : Reads item P) {fuel : Nat} {d : Bytes}
    {ns : List Node} (hfuel : d.length ≤ fuel) :
    readUntilEnd item fuel d = .ok ns
      ↔ ∃ ls, (∀ l ∈ ls, P l) ∧ nodes ls = ns ∧ d = encodings ls := by
  constructor
  · intro h
    induction fuel generalizing d ns with
    | zero =>
      obtain rfl : d = [] := List.eq_nil_of_length_eq_zero (by omega)
      obtain rfl := Except.ok.inj h
      exact ⟨[], by simp, rfl, rfl⟩
    | succ fuel ih =>
      by_cases hd : d = []
      · subst hd
        obtain rfl := Except.ok.inj h
        exact ⟨[], by simp, rfl, rfl⟩
      rcases e : outcome item d with ⟨err | n, rest⟩
      · rw [readUntilEnd_of_error hd e] at h
        cases h
      · rw [readUntilEnd_of_ok hd e] at h
        obtain ⟨l, hl, rfl, rfl⟩ := hitem.1 e
        -- an item takes a byte at least, so that the fuel lasts
        have hpos := List.length_pos_iff.2 (encoding_ne_nil l)
        rcases e' : readUntilEnd item fuel rest with err | ms
        · rw [e'] at h
          cases h
        · rw [e'] at h
          obtain rfl := Except.ok.inj h
          rw [List.length_append] at hfuel
          obtain ⟨ls, hls, rfl, rfl⟩ := ih (by omega) e'
          exact ⟨l :: ls, List.forall_mem_cons.2 ⟨hl, hls⟩, rfl, rfl⟩
  · rintro ⟨ls, hls, rfl, rfl⟩
    induction ls generalizing fuel with
    | nil => exact readUntilEnd_nil item fuel
    | cons l ls ih =>
      obtain ⟨hl, hls⟩ := List.forall_mem_cons.1 hls
      have hpos := List.length_pos_iff.2 (encoding_ne_nil l)
      rw [encodings, List.length_append] at hfuel
      obtain ⟨fuel, rfl⟩ : ∃ f, fuel = f + 1 := ⟨fuel - 1, by omega⟩
      have hok : outcome item (encoding l ++ encodings ls) = (.ok (node l), encodings ls) :=
        hitem.2 ⟨l, hl, rfl, rfl⟩
      rw [encodings, readUntilEnd_of_ok (by simp [encoding_ne_nil]) hok, ih hls (by omega)]
      rfl

theorem readAll_eq_ok_iff (hitem : Reads item P) {d : Bytes} {ns : List Node} :
    readAll item d = .ok ns ↔ ∃ ls, (∀ l ∈ ls, P l) ∧ nodes ls = ns ∧ d = encodings ls :=
  readUntilEnd_eq_ok_iff hitem (Nat.le_refl _)

/-- A number of nodes is read exactly if as many layouts stand in front. -/
theorem readMany_eq_ok_iff (hitem : Reads item P) {k : Nat} {d rest : Bytes}
    {ns : List Node} :
    outcome (readMany item k) d = (.ok ns, rest)
      ↔ ∃ ls, ls.length = k ∧ (∀ l ∈ ls, P l) ∧ nodes ls = ns ∧ d = encodings ls ++ rest := by
  induction k generalizing d ns with
  | zero =>
    rw [readMany, outcome_pure_eq_ok_iff]
    constructor
    · rintro ⟨rfl, rfl⟩
      exact ⟨[], rfl, by simp, rfl, rfl⟩
    · rintro ⟨ls, hlen, -, rfl, rfl⟩
      obtain rfl := List.eq_nil_of_length_eq_zero hlen
      exact ⟨rfl, rfl⟩
  | succ k ih =>
    rw [readMany, outcome_bind_eq_ok_iff]
    constructor
    -- the first item has a layout, and the others have by induction
    · rintro ⟨n, mid, h₁, h₂⟩
      obtain ⟨l, hl, rfl, rfl⟩ := hitem.1 h₁
      obtain ⟨ms, mid', h₃, h₄⟩ := outcome_bind_eq_ok_iff.1 h₂
      obtain ⟨rfl, rfl⟩ := outcome_pure_eq_ok_iff.1 h₄
      obtain ⟨ls, rfl, hls, rfl, rfl⟩ := ih.1 h₃
      refine ⟨l :: ls, rfl, List.forall_mem_cons.2 ⟨hl, hls⟩, rfl, ?_⟩
      rw [encodings, List.append_assoc]
    · rintro ⟨ls, hlen, hls, rfl, rfl⟩
      rcases ls with - | ⟨l, ls⟩
      · cases hlen
      obtain ⟨hl, hls⟩ := List.forall_mem_cons.1 hls
      rw [encodings, List.append_assoc]
      refine ⟨node l, encodings ls ++ rest, hitem.2 ⟨l, hl, rfl, rfl⟩, ?_⟩
      rw [outcome_bind_ok (ih.2 ⟨ls, Nat.succ.inj hlen, hls, rfl, rfl⟩)]
      rfl

end Reads

/-! ### One level down -/

section Levels

variable {levels : Nat} {rest : Bytes}

/-- The bytes of a list are taken off by their length and read one level deeper. -/
theorem outcome_readNode_seq {items : List Layout}
    (h : (encodings items).length < lengthBound) :
    outcome (readNode (levels + 1)) (encoding (.seq items) ++ rest)
      = ((readAll (readNode levels) (encodings items)).map .seq, rest) := by
  have hbody : outcome readSized (sized (encodings items) ++ rest)
      = (.ok (encodings items), rest) :=
    readSized_eq_ok_iff.2 ⟨h, rfl⟩
  rw [encoding, List.cons_append, readNode, readTagged, outcome_bind_ok (outcome_readByte_cons _ _)]
  show outcome (readSized >>= _) _ = _
  rw [outcome_bind_ok hbody]
  rcases readAll (readNode levels) (encodings items) with e | ns <;> rfl

/-- A long application is read by its keyword, the body of its arguments, and its blob. -/
theorem outcome_readNode_general {name : String} {code : UInt8} {args : List Layout}
    {blob : String} (hname : Keyword.name? code.toNat = some name)
    (h : (encodings args).length < lengthBound)
    (hblob : (Utf8.encode blob).length < lengthBound) :
    outcome (readNode (levels + 1)) (encoding (.general name code args blob) ++ rest)
      = match readAll (readNode levels) (encodings args) with
        | .ok ns => (.ok (.prim name ns (words blob)), rest)
        | .error e => (.error e, sized (Utf8.encode blob) ++ rest) := by
  -- each piece is read where the one before it ended
  have hkey : outcome readKeyword (code :: (sized (encodings args)
      ++ (sized (Utf8.encode blob) ++ rest)))
      = (.ok name, sized (encodings args) ++ (sized (Utf8.encode blob) ++ rest)) :=
    readKeyword_eq_ok_iff.2 ⟨code, hname, rfl⟩
  have hbody : outcome readSized (sized (encodings args) ++ (sized (Utf8.encode blob) ++ rest))
      = (.ok (encodings args), sized (Utf8.encode blob) ++ rest) :=
    readSized_eq_ok_iff.2 ⟨h, rfl⟩
  have hannots : outcome readAnnots (sized (Utf8.encode blob) ++ rest)
      = (.ok (words blob), rest) :=
    readAnnots_eq_ok_iff.2 ⟨blob, hblob, rfl, rfl⟩
  rw [encoding, List.cons_append, List.cons_append, List.append_assoc, readNode,
    readTagged, outcome_bind_ok (outcome_readByte_cons _ _)]
  show outcome (readKeyword >>= _) _ = _
  rw [outcome_bind_ok hkey, outcome_bind_ok hbody]
  rcases readAll (readNode levels) (encodings args) with e | ns
  · rfl
  · rw [outcome_bind_ok (outcome_liftExcept _ _), outcome_bind_ok hannots]
    rfl

/-- The tag says how many arguments there are and whether annotations follow. -/
theorem primTag_parts {k : Nat} (hk : k ≤ 2) (annotated : Bool) :
    ((primTag k annotated).toNat - 3) / 2 = k
      ∧ (((primTag k annotated).toNat - 3) % 2 = 1 ↔ annotated) := by
  obtain rfl | rfl | rfl : k = 0 ∨ k = 1 ∨ k = 2 := by omega
  all_goals cases annotated <;> decide

/-- A short application is read by its keyword, as many arguments as its tag says, and a blob if
the tag says so. -/
theorem outcome_readNode_prim {name : String} {code : UInt8} {args : List Layout}
    {blob : Option String} (hname : Keyword.name? code.toNat = some name)
    (hcount : args.length ≤ 2)
    (hblob : ∀ text ∈ blob, (Utf8.encode text).length < lengthBound) :
    outcome (readNode (levels + 1)) (encoding (.prim name code args blob) ++ rest)
      = outcome (readMany (readNode levels) args.length >>= fun ns =>
          (if blob.isSome then readAnnots else pure []) >>= fun annots =>
            pure (.prim name ns annots))
        (encodings args ++ ((blob.elim [] fun text => sized (Utf8.encode text)) ++ rest)) := by
  have hkey (d : Bytes) : outcome readKeyword (code :: d) = (.ok name, d) :=
    readKeyword_eq_ok_iff.2 ⟨code, hname, rfl⟩
  rw [encoding, List.cons_append, List.cons_append, List.append_assoc, readNode,
    readTagged, outcome_bind_ok (outcome_readByte_cons _ _)]
  obtain ⟨hargs, hannots⟩ := primTag_parts hcount blob.isSome
  -- the tag has to be a number before its branch is taken
  obtain h | h | h : args.length = 0 ∨ args.length = 1 ∨ args.length = 2 := by omega
  all_goals
    rw [h] at hargs hannots ⊢
    rcases blob with - | text
    all_goals
      show outcome (readKeyword >>= _) _ = _
      rw [outcome_bind_ok (hkey _), hargs]
      refine congrArg (outcome · _) (bind_congr fun ns => ?_)
    · rfl
    · rw [if_pos (hannots.2 rfl)]
      rfl

end Levels

/-! ### Reading layouts -/

/-- The layouts that nest at most `levels` levels. -/
def FitsIn (levels : Nat) (l : Layout) : Prop :=
  l.IsSound ∧ l.node.depth ≤ levels

/-- Sound layouts whose nodes are not too deep fit in. -/
theorem fitsIn_args {levels : Nat} {ls : List Layout} (hs : ∀ l ∈ ls, l.IsSound)
    (hd : Node.depthAll (nodes ls) ≤ levels) : ∀ l ∈ ls, FitsIn levels l := by
  induction ls with
  | nil => simp
  | cons l ls ih =>
    rw [nodes, Node.depthAll, Nat.max_le] at hd
    obtain ⟨hl, hls⟩ := List.forall_mem_cons.1 hs
    exact List.forall_mem_cons.2 ⟨⟨hl, hd.1⟩, ih hls hd.2⟩

theorem depthAll_of_fitsIn {levels : Nat} {ls : List Layout} (h : ∀ l ∈ ls, FitsIn levels l) :
    Node.depthAll (nodes ls) ≤ levels := by
  induction ls with
  | nil => exact Nat.zero_le _
  | cons l ls ih =>
    obtain ⟨hl, hls⟩ := List.forall_mem_cons.1 h
    rw [nodes, Node.depthAll, Nat.max_le]
    exact ⟨hl.2, ih hls⟩

/-- A layout that fits in is read, whatever follows. -/
theorem outcome_readNode_of_fitsIn {levels : Nat}
    (ih : Reads (readNode levels) (FitsIn levels)) {l : Layout} (hl : FitsIn (levels + 1) l)
    (rest : Bytes) : outcome (readNode (levels + 1)) (encoding l ++ rest) = (.ok l.node, rest) := by
  obtain ⟨hs, hd⟩ := hl
  cases hs with
  | @int value digits h =>
    rw [encoding, List.cons_append, readNode, readTagged,
      outcome_bind_ok (outcome_readByte_cons _ _)]
    show outcome (readInt >>= _) _ = _
    rw [outcome_bind_ok (readInt_eq_ok_iff.2 ⟨digits, h, rfl⟩)]
    rfl
  | string h =>
    rw [encoding, List.cons_append, readNode, readTagged,
      outcome_bind_ok (outcome_readByte_cons _ _)]
    show outcome (readText >>= _) _ = _
    rw [outcome_bind_ok (readText_eq_ok_iff.2 ⟨h, rfl⟩)]
    rfl
  | bytes h =>
    rw [encoding, List.cons_append, readNode, readTagged,
      outcome_bind_ok (outcome_readByte_cons _ _)]
    show outcome (readSized >>= _) _ = _
    rw [outcome_bind_ok (readSized_eq_ok_iff.2 ⟨h, rfl⟩)]
    rfl
  | @seq items hitems h =>
    -- the items stand one level further down
    have hfit : ∀ l ∈ items, FitsIn levels l :=
      fitsIn_args hitems (by rw [node, Node.depth] at hd; omega)
    rw [outcome_readNode_seq h, (readAll_eq_ok_iff ih).2 ⟨items, hfit, rfl, rfl⟩]
    rfl
  | @prim name code args blob hargs hname hcount hblob =>
    have hfit : ∀ l ∈ args, FitsIn levels l :=
      fitsIn_args hargs (by rw [node, Node.depth] at hd; omega)
    rw [outcome_readNode_prim hname hcount hblob,
      outcome_bind_ok ((readMany_eq_ok_iff ih).2 ⟨args, rfl, hfit, rfl, rfl⟩)]
    rcases blob with - | text
    · rfl
    · have hannots := readAnnots_eq_ok_iff.2 ⟨text, hblob text rfl, rfl,
        (rfl : sized (Utf8.encode text) ++ rest = _)⟩
      show outcome (readAnnots >>= _) _ = _
      rw [Option.elim_some, outcome_bind_ok hannots]
      rfl
  | @general name code args blob hargs hname h hblob =>
    have hfit : ∀ l ∈ args, FitsIn levels l :=
      fitsIn_args hargs (by rw [node, Node.depth] at hd; omega)
    rw [outcome_readNode_general hname h hblob,
      (readAll_eq_ok_iff ih).2 ⟨args, hfit, rfl, rfl⟩]
    rfl

section FitsIn

variable {levels : Nat}

theorem fitsIn_seq {items : List Layout} (hfit : ∀ l ∈ items, FitsIn levels l)
    (h : (encodings items).length < lengthBound) : FitsIn (levels + 1) (.seq items) := by
  have hd := depthAll_of_fitsIn hfit
  refine ⟨.seq (fun l hl => (hfit l hl).1) h, ?_⟩
  rw [node, Node.depth]
  omega

theorem fitsIn_prim {name : String} {code : UInt8} {args : List Layout}
    {blob : Option String} (hfit : ∀ l ∈ args, FitsIn levels l)
    (hname : Keyword.name? code.toNat = some name) (hcount : args.length ≤ 2)
    (hblob : ∀ text ∈ blob, (Utf8.encode text).length < lengthBound) :
    FitsIn (levels + 1) (.prim name code args blob) := by
  have hd := depthAll_of_fitsIn hfit
  refine ⟨.prim (fun l hl => (hfit l hl).1) hname hcount hblob, ?_⟩
  rw [node, Node.depth]
  omega

theorem fitsIn_general {name : String} {code : UInt8} {args : List Layout} {blob : String}
    (hfit : ∀ l ∈ args, FitsIn levels l) (hname : Keyword.name? code.toNat = some name)
    (h : (encodings args).length < lengthBound)
    (hblob : (Utf8.encode blob).length < lengthBound) :
    FitsIn (levels + 1) (.general name code args blob) := by
  have hd := depthAll_of_fitsIn hfit
  refine ⟨.general (fun l hl => (hfit l hl).1) hname h hblob, ?_⟩
  rw [node, Node.depth]
  omega

/-- A tag from 03 to 08 is the one for its number of arguments, with annotations if odd. -/
theorem eq_primTag {tag : UInt8} {k : Nat} (h : 3 ≤ tag.toNat) (hk : k = (tag.toNat - 3) / 2) :
    ((tag.toNat - 3) % 2 = 1 → tag = primTag k true)
      ∧ (¬ (tag.toNat - 3) % 2 = 1 → tag = primTag k false) := by
  have hlt := tag.toNat_lt
  constructor
  · intro hodd
    apply UInt8.toNat_inj.1
    simp only [primTag, UInt8.toNat_ofNat', if_true]
    omega
  · intro heven
    apply UInt8.toNat_inj.1
    simp only [primTag, UInt8.toNat_ofNat', Bool.false_eq_true, if_false]
    omega

theorem exists_layout_of_readPrim (ih : Reads (readNode levels) (FitsIn levels)) {tag : UInt8}
    (htag : 0x03 ≤ tag.toNat ∧ tag.toNat ≤ 0x08) {d rest : Bytes} {n : Node}
    (h : outcome (do
        let name ← readKeyword
        let args ← readMany (readNode levels) ((tag.toNat - 3) / 2)
        let annots ← if (tag.toNat - 3) % 2 = 1 then readAnnots else pure []
        return .prim name args annots) d = (.ok n, rest)) :
    ∃ l, FitsIn (levels + 1) l ∧ l.node = n ∧ tag :: d = encoding l ++ rest := by
  obtain ⟨name, mid, h₁, h₂⟩ := outcome_bind_eq_ok_iff.1 h
  obtain ⟨code, hname, rfl⟩ := readKeyword_eq_ok_iff.1 h₁
  obtain ⟨ns, mid', h₃, h₄⟩ := outcome_bind_eq_ok_iff.1 h₂
  obtain ⟨args, hcount, hfit, rfl, rfl⟩ := (readMany_eq_ok_iff ih).1 h₃
  -- the tag follows from the number of arguments and from whether there are annotations
  obtain ⟨hodd, heven⟩ := eq_primTag htag.1 hcount
  split at h₄
  next hannots =>
    obtain ⟨annots, mid'', h₅, h₆⟩ := outcome_bind_eq_ok_iff.1 h₄
    obtain ⟨rfl, rfl⟩ := outcome_pure_eq_ok_iff.1 h₆
    obtain ⟨blob, hb, rfl, rfl⟩ := readAnnots_eq_ok_iff.1 h₅
    refine ⟨.prim name code args (some blob),
      fitsIn_prim hfit hname (by omega) (by simpa using hb), rfl, ?_⟩
    rw [hodd hannots, encoding, List.cons_append, List.cons_append, List.append_assoc]
    rfl
  next hannots =>
    obtain ⟨rfl, rfl⟩ := outcome_pure_eq_ok_iff.1 h₄
    refine ⟨.prim name code args none, fitsIn_prim hfit hname (by omega) nofun, rfl, ?_⟩
    rw [heven hannots, encoding, List.cons_append, List.cons_append, List.append_assoc]
    rfl

theorem exists_layout_of_readNode (ih : Reads (readNode levels) (FitsIn levels))
    {d rest : Bytes} {n : Node} (h : outcome (readNode (levels + 1)) d = (.ok n, rest)) :
    ∃ l, FitsIn (levels + 1) l ∧ l.node = n ∧ d = encoding l ++ rest := by
  rw [readNode, readTagged, outcome_bind_eq_ok_iff] at h
  obtain ⟨tag, mid, htag, h⟩ := h
  obtain rfl := readByte_eq_ok_iff.1 htag
  -- a case for each tag, in the order of the reader
  split at h
  next e =>
    obtain rfl : tag = 0x00 := UInt8.toNat_inj.1 e
    obtain ⟨value, mid, h₁, h₂⟩ := outcome_bind_eq_ok_iff.1 h
    obtain ⟨rfl, rfl⟩ := outcome_pure_eq_ok_iff.1 h₂
    obtain ⟨digits, hd, rfl⟩ := readInt_eq_ok_iff.1 h₁
    exact ⟨.int value digits, ⟨.int hd, by simp [node, Node.depth]⟩, rfl, rfl⟩
  next e =>
    obtain rfl : tag = 0x01 := UInt8.toNat_inj.1 e
    obtain ⟨text, mid, h₁, h₂⟩ := outcome_bind_eq_ok_iff.1 h
    obtain ⟨rfl, rfl⟩ := outcome_pure_eq_ok_iff.1 h₂
    obtain ⟨hl, rfl⟩ := readText_eq_ok_iff.1 h₁
    exact ⟨.string text, ⟨.string hl, by simp [node, Node.depth]⟩, rfl, rfl⟩
  next e =>
    obtain rfl : tag = 0x02 := UInt8.toNat_inj.1 e
    obtain ⟨body, mid, h₁, h₂⟩ := outcome_bind_eq_ok_iff.1 h
    obtain ⟨hl, rfl⟩ := readSized_eq_ok_iff.1 h₁
    obtain ⟨ns, mid', h₃, h₄⟩ := outcome_bind_eq_ok_iff.1 h₂
    obtain ⟨rfl, rfl⟩ := outcome_pure_eq_ok_iff.1 h₄
    obtain ⟨hall, rfl⟩ := outcome_liftExcept_eq_ok_iff.1 h₃
    obtain ⟨items, hfit, rfl, rfl⟩ := (readAll_eq_ok_iff ih).1 hall
    exact ⟨.seq items, fitsIn_seq hfit hl, rfl, rfl⟩
  next e =>
    obtain rfl : tag = 0x0a := UInt8.toNat_inj.1 e
    obtain ⟨data, mid, h₁, h₂⟩ := outcome_bind_eq_ok_iff.1 h
    obtain ⟨rfl, rfl⟩ := outcome_pure_eq_ok_iff.1 h₂
    obtain ⟨hl, rfl⟩ := readSized_eq_ok_iff.1 h₁
    exact ⟨.bytes data, ⟨.bytes hl, by simp [node, Node.depth]⟩, rfl, rfl⟩
  next e =>
    obtain rfl : tag = 0x09 := UInt8.toNat_inj.1 e
    obtain ⟨name, mid, h₁, h₂⟩ := outcome_bind_eq_ok_iff.1 h
    obtain ⟨code, hname, rfl⟩ := readKeyword_eq_ok_iff.1 h₁
    obtain ⟨body, mid', h₃, h₄⟩ := outcome_bind_eq_ok_iff.1 h₂
    obtain ⟨hl, rfl⟩ := readSized_eq_ok_iff.1 h₃
    obtain ⟨ns, mid'', h₅, h₆⟩ := outcome_bind_eq_ok_iff.1 h₄
    obtain ⟨hall, rfl⟩ := outcome_liftExcept_eq_ok_iff.1 h₅
    obtain ⟨annots, mid'', h₇, h₈⟩ := outcome_bind_eq_ok_iff.1 h₆
    obtain ⟨rfl, rfl⟩ := outcome_pure_eq_ok_iff.1 h₈
    obtain ⟨blob, hb, rfl, rfl⟩ := readAnnots_eq_ok_iff.1 h₇
    obtain ⟨args, hfit, rfl, rfl⟩ := (readAll_eq_ok_iff ih).1 hall
    refine ⟨.general name code args blob, fitsIn_general hfit hname hl hb, rfl, ?_⟩
    rw [encoding, List.cons_append, List.cons_append, List.append_assoc]
  next =>
    split at h
    next hshort => exact exists_layout_of_readPrim ih hshort h
    next => exact absurd h outcome_throw_ne_ok

end FitsIn

/-- **What a reader reads**: exactly the sound layouts that nest no deeper than the levels
that it has left. -/
theorem reads_readNode (levels : Nat) : Reads (readNode levels) (FitsIn levels) := by
  induction levels with
  | zero =>
    intro d n rest
    constructor
    · intro h
      exact absurd h outcome_throw_ne_ok
    · rintro ⟨l, hl, -, -⟩
      have := Node.depth_pos l.node
      exact absurd hl.2 (by omega)
  | succ levels ih =>
    intro d n rest
    constructor
    · exact exists_layout_of_readNode ih
    · rintro ⟨l, hl, rfl, rfl⟩
      exact outcome_readNode_of_fitsIn ih hl rest

/-! ### Layouts that nest too deep -/

section TooDeep

variable {levels : Nat}

/-- The reader fails on sound layouts that nest deeper than it goes, for that reason. -/
def RejectsDeeper (levels : Nat) : Prop :=
  ∀ {l : Layout}, l.IsSound → levels < l.node.depth → ∀ d, ∃ rest,
    outcome (readNode levels) (encoding l ++ d) = (.error (.tooDeep maxDepth), rest)

theorem readUntilEnd_tooDeep (h : RejectsDeeper levels) {ls : List Layout}
    (hs : ∀ l ∈ ls, l.IsSound) (hd : levels < Node.depthAll (nodes ls)) {fuel : Nat}
    (hfuel : (encodings ls).length ≤ fuel) :
    readUntilEnd (readNode levels) fuel (encodings ls) = .error (.tooDeep maxDepth) := by
  induction ls generalizing fuel with
  | nil => exact absurd hd (Nat.not_lt_zero _)
  | cons l ls ih =>
    obtain ⟨hl, hls⟩ := List.forall_mem_cons.1 hs
    have hpos := List.length_pos_iff.2 (encoding_ne_nil l)
    have hne : encoding l ++ encodings ls ≠ [] := by simp [encoding_ne_nil]
    rw [encodings, List.length_append] at hfuel
    rw [nodes, Node.depthAll] at hd
    obtain ⟨fuel, rfl⟩ : ∃ f, fuel = f + 1 := ⟨fuel - 1, by omega⟩
    -- the first of the layouts that is too deep stops the reader
    rcases Nat.lt_or_ge levels l.node.depth with hdeep | hfit
    · obtain ⟨rest, hr⟩ := h hl hdeep (encodings ls)
      rw [encodings, readUntilEnd_of_error hne hr]
    · have hok : outcome (readNode levels) (encoding l ++ encodings ls)
          = (.ok l.node, encodings ls) :=
        (reads_readNode levels).2 ⟨l, ⟨hl, hfit⟩, rfl, rfl⟩
      rw [encodings, readUntilEnd_of_ok hne hok, ih hls (by omega) (by omega)]
      rfl

theorem readMany_tooDeep (h : RejectsDeeper levels) {ls : List Layout}
    (hs : ∀ l ∈ ls, l.IsSound) (hd : levels < Node.depthAll (nodes ls)) (d : Bytes) :
    ∃ rest, outcome (readMany (readNode levels) ls.length) (encodings ls ++ d)
      = (.error (.tooDeep maxDepth), rest) := by
  induction ls with
  | nil => exact absurd hd (Nat.not_lt_zero _)
  | cons l ls ih =>
    obtain ⟨hl, hls⟩ := List.forall_mem_cons.1 hs
    rw [nodes, Node.depthAll] at hd
    rw [encodings, List.append_assoc, List.length_cons, readMany]
    rcases Nat.lt_or_ge levels l.node.depth with hdeep | hfit
    · obtain ⟨rest, hr⟩ := h hl hdeep (encodings ls ++ d)
      exact ⟨rest, outcome_bind_error hr⟩
    · have hok : outcome (readNode levels) (encoding l ++ (encodings ls ++ d))
          = (.ok l.node, encodings ls ++ d) :=
        (reads_readNode levels).2 ⟨l, ⟨hl, hfit⟩, rfl, rfl⟩
      obtain ⟨rest, hr⟩ := ih hls (by omega)
      exact ⟨rest, by rw [outcome_bind_ok hok, outcome_bind_error hr]⟩

/-- **What a reader does not go down to**: a sound layout with more levels. -/
theorem rejectsDeeper (levels : Nat) : RejectsDeeper levels := by
  induction levels with
  | zero => exact fun _ _ d => ⟨_, outcome_throw _ _⟩
  | succ levels ih =>
    intro l hs hd d
    cases hs with
    | int | string | bytes =>
      -- a leaf nests one level
      simp [node, Node.depth] at hd
    | @seq items hitems h =>
      rw [node, Node.depth] at hd
      rw [outcome_readNode_seq h, readAll,
        readUntilEnd_tooDeep ih hitems (by omega) (Nat.le_refl _)]
      exact ⟨_, rfl⟩
    | @prim name code args blob hargs hname hcount hblob =>
      rw [node, Node.depth] at hd
      rw [outcome_readNode_prim hname hcount hblob]
      obtain ⟨rest, hr⟩ := readMany_tooDeep ih hargs (by omega) _
      exact ⟨rest, outcome_bind_error hr⟩
    | @general name code args blob hargs hname h hblob =>
      rw [node, Node.depth] at hd
      rw [outcome_readNode_general hname h hblob, readAll,
        readUntilEnd_tooDeep ih hargs (by omega) (Nat.le_refl _)]
      exact ⟨_, rfl⟩

end TooDeep

end Micheline.Binary
