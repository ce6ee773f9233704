/-
Micheline/Proofs/Binary/RoundTrip.lean

Writing and reading expressions in binary form.  Both sides meet at layouts: what is
written is a sound layout of the expression with its annotations respaced
(`exists_layout_of_encode`), and the expression of a sound layout is written in at most as
many bytes, in the same bytes where the layout is canonical (`isRewritten_of_isSound`).

Main results: what reading makes of written bytes (`decodeOne_of_encode`), and what writing
makes of bytes that were read (`encode_of_decode`).
-/
import Micheline.Binary.Packed
import Micheline.Proofs.Binary.Layout
import Micheline.Proofs.Except

namespace Micheline.Binary

open Layout

/-! ### Codes -/

theorem toNat_code {name : String} {code : Nat} (h : Keyword.code? name = some code) :
    (UInt8.ofNat code).toNat = code := by
  have := Keyword.lt_of_name? (Keyword.name?_eq_some_iff.2 h)
  rw [UInt8.toNat_ofNat', Nat.mod_eq_of_lt (by omega)]

theorem name?_toNat_code {name : String} {code : Nat} (h : Keyword.code? name = some code) :
    Keyword.name? (UInt8.ofNat code).toNat = some name := by
  rw [toNat_code h]
  exact Keyword.name?_eq_some_iff.2 h

/-! ### From expressions to layouts -/

theorem annotsIfAny_eq_ok_iff {annots : List String} {b : Bytes} :
    annotsIfAny annots = .ok b
      ↔ (annots = [] ∧ b = []) ∨ (annots ≠ []
        ∧ (annotText annots).length < lengthBound ∧ b = sized (annotText annots)) := by
  unfold annotsIfAny
  rcases annots with - | ⟨a, as⟩
  · simp [eq_comm]
  · simp [withLength_eq_ok_iff]

/-- The layout in which an application to at most two arguments is written. -/
theorem exists_layout_of_prim {name : String} {code : Nat} {args : List Layout}
    {annots : List String} {after : Bytes} (hcode : Keyword.code? name = some code)
    (hargs : ∀ l ∈ args, l.IsSound) (hcount : args.length ≤ 2)
    (hafter : annotsIfAny annots = .ok after) :
    ∃ l : Layout, l.IsSound
      ∧ l.encoding = primTag args.length (!annots.isEmpty) :: UInt8.ofNat code
          :: (encodings args ++ after)
      ∧ l.node = .prim name (nodes args) (annots.flatMap Annot.split) := by
  have hname := name?_toNat_code hcode
  obtain ⟨rfl, rfl⟩ | ⟨hne, hlen, rfl⟩ := annotsIfAny_eq_ok_iff.1 hafter
  · exact ⟨.prim name (UInt8.ofNat code) args none, .prim hargs hname hcount (by simp), rfl, rfl⟩
  · have hblob : ∀ text ∈ some (" ".intercalate annots),
        (Utf8.encode text).length < lengthBound := by
      rintro _ ⟨⟩
      exact hlen
    refine ⟨.prim name (UInt8.ofNat code) args (some (" ".intercalate annots)),
      .prim hargs hname hcount hblob, ?_, ?_⟩
    · have he : annots.isEmpty = false := by simpa using hne
      rw [encoding, he]
      rfl
    · rw [node, Option.elim_some, words_intercalate]

/-- The layout in which an application to more than two arguments is written. -/
theorem exists_layout_of_general {name : String} {code : Nat} {args : List Layout}
    {annots : List String} (hcode : Keyword.code? name = some code)
    (hargs : ∀ l ∈ args, l.IsSound) (hlen : (encodings args).length < lengthBound)
    (hannots : (annotText annots).length < lengthBound) :
    ∃ l : Layout, l.IsSound
      ∧ l.encoding = 0x09 :: UInt8.ofNat code
          :: (sized (encodings args) ++ sized (annotText annots))
      ∧ l.node = .prim name (nodes args) (annots.flatMap Annot.split) :=
  ⟨.general name (UInt8.ofNat code) args (" ".intercalate annots),
    .general hargs (name?_toNat_code hcode) hlen hannots, rfl,
    by rw [node, words_intercalate]⟩

mutual

/-- **What is written**: a sound layout of the expression with its annotations respaced. -/
theorem exists_layout_of_encode : ∀ {n : Node} {b : Bytes}, encode n = .ok b →
    ∃ l : Layout, l.IsSound ∧ l.encoding = b ∧ l.node = n.respaced
  | .int value, b, h => by
    obtain rfl := Except.ok.inj h
    have hread : Integer.read (Integer.encode value) = .ok (value, []) := by
      simpa using Integer.read_encode value []
    exact ⟨.int value (Integer.encode value), .int hread, rfl, rfl⟩
  | .string text, b, h => by
    rw [encode, bind_eq_ok_iff] at h
    obtain ⟨body, hb, h⟩ := h
    obtain rfl := pure_eq_ok_iff.1 h
    obtain ⟨hlen, rfl⟩ := withLength_eq_ok_iff.1 hb
    exact ⟨.string text, .string hlen, rfl, rfl⟩
  | .bytes data, b, h => by
    rw [encode, bind_eq_ok_iff] at h
    obtain ⟨body, hb, h⟩ := h
    obtain rfl := pure_eq_ok_iff.1 h
    obtain ⟨hlen, rfl⟩ := withLength_eq_ok_iff.1 hb
    exact ⟨.bytes data, .bytes hlen, rfl, rfl⟩
  | .seq items, b, h => by
    rw [encode, bind_eq_ok_iff] at h
    obtain ⟨body, hbody, h⟩ := h
    obtain ⟨data, hdata, h⟩ := bind_eq_ok_iff.1 h
    obtain rfl := pure_eq_ok_iff.1 h
    obtain ⟨hlen, rfl⟩ := withLength_eq_ok_iff.1 hdata
    obtain ⟨ls, hs, rfl, hn⟩ := exists_layouts_of_encodeAll hbody
    exact ⟨.seq ls, .seq hs hlen, rfl, by rw [node, hn, Node.respaced]⟩
  | .prim name args annots, b, h => by
    rw [encode] at h
    split at h
    · cases h
    next code hcode =>
    obtain ⟨body, hbody, h⟩ := bind_eq_ok_iff.1 h
    obtain ⟨ls, hs, rfl, hn⟩ := exists_layouts_of_encodeAll hbody
    -- respacing changes no number of arguments, so that the tag is the same
    have hlength : ls.length = args.length := by
      rw [← length_nodes, hn, Node.length_respacedAll]
    rw [Node.respaced, ← hn]
    split at h
    next hcount =>
      obtain ⟨after, hafter, h⟩ := bind_eq_ok_iff.1 h
      obtain rfl := pure_eq_ok_iff.1 h
      rw [← hlength] at hcount ⊢
      exact exists_layout_of_prim hcode hs hcount hafter
    next =>
      obtain ⟨data, hdata, h⟩ := bind_eq_ok_iff.1 h
      obtain ⟨after, hafter, h⟩ := bind_eq_ok_iff.1 h
      obtain rfl := pure_eq_ok_iff.1 h
      obtain ⟨hlen, rfl⟩ := withLength_eq_ok_iff.1 hdata
      obtain ⟨hannots, rfl⟩ := withLength_eq_ok_iff.1 hafter
      exact exists_layout_of_general hcode hs hlen hannots

/-- What the encoder writes for nodes is the encodings of sound layouts, of the nodes with their
annotations set apart. -/
theorem exists_layouts_of_encodeAll : ∀ {ns : List Node} {b : Bytes}, encodeAll ns = .ok b →
    ∃ ls : List Layout, (∀ l ∈ ls, l.IsSound) ∧ encodings ls = b
      ∧ nodes ls = Node.respacedAll ns
  | [], b, h => by
    obtain rfl := Except.ok.inj h
    exact ⟨[], by simp, rfl, rfl⟩
  | n :: ns, b, h => by
    rw [encodeAll, bind_eq_ok_iff] at h
    obtain ⟨first, hfirst, h⟩ := h
    obtain ⟨rest, hrest, h⟩ := bind_eq_ok_iff.1 h
    obtain rfl := pure_eq_ok_iff.1 h
    obtain ⟨l, hl, rfl, hn⟩ := exists_layout_of_encode hfirst
    obtain ⟨ls, hls, rfl, hns⟩ := exists_layouts_of_encodeAll hrest
    exact ⟨l :: ls, List.forall_mem_cons.2 ⟨hl, hls⟩, rfl,
      by rw [nodes, hn, hns, Node.respacedAll]⟩

end

/-! ### Reading what was written -/

theorem decodeOne_encoding {l : Layout} (hs : l.IsSound) (hd : l.node.depth ≤ maxDepth) :
    decodeOne l.encoding = .ok l.node := by
  have h : outcome (readNode maxDepth) (l.encoding ++ []) = (.ok l.node, []) :=
    (reads_readNode maxDepth).2 ⟨l, ⟨hs, hd⟩, rfl, rfl⟩
  have hnext : next l.encoding = (.ok l.node, []) := by rwa [List.append_nil] at h
  rw [decodeOne, hnext]

/-- A layout that is nested too deep is refused for that reason. -/
theorem decodeOne_encoding_of_lt {l : Layout} (hs : l.IsSound) (hd : maxDepth < l.node.depth) :
    decodeOne l.encoding = .error (.tooDeep maxDepth) := by
  obtain ⟨rest, h⟩ := rejectsDeeper maxDepth hs hd []
  have hnext : next l.encoding = (.error (.tooDeep maxDepth), rest) := by
    rwa [List.append_nil] at h
  rw [decodeOne, hnext]

theorem unpack_packMark (b : Bytes) : unpack (packMark :: b) = decodeOne b := by
  rw [unpack, if_pos rfl]

/-- **Writing, then reading.**  An expression of at most a thousand levels is read back with
its annotations respaced, alone and packed, and it is itself if they are words; a deeper one
is not read, because it is too deep. -/
theorem decodeOne_of_encode {n : Node} {b : Bytes} (h : encode n = .ok b) :
    (n.depth ≤ 1000 → decodeOne b = .ok n.respaced ∧ unpack (0x05 :: b) = .ok n.respaced)
      ∧ (1000 < n.depth → decodeOne b = .error (.tooDeep 1000)
        ∧ unpack (0x05 :: b) = .error (.tooDeep 1000))
      ∧ (n.IsSpaced → n.respaced = n) := by
  obtain ⟨l, hs, rfl, hn⟩ := exists_layout_of_encode h
  have hdepth : l.node.depth = n.depth := by rw [hn, Node.depth_respaced]
  have hunpack : unpack (0x05 :: l.encoding) = decodeOne l.encoding := unpack_packMark _
  refine ⟨fun hd => ?_, fun hd => ?_, Node.respaced_eq_self⟩
  · have hone := decodeOne_encoding hs (by rw [hdepth]; exact hd)
    rw [hunpack, hone, hn]
    exact ⟨rfl, rfl⟩
  · have hone := decodeOne_encoding_of_lt hs (by rw [hdepth]; exact hd)
    rw [hunpack, hone]
    exact ⟨rfl, rfl⟩

theorem decodeOne_of_encode_unit :
    encode (.prim "Unit" [] ["%a b"]) = .ok [4, 11, 0, 0, 0, 4, 37, 97, 32, 98]
      ∧ decodeOne [4, 11, 0, 0, 0, 4, 37, 97, 32, 98] = .ok (.prim "Unit" [] ["%a", "b"]) := by
  have h : encode (.prim "Unit" [] ["%a b"]) = .ok [4, 11, 0, 0, 0, 4, 37, 97, 32, 98] := by
    decide +kernel
  refine ⟨h, ((decodeOne_of_encode h).1 (by decide)).1.trans ?_⟩
  decide +kernel

/-! ### Writing what was read -/

/-- The expression of the layout can be written, in at most as many bytes, and in the same
bytes where the layout is canonical. -/
def IsRewritten (l : Layout) : Prop :=
  ∃ b, encode l.node = .ok b ∧ b.length ≤ l.encoding.length ∧ (b = l.encoding ↔ l.IsCanonical)

/-- Up to two arguments an application is written with a tag that counts them. -/
theorem encode_prim_short {name : String} {code : UInt8} {args : List Node}
    {annots : List String} {body after : Bytes} (hname : Keyword.name? code.toNat = some name)
    (hargs : encodeAll args = .ok body) (hcount : args.length ≤ 2)
    (hafter : annotsIfAny annots = .ok after) :
    encode (.prim name args annots)
      = .ok (primTag args.length (!annots.isEmpty) :: code :: (body ++ after)) := by
  rw [encode, Keyword.name?_eq_some_iff.1 hname]
  show (encodeAll args >>= _) = _
  rw [hargs]
  show (if args.length ≤ 2 then annotsIfAny annots >>= _ else _) = _
  rw [if_pos hcount, hafter, UInt8.ofNat_toNat]
  rfl

/-- With more arguments an application is written with the lengths of its parts. -/
theorem encode_prim_long {name : String} {code : UInt8} {args : List Node}
    {annots : List String} {body : Bytes} (hname : Keyword.name? code.toNat = some name)
    (hargs : encodeAll args = .ok body) (hcount : ¬ args.length ≤ 2)
    (hbody : body.length < lengthBound) (hannots : (annotText annots).length < lengthBound) :
    encode (.prim name args annots)
      = .ok (0x09 :: code :: (sized body ++ sized (annotText annots))) := by
  rw [encode, Keyword.name?_eq_some_iff.1 hname]
  show (encodeAll args >>= _) = _
  rw [hargs]
  show (if args.length ≤ 2 then _ else withLength body >>= _) = _
  rw [if_neg hcount, withLength_eq_ok_iff.2 ⟨hbody, rfl⟩]
  show (withLength (annotText annots) >>= _) = _
  rw [withLength_eq_ok_iff.2 ⟨hannots, rfl⟩, UInt8.ofNat_toNat]
  rfl

/-- Two parts that are no longer than two others make up the same whole only if they are
the same. -/
theorem append_eq_append_iff_of_length_le {a b c d : Bytes} (hac : a.length ≤ c.length)
    (hbd : b.length ≤ d.length) : a ++ b = c ++ d ↔ a = c ∧ b = d := by
  constructor
  · intro h
    have hlen := congrArg List.length h
    rw [List.length_append, List.length_append] at hlen
    exact List.append_inj h (by omega)
  · rintro ⟨rfl, rfl⟩
    rfl

theorem encodeAll_nodes {ls : List Layout} (h : ∀ l ∈ ls, IsRewritten l) :
    ∃ b, encodeAll (nodes ls) = .ok b ∧ b.length ≤ (encodings ls).length
      ∧ (b = encodings ls ↔ ∀ l ∈ ls, l.IsCanonical) := by
  induction ls with
  | nil => exact ⟨[], rfl, Nat.le_refl _, by simp [encodings]⟩
  | cons l ls ih =>
    obtain ⟨⟨first, hfirst, hlen, hcan⟩, hls⟩ := List.forall_mem_cons.1 h
    obtain ⟨rest, hrest, hlen', hcan'⟩ := ih hls
    refine ⟨first ++ rest, ?_, ?_, ?_⟩
    · rw [nodes, encodeAll, hfirst, hrest]
      rfl
    · rw [encodings, List.length_append, List.length_append]
      omega
    · rw [encodings, append_eq_append_iff_of_length_le hlen hlen', hcan, hcan',
        List.forall_mem_cons]

/-- Words are put together to the text that they were taken from exactly if that has single
spaces. -/
theorem annotText_words_eq_iff {text : String} :
    annotText (words text) = Utf8.encode text ↔ IsTight text := by
  rw [← join_words_eq_iff]
  constructor
  · intro h
    have h' := congrArg Utf8.decode? h
    rw [annotText, Utf8.decode?_encode, Utf8.decode?_encode] at h'
    exact Option.some.inj h'
  · intro h
    rw [annotText, h]

theorem primTag_ne {k : Nat} (hk : k ≤ 2) :
    primTag k false ≠ primTag k true ∧ ∀ annotated, primTag k annotated ≠ 0x09 := by
  obtain rfl | rfl | rfl : k = 0 ∨ k = 1 ∨ k = 2 := by omega
  all_goals decide

theorem length_sized_le {a b : Bytes} (h : a.length ≤ b.length) :
    (sized a).length ≤ (sized b).length := by
  rw [length_sized, length_sized]
  omega

section Applications

variable {name : String} {code : UInt8} {args : List Layout}

theorem isRewritten_prim_bare (hname : Keyword.name? code.toNat = some name)
    (hcount : args.length ≤ 2) (hargs : ∀ l ∈ args, IsRewritten l) :
    IsRewritten (.prim name code args none) := by
  obtain ⟨body, hbody, hlen, hcan⟩ := encodeAll_nodes hargs
  have hcount' : (nodes args).length ≤ 2 := by rwa [length_nodes]
  refine ⟨_, encode_prim_short hname hbody hcount' rfl, ?_, ?_⟩
  · simpa [encoding] using hlen
  · rw [isCanonical_prim_iff, ← hcan]
    simp [encoding, length_nodes]

/-- The tag announces annotations, but there are none. -/
theorem isRewritten_prim_blank {text : String} (hname : Keyword.name? code.toNat = some name)
    (hcount : args.length ≤ 2) (hw : words text = []) (hargs : ∀ l ∈ args, IsRewritten l) :
    IsRewritten (.prim name code args (some text)) := by
  obtain ⟨body, hbody, hlen, -⟩ := encodeAll_nodes hargs
  have hcount' : (nodes args).length ≤ 2 := by rwa [length_nodes]
  have hafter : annotsIfAny (words text) = .ok [] := by
    rw [hw]
    rfl
  refine ⟨_, encode_prim_short hname hbody hcount' hafter, ?_, ?_⟩
  · simp only [encoding, List.length_cons, List.length_append, List.length_nil]
    omega
  · -- the tags differ, and the layout is not canonical
    rw [Option.elim_some, hw, encoding, length_nodes, isCanonical_prim_iff]
    constructor
    · intro h
      exact absurd (List.cons.inj h).1 (primTag_ne hcount).1
    · rintro ⟨-, hb⟩
      exact absurd hw (hb text rfl).1

/-- A blob of words is written again with single spaces, so it does not get longer. -/
theorem isRewritten_prim_words {text : String} (hname : Keyword.name? code.toNat = some name)
    (hcount : args.length ≤ 2) (hw : words text ≠ [])
    (htext : (Utf8.encode text).length < lengthBound) (hargs : ∀ l ∈ args, IsRewritten l) :
    IsRewritten (.prim name code args (some text)) := by
  obtain ⟨body, hbody, hlen, hcan⟩ := encodeAll_nodes hargs
  have hcount' : (nodes args).length ≤ 2 := by rwa [length_nodes]
  have hle := length_encode_join_words_le text
  have hafter : annotsIfAny (words text) = .ok (sized (annotText (words text))) :=
    annotsIfAny_eq_ok_iff.2 (.inr ⟨hw, by omega, rfl⟩)
  have hsized : (sized (annotText (words text))).length ≤ (sized (Utf8.encode text)).length :=
    length_sized_le hle
  refine ⟨_, encode_prim_short hname hbody hcount' hafter, ?_, ?_⟩
  · simp only [encoding, Option.elim_some, List.length_cons, List.length_append]
    omega
  · -- tag and code agree, so that the arguments and the text have to
    have he : (words text).isEmpty = false := by simpa using hw
    have hblobs : (∀ t ∈ some text, words t ≠ [] ∧ IsTight t) ↔ IsTight text := by
      simp [hw]
    rw [Option.elim_some, he, encoding, length_nodes, isCanonical_prim_iff, hblobs,
      Bool.not_false, Option.isSome_some, Option.elim_some, List.cons_inj_right,
      List.cons_inj_right, append_eq_append_iff_of_length_le hlen hsized, hcan,
      sized_injective, annotText_words_eq_iff]

theorem isRewritten_prim {blob : Option String} (hname : Keyword.name? code.toNat = some name)
    (hcount : args.length ≤ 2)
    (hblob : ∀ text ∈ blob, (Utf8.encode text).length < lengthBound)
    (hargs : ∀ l ∈ args, IsRewritten l) : IsRewritten (.prim name code args blob) := by
  rcases blob with - | text
  · exact isRewritten_prim_bare hname hcount hargs
  · by_cases hw : words text = []
    · exact isRewritten_prim_blank hname hcount hw hargs
    · exact isRewritten_prim_words hname hcount hw (hblob text rfl) hargs

/-- Writing takes a short tag, and the length of the arguments goes. -/
theorem isRewritten_general_short {blob : String} (hname : Keyword.name? code.toNat = some name)
    (hcount : args.length ≤ 2) (hblob : (Utf8.encode blob).length < lengthBound)
    (hargs : ∀ l ∈ args, IsRewritten l) : IsRewritten (.general name code args blob) := by
  obtain ⟨body, hbody, hlen, -⟩ := encodeAll_nodes hargs
  have hcount' : (nodes args).length ≤ 2 := by rwa [length_nodes]
  have hle := length_encode_join_words_le blob
  -- Without annotations the short tag stands alone, where the long one has an empty text.
  obtain ⟨after, hafter, hshort⟩ : ∃ after, annotsIfAny (words blob) = .ok after
      ∧ after.length ≤ (sized (Utf8.encode blob)).length := by
    by_cases hw : words blob = []
    · exact ⟨[], annotsIfAny_eq_ok_iff.2 (.inl ⟨hw, rfl⟩), Nat.zero_le _⟩
    · exact ⟨_, annotsIfAny_eq_ok_iff.2 (.inr ⟨hw, by omega, rfl⟩), length_sized_le hle⟩
  refine ⟨_, encode_prim_short hname hbody hcount' hafter, ?_, ?_⟩
  · simp only [encoding, List.length_cons, List.length_append, length_sized] at hshort ⊢
    omega
  · rw [encoding, isCanonical_general_iff]
    constructor
    · intro h
      exact absurd (List.cons.inj h).1 ((primTag_ne hcount').2 _)
    · rintro ⟨-, hmany, -⟩
      omega

/-- A long application that needs to be long is written as one again. -/
theorem isRewritten_general_long {blob : String} (hname : Keyword.name? code.toNat = some name)
    (hcount : 3 ≤ args.length) (hbound : (encodings args).length < lengthBound)
    (hblob : (Utf8.encode blob).length < lengthBound)
    (hargs : ∀ l ∈ args, IsRewritten l) : IsRewritten (.general name code args blob) := by
  obtain ⟨body, hbody, hlen, hcan⟩ := encodeAll_nodes hargs
  have hcount' : ¬ (nodes args).length ≤ 2 := by
    rw [length_nodes]
    omega
  have hle := length_encode_join_words_le blob
  refine ⟨_, encode_prim_long hname hbody hcount' (by omega) (by omega), ?_, ?_⟩
  · simp only [encoding, List.length_cons, List.length_append, length_sized]
    omega
  · rw [encoding, isCanonical_general_iff, List.cons_inj_right, List.cons_inj_right,
      append_eq_append_iff_of_length_le (length_sized_le hlen) (length_sized_le hle),
      sized_injective, sized_injective, hcan, annotText_words_eq_iff]
    simp [hcount]

theorem isRewritten_general {blob : String} (hname : Keyword.name? code.toNat = some name)
    (hbound : (encodings args).length < lengthBound)
    (hblob : (Utf8.encode blob).length < lengthBound)
    (hargs : ∀ l ∈ args, IsRewritten l) : IsRewritten (.general name code args blob) := by
  rcases Nat.lt_or_ge 2 args.length with hcount | hcount
  · exact isRewritten_general_long hname hcount hbound hblob hargs
  · exact isRewritten_general_short hname hcount hblob hargs

end Applications

/-- **Writing the expression of a layout.** -/
theorem isRewritten_of_isSound {l : Layout} (hs : l.IsSound) : IsRewritten l := by
  induction hs with
  | @int value digits h =>
    refine ⟨_, rfl, ?_, ?_⟩
    -- the integer is written in as few bytes as it needs
    · have := Integer.length_encode_le h
      simp only [encoding, List.length_cons]
      omega
    · rw [encoding, List.cons_inj_right, Integer.encode_eq_iff_isMinimal h]
      exact ⟨.int, fun hc => by cases hc; assumption⟩
  | @string text h =>
    refine ⟨encoding (.string text), ?_, Nat.le_refl _, fun _ => .string, fun _ => rfl⟩
    rw [node, encode, withLength_eq_ok_iff.2 ⟨h, rfl⟩]
    rfl
  | @bytes data h =>
    refine ⟨encoding (.bytes data), ?_, Nat.le_refl _, fun _ => .bytes, fun _ => rfl⟩
    rw [node, encode, withLength_eq_ok_iff.2 ⟨h, rfl⟩]
    rfl
  | @seq items hitems h ih =>
    -- the items together, in no more bytes than before
    obtain ⟨body, hbody, hlen, hcan⟩ := encodeAll_nodes ih
    refine ⟨0x02 :: sized body, ?_, ?_, ?_⟩
    · rw [node, encode, hbody]
      show (withLength body >>= _) = _
      rw [withLength_eq_ok_iff.2 ⟨by omega, rfl⟩]
      rfl
    · simp only [encoding, List.length_cons, length_sized]
      omega
    · rw [encoding, List.cons_inj_right, sized_injective, hcan, isCanonical_seq_iff]
  | prim hargs hname hcount hblob ih => exact isRewritten_prim hname hcount hblob ih
  | general hargs hname h hblob ih => exact isRewritten_general hname h hblob ih

/-! ### Whole data -/

mutual

/-- What was read has words for annotations. -/
theorem isSpaced_node : ∀ l : Layout, l.node.IsSpaced
  | .int _ _ | .string _ | .bytes _ => nofun
  | .seq items => by
    rw [node, Node.isSpaced_seq_iff]
    exact isSpaced_nodes items
  | .prim name code args blob => by
    rw [node, Node.isSpaced_prim_iff]
    refine ⟨fun a ha => ?_, isSpaced_nodes args⟩
    rcases blob with - | text
    · cases ha
    · exact isWord_of_mem_words ha
  | .general name code args blob => by
    rw [node, Node.isSpaced_prim_iff]
    exact ⟨fun a ha => isWord_of_mem_words ha, isSpaced_nodes args⟩

theorem isSpaced_nodes : ∀ ls : List Layout, ∀ n ∈ nodes ls, n.IsSpaced
  | [] => nofun
  | l :: ls => List.forall_mem_cons.2 ⟨isSpaced_node l, isSpaced_nodes ls⟩

end

/-- Bytes decode exactly if they are the encodings of layouts that fit in. -/
theorem decode_eq_ok_iff {d : Bytes} {ns : List Node} :
    decode d = .ok ns ↔ ∃ ls, (∀ l ∈ ls, FitsIn maxDepth l) ∧ nodes ls = ns ∧ d = encodings ls :=
  readAll_eq_ok_iff (reads_readNode maxDepth)

/-- Nodes are encoded one by one. -/
theorem encodeAll_eq_ok_iff {ns : List Node} {b : Bytes} :
    encodeAll ns = .ok b ↔ ∃ parts, ns.mapM encode = .ok parts ∧ parts.flatten = b := by
  induction ns generalizing b with
  | nil =>
    constructor
    · intro h
      exact ⟨[], rfl, Except.ok.inj h⟩
    · rintro ⟨parts, hp, rfl⟩
      obtain rfl := Except.ok.inj hp
      rfl
  | cons n ns ih =>
    rw [encodeAll, List.mapM_cons, bind_eq_ok_iff]
    constructor
    · rintro ⟨first, hfirst, h⟩
      obtain ⟨rest, hrest, h⟩ := bind_eq_ok_iff.1 h
      obtain rfl := pure_eq_ok_iff.1 h
      obtain ⟨parts, hp, rfl⟩ := ih.1 hrest
      exact ⟨first :: parts, by rw [hfirst, hp]; rfl, rfl⟩
    · rintro ⟨parts, hp, rfl⟩
      obtain ⟨first, hfirst, h⟩ := bind_eq_ok_iff.1 hp
      obtain ⟨rest, hrest, h⟩ := bind_eq_ok_iff.1 h
      obtain rfl := pure_eq_ok_iff.1 h
      exact ⟨first, hfirst, by rw [ih.2 ⟨rest, hrest, rfl⟩]; rfl⟩

/-- The data is made of canonical layouts. -/
def IsCanonicalData (d : Bytes) : Prop :=
  ∃ ls : List Layout, (∀ l ∈ ls, l.IsSound ∧ l.IsCanonical) ∧ encodings ls = d

/-- Layouts of data that can be read are no deeper than the reader goes. -/
theorem nodes_of_decode {ls : List Layout} {ns : List Node} (hs : ∀ l ∈ ls, l.IsSound)
    (h : decode (encodings ls) = .ok ns) : nodes ls = ns := by
  rcases Nat.lt_or_ge maxDepth (Node.depthAll (nodes ls)) with hdeep | hd
  · have herr : decode (encodings ls) = .error (.tooDeep maxDepth) :=
      readUntilEnd_tooDeep (rejectsDeeper maxDepth) hs hdeep (Nat.le_refl _)
    rw [herr] at h
    cases h
  · rw [decode_eq_ok_iff.2 ⟨ls, fitsIn_args hs hd, rfl, rfl⟩] at h
    exact Except.ok.inj h

/-- An expression whose annotations are words is read back from its bytes as it is. -/
theorem decode_of_encode {n : Node} {b : Bytes} (h : encode n = .ok b) (hd : n.depth ≤ maxDepth)
    (hs : n.IsSpaced) : decode b = .ok [n] ∧ unpack (packMark :: b) = .ok n := by
  obtain ⟨l, hl, rfl, hn⟩ := exists_layout_of_encode h
  rw [Node.respaced_eq_self hs] at hn
  have hdepth : l.node.depth ≤ maxDepth := by rwa [hn]
  constructor
  · refine decode_eq_ok_iff.2 ⟨[l], by simpa using ⟨hl, hdepth⟩, by rw [nodes, nodes, hn], ?_⟩
    rw [encodings, encodings, List.append_nil]
  · rw [unpack_packMark, decodeOne_encoding hl hdepth, hn]

/-- **Reading, then writing.**  What was read can be written, in no more bytes than it was
read from; the bytes read as the same expressions, and they are the ones that it was read
from exactly if these are canonical. -/
theorem encode_of_decode {d : Bytes} {ns : List Node} (h : decode d = .ok ns) :
    ∃ parts, ns.mapM encode = .ok parts ∧ parts.flatten.length ≤ d.length
      ∧ decode parts.flatten = .ok ns ∧ (parts.flatten = d ↔ IsCanonicalData d) := by
  obtain ⟨ls, hfit, hn, hd⟩ := decode_eq_ok_iff.1 h
  obtain ⟨b, hb, hlen, hcan⟩ := encodeAll_nodes fun l hl => isRewritten_of_isSound (hfit l hl).1
  rw [hn] at hb
  obtain ⟨parts, hparts, rfl⟩ := encodeAll_eq_ok_iff.1 hb
  refine ⟨parts, hparts, hd ▸ hlen, ?_, ?_⟩
  · -- the annotations that were read are words, so that nothing is respaced
    obtain ⟨ms, hs, henc, hms⟩ := exists_layouts_of_encodeAll hb
    have hspaced : Node.respacedAll ns = ns :=
      Node.respacedAll_eq_self (hn ▸ isSpaced_nodes ls)
    have hdepth : Node.depthAll (nodes ms) ≤ maxDepth := by
      rw [hms, hspaced, ← hn]
      exact depthAll_of_fitsIn hfit
    exact decode_eq_ok_iff.2 ⟨ms, fitsIn_args hs hdepth, by rw [hms, hspaced], henc.symm⟩
  · constructor
    · intro he
      rw [hd] at he ⊢
      exact ⟨ls, fun l hl => ⟨(hfit l hl).1, hcan.1 he l hl⟩, rfl⟩
    -- the data of canonical layouts is written by the expressions that are read from it
    · rintro ⟨ms, hms, rfl⟩
      have hns := nodes_of_decode (fun l hl => (hms l hl).1) h
      obtain ⟨b, hb', -, hcan'⟩ :=
        encodeAll_nodes fun l hl => isRewritten_of_isSound (hms l hl).1
      rw [hns, hb] at hb'
      obtain rfl := Except.ok.inj hb'
      exact hcan'.2 fun l hl => (hms l hl).2

/-- The tag 09 without arguments is read and written again as the tag 03, so that the data
was not canonical. -/
theorem encode_of_decode_unit :
    decode [9, 11, 0, 0, 0, 0, 0, 0, 0, 0] = .ok [.prim "Unit" [] []]
      ∧ decode [3, 11] = .ok [.prim "Unit" [] []]
      ∧ ¬ IsCanonicalData [9, 11, 0, 0, 0, 0, 0, 0, 0, 0] := by
  have h : decode [9, 11, 0, 0, 0, 0, 0, 0, 0, 0] = .ok [.prim "Unit" [] []] := by
    decide +kernel
  obtain ⟨parts, hparts, -, hdecode, hcan⟩ := encode_of_decode h
  have hwritten : [Node.prim "Unit" [] []].mapM encode = .ok [[3, 11]] := by decide +kernel
  rw [hwritten] at hparts
  obtain rfl := Except.ok.inj hparts
  exact ⟨h, hdecode, fun hc => absurd (hcan.2 hc) (by decide)⟩

end Micheline.Binary
