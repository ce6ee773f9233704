/-
Micheline/Proofs/CommandLine/Binary.lean

Bytes through the commands.  The expressions of some bytes are written as a document, which is
read again and written as bytes (`CommandLine.document_round_trip`).

These are the bytes that it began with unless they are those of a sequence of a single item.
The document of a sequence is that of the list of its items, and a list of one expression is
written as the expression; so the sequence around it is lost.  And the text of a document may
nest less deeply than the bytes.
-/
import Micheline.CommandLine.Run
import Micheline.Proofs.Binary.RoundTrip
import Micheline.Proofs.Node.Text

namespace Micheline

/-! ### Documents and lists of expressions -/

namespace Node

theorem sizeOf_lt_of_seq (items : List Node) : items ≠ [.seq items] := by
  intro h
  have hsize := congrArg sizeOf h
  simp only [List.cons.sizeOf_spec, List.nil.sizeOf_spec, seq.sizeOf_spec] at hsize
  omega

/-- **The expressions of a document are read back** unless they are a single sequence. -/
theorem ofDocument_document_eq_ok_iff (ns : List Node) :
    ofDocument (document ns) = .ok ns ↔ ∀ items, ns ≠ [.seq items] := by
  rw [ofDocument_document]
  constructor
  · rintro h items rfl
    exact sizeOf_lt_of_seq items (Except.ok.inj h)
  · intro h
    rw [opened]
    exact h

end Node

namespace Binary

open Node (opened)

/-- The bytes of a sequence of a single item. -/
theorem encode_seq_singleton_eq_ok_iff {x : Node} {b : Bytes} :
    encode (.seq [x]) = .ok b ↔ ∃ c, encode x = .ok c ∧ c.length < lengthBound
      ∧ b = 0x02 :: sized c := by
  have hbody : encodeAll [x] = encode x := by
    rw [encodeAll, encodeAll]
    cases encode x with
    | error e => rfl
    | ok c => exact congrArg Except.ok (List.append_nil c)
  rw [encode, hbody, bind_eq_ok_iff]
  refine exists_congr fun c => and_congr_right fun _ => ?_
  rw [bind_eq_ok_iff]
  constructor
  · rintro ⟨data, hdata, h⟩
    obtain rfl := pure_eq_ok_iff.1 h
    obtain ⟨hlen, rfl⟩ := withLength_eq_ok_iff.1 hdata
    exact ⟨hlen, rfl⟩
  · rintro ⟨hlen, rfl⟩
    exact ⟨_, withLength_eq_ok_iff.2 ⟨hlen, rfl⟩, rfl⟩

/-- The bytes of what is read from the document of an expression. -/
theorem encodeDocument_opened {n : Node} (h : ∀ x, n ≠ .seq [x]) :
    encodeDocument (opened [n]) = encode n := by
  match n with
  | .int _ | .string _ | .bytes _ | .prim _ _ _ => rfl
  | .seq [] => rfl
  | .seq [x] => exact absurd rfl (h x)
  | .seq (x :: y :: items) => rfl

/-- A document that holds one node is encoded as the node, unless that is a list of one. -/
theorem encodeDocument_opened_eq_ok_iff {n : Node} {b : Bytes} (h : encode n = .ok b) :
    encodeDocument (opened [n]) = .ok b ↔ ∀ x, n ≠ .seq [x] := by
  constructor
  · rintro hb x rfl
    obtain ⟨c, hc, -, rfl⟩ := encode_seq_singleton_eq_ok_iff.1 h
    -- the item alone has five bytes fewer
    have hlen := congrArg List.length (Except.ok.inj (hc.symm.trans hb))
    simp only [sized, List.length_cons, List.length_append] at hlen
    omega
  · intro hn
    rw [encodeDocument_opened hn, h]

end Binary

namespace CommandLine

/-! ### Commands -/

/-- The text that a path names, or why it cannot be read. -/
def Inputs.text (inputs : Inputs) (path : String) : Source :=
  if path = "-" then inputs.stdin else inputs.file path

variable {now : Int} {inputs : Inputs} {path text out : String} {pretty : Bool}

/-- A command reads its input, from a path or from what is left of the standard input. -/
theorem readInput_eq_ok (h : inputs.text path = .ok text) :
    ∃ left, (readInput inputs path).run inputs.stdin = .ok (text, left) := by
  rw [Inputs.text] at h
  unfold readInput
  split at h
  next hpath =>
    rw [if_pos hpath]
    exact ⟨.ok "", by rw [h]; rfl⟩
  next hpath =>
    rw [if_neg hpath]
    exact ⟨inputs.stdin, by rw [h]; rfl⟩

/-- **A command that reads one input** goes on with the text. -/
theorem exists_run_eq {i : Invocation} {f : String → Action String}
    (hi : perform now inputs i = readInput inputs path >>= f) (h : inputs.text path = .ok text) :
    ∃ left, run now inputs i = ((f text).run left).map (·.1) := by
  obtain ⟨left, hread⟩ := readInput_eq_ok h
  refine ⟨left, ?_⟩
  rw [run, hi, StateT.run_bind, hread]
  show ((f text).run left >>= fun r => pure r.1) = _
  cases (f text).run left <;> rfl

theorem run_attempt_bind_eq_ok_iff {α β : Type} {x : Except Error α} {f : α → Action β}
    {left : Source} {r : β × Source} :
    (attempt x >>= f).run left = .ok r ↔ ∃ a, x = .ok a ∧ (f a).run left = .ok r := by
  cases x with
  | error e => exact ⟨nofun, nofun⟩
  | ok a => exact ⟨fun h => ⟨a, rfl, h⟩, fun ⟨_, ha, h⟩ => Except.ok.inj ha ▸ h⟩

/-- What the encoding command prints. -/
theorem run_encode_eq_ok_iff (h : inputs.text path = .ok text) :
    run now inputs ⟨pretty, .encode path⟩ = .ok out
      ↔ ∃ ns b, Node.parse text = .ok ns ∧ Binary.encodeDocument ns = .ok b
        ∧ line (Hex.encode b) = out := by
  have hi : perform now inputs ⟨pretty, .encode path⟩ = readInput inputs path >>= fun text => do
      let ns ← attempt (lift .node (Node.parse text))
      return line (Hex.encode (← attempt (lift .binary (Binary.encodeDocument ns)))) := by
    rw [← bind_assoc]
    rfl
  obtain ⟨left, hrun⟩ := exists_run_eq hi h
  rw [hrun, map_eq_ok_iff]
  simp only [run_attempt_bind_eq_ok_iff, lift_eq_ok_iff]
  constructor
  · rintro ⟨r, ⟨ns, hns, b, hb, hr⟩, rfl⟩
    obtain rfl := Except.ok.inj hr
    exact ⟨ns, b, hns, hb, rfl⟩
  · rintro ⟨ns, b, hns, hb, rfl⟩
    exact ⟨_, ⟨ns, hns, b, hb, rfl⟩, rfl⟩

/-- What the decoding command prints. -/
theorem run_decode_eq_ok (h : inputs.text path = .ok text) {ns : List Node}
    (hns : Binary.decodeHex (trimBlank text) = .ok ns) :
    run now inputs ⟨pretty, .decode path⟩ = .ok (document pretty (Node.document ns)) := by
  have hi : perform now inputs ⟨pretty, .decode path⟩ = readInput inputs path >>= fun text => do
      return document pretty (Node.document (← decodeText (trimBlank text))) := rfl
  obtain ⟨left, hrun⟩ := exists_run_eq hi h
  rw [hrun, decodeText, hns]
  rfl

/-! ### There and back -/

theorem decodeHex_line {b : Bytes} {ns : List Node} (h : Binary.decode b = .ok ns) :
    Binary.decodeHex (trimBlank (line (Hex.encode b))) = .ok ns := by
  have hblank : ∀ c ∈ "\n".toList, isBlank c = true := by
    intro c hc
    obtain rfl : c = '\n' := by simpa using hc
    rfl
  have htrim : trimBlank (line (Hex.encode b)) = Hex.encode b := by
    rw [line, trimBlank_append hblank, Hex.trimBlank_encode]
  rw [htrim, Binary.decodeHex, Binary.ofHex, Hex.dropMarkers_encode, Hex.decode_encode]
  exact h

theorem line_injective {a b : String} (h : line a = line b) : a = b := by
  have hchars := congrArg String.toList h
  simp only [line, String.toList_append] at hchars
  exact String.toList_inj.1 (List.append_cancel_right hchars)

/-- The text of a document is read as what is read from the document. -/
theorem parse_document (pretty : Bool) (ns : List Node) :
    Node.parse (document pretty (Node.document ns))
      = if (Node.document ns).nesting ≤ Json.maxNesting then .ok (Node.opened ns)
        else .error .malformed := by
  refine Node.parse_text ns ?_ (Json.isPassed_newLine 0)
  cases pretty
  · exact .inl rfl
  · exact .inr rfl

/-- **The bytes of an expression are written from its document** unless it is a sequence of a
single item or the document nests too deeply for a text. -/
theorem run_encode_document_eq_ok_iff {n : Node} {b : Bytes} {indented : Bool}
    (hb : Binary.encode n = .ok b)
    (h : inputs.text path = .ok (document indented (Node.document [n]))) :
    run now inputs ⟨pretty, .encode path⟩ = .ok (line (Hex.encode b))
      ↔ (Node.document [n]).nesting ≤ Json.maxNesting ∧ ∀ x, n ≠ .seq [x] := by
  rw [run_encode_eq_ok_iff h, parse_document]
  constructor
  · rintro ⟨ns, c, hns, hc, hline⟩
    obtain rfl := Hex.encode_injective (line_injective hline)
    split at hns
    next hle =>
      obtain rfl := Except.ok.inj hns
      exact ⟨hle, (Binary.encodeDocument_opened_eq_ok_iff hb).1 hc⟩
    next => cases hns
  · rintro ⟨hle, hn⟩
    exact ⟨_, b, if_pos hle, (Binary.encodeDocument_opened_eq_ok_iff hb).2 hn, rfl⟩

/-- **From bytes to a document and back.**  The bytes of an expression are written again from
the document of what is read from them exactly if it is not a sequence of a single item; of such
a sequence they are the bytes of the item.  The same holds of the commands, one reading what the
other wrote, if the document does not nest too deeply for a text.  The reason is that a document
has the expressions that it was made of unless they are a single sequence. -/
theorem document_round_trip {n : Node} {b : Bytes} (hb : Binary.encode n = .ok b)
    (hdepth : n.depth ≤ 1000) (hspaced : n.IsSpaced) :
    (∃ ns ms, Binary.decode b = .ok ns ∧ Node.ofDocument (Node.document ns) = .ok ms
        ∧ (Binary.encodeDocument ms = .ok b ↔ ∀ x, n ≠ .seq [x])
        ∧ ∀ x, n = .seq [x] →
          ∃ c, Binary.encodeDocument ms = .ok c ∧ b = 0x02 :: (Binary.fourBytes c.length ++ c))
      ∧ (∀ {now : Int} {inputs : Inputs} {path : String} {pretty : Bool},
        inputs.text path = .ok (line (Hex.encode b)) →
        ∃ out, run now inputs ⟨pretty, .decode path⟩ = .ok out
          ∧ ∀ {now : Int} {inputs : Inputs} {path : String} {pretty : Bool},
            inputs.text path = .ok out →
            (run now inputs ⟨pretty, .encode path⟩ = .ok (line (Hex.encode b))
              ↔ (Node.document [n]).nesting ≤ Json.maxNesting ∧ ∀ x, n ≠ .seq [x]))
      ∧ ∀ ns, Node.ofDocument (Node.document ns) = .ok ns ↔ ∀ items, ns ≠ [.seq items] := by
  obtain ⟨hdecode, -⟩ := Binary.decode_of_encode hb hdepth hspaced
  refine ⟨?_, ?_, Node.ofDocument_document_eq_ok_iff⟩
  · refine ⟨[n], Node.opened [n], hdecode, Node.ofDocument_document [n],
      Binary.encodeDocument_opened_eq_ok_iff hb, ?_⟩
    rintro x rfl
    obtain ⟨c, hc, -, rfl⟩ := Binary.encode_seq_singleton_eq_ok_iff.1 hb
    exact ⟨c, hc, rfl⟩
  · intro now inputs path pretty hin
    refine ⟨_, run_decode_eq_ok hin (decodeHex_line hdecode), ?_⟩
    exact fun hout => run_encode_document_eq_ok_iff hb hout

/-- A sequence of two numbers. -/
theorem document_round_trip_two :
    let n : Node := .seq [.int 1, .int 2]
    let b : Bytes := [2, 0, 0, 0, 4, 0, 1, 0, 2]
    let stdin (text : String) : Inputs := ⟨.ok text, fun _ => .error "missing"⟩
    Binary.encode n = .ok b ∧ n.depth ≤ 1000 ∧ n.IsSpaced
      ∧ (∃ ns ms, Binary.decode b = .ok ns ∧ Node.ofDocument (Node.document ns) = .ok ms
        ∧ Binary.encodeDocument ms = .ok b)
      ∧ ∃ out, run 0 (stdin (line (Hex.encode b))) ⟨true, .decode "-"⟩ = .ok out
        ∧ run 0 (stdin out) ⟨false, .encode "-"⟩ = .ok (line (Hex.encode b)) := by
  intro n b stdin
  have hb : Binary.encode n = .ok b := rfl
  have hdepth : n.depth ≤ 1000 := by decide
  have hspaced : n.IsSpaced := by
    intro a ha
    cases ha
  have hn : ∀ x, n ≠ .seq [x] := by
    intro x
    simp [n]
  obtain ⟨⟨ns, ms, hns, hms, hiff, -⟩, hrun, -⟩ := document_round_trip hb hdepth hspaced
  obtain ⟨out, hout, hback⟩ := @hrun 0 (stdin (line (Hex.encode b))) "-" true rfl
  refine ⟨hb, hdepth, hspaced, ⟨ns, ms, hns, hms, hiff.2 hn⟩, out, hout, ?_⟩
  exact (@hback 0 (stdin out) "-" false rfl).2 ⟨by decide, hn⟩

/-- A sequence of one number comes back as the number. -/
theorem document_round_trip_ne :
    let n : Node := .seq [.int 1]
    let b : Bytes := [2, 0, 0, 0, 2, 0, 1]
    Binary.encode n = .ok b ∧ n.depth ≤ 1000 ∧ n.IsSpaced
      ∧ ∃ ns ms, Binary.decode b = .ok ns ∧ Node.ofDocument (Node.document ns) = .ok ms
        ∧ Binary.encodeDocument ms = .ok [0, 1] := by
  intro n b
  have hb : Binary.encode n = .ok b := rfl
  have hspaced : n.IsSpaced := by
    intro a ha
    cases ha
  have hdecode := (Binary.decode_of_encode hb (by decide) hspaced).1
  exact ⟨hb, by decide, hspaced, [n], [.int 1], hdecode, rfl, rfl⟩

end CommandLine

end Micheline
