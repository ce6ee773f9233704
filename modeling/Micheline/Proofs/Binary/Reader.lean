/-
Micheline/Proofs/Binary/Reader.lean

What the readers of pieces take.  Each lemma is an equivalence: a reader gives `a` and
leaves `rest` exactly where the data is the bytes of `a` followed by `rest`.  So one lemma
serves both ways, to read what was written and to find out what was read.
-/
import Micheline.Proofs.Binary.Integer
import Micheline.Proofs.Text.Words

namespace Micheline.Binary

variable {α β : Type}

/-! ### Steps -/

/-- What a reader gives on some data, and the data that is left. -/
def outcome (x : Reader α) (d : Bytes) : Except Error α × Bytes :=
  x.run.run d

theorem outcome_bind (x : Reader α) (f : α → Reader β) (d : Bytes) :
    outcome (x >>= f) d = match outcome x d with
      | (.ok a, rest) => outcome (f a) rest
      | (.error e, rest) => (.error e, rest) := by
  simp only [outcome, ExceptT.run_bind, StateT.run_bind]
  rcases x.run.run d with ⟨_ | _, rest⟩ <;> rfl

theorem outcome_pure (a : α) (d : Bytes) : outcome (pure a) d = (.ok a, d) := rfl

theorem outcome_throw (e : Error) (d : Bytes) :
    outcome (throw e : Reader α) d = (.error e, d) := rfl

theorem outcome_liftExcept (e : Except Error α) (d : Bytes) :
    outcome (readNode.liftExcept e) d = (e, d) := rfl

theorem outcome_bind_ok {x : Reader α} {f : α → Reader β} {d rest : Bytes} {a : α}
    (h : outcome x d = (.ok a, rest)) : outcome (x >>= f) d = outcome (f a) rest := by
  rw [outcome_bind, h]

theorem outcome_bind_error {x : Reader α} {f : α → Reader β} {d rest : Bytes} {e : Error}
    (h : outcome x d = (.error e, rest)) : outcome (x >>= f) d = (.error e, rest) := by
  rw [outcome_bind, h]

/-- Readers in sequence succeed if the second does on what the first leaves. -/
theorem outcome_bind_eq_ok_iff {x : Reader α} {f : α → Reader β} {d rest : Bytes} {b : β} :
    outcome (x >>= f) d = (.ok b, rest)
      ↔ ∃ a mid, outcome x d = (.ok a, mid) ∧ outcome (f a) mid = (.ok b, rest) := by
  rw [outcome_bind]
  rcases outcome x d with ⟨e | a, mid⟩
  · simp
  · constructor
    · intro h
      exact ⟨a, mid, rfl, h⟩
    · rintro ⟨a', mid', h, h'⟩
      obtain ⟨ha, rfl⟩ := Prod.mk.inj h
      obtain rfl := Except.ok.inj ha
      exact h'

theorem outcome_pure_eq_ok_iff {a b : α} {d rest : Bytes} :
    outcome (pure a) d = (.ok b, rest) ↔ b = a ∧ d = rest := by
  rw [outcome_pure]
  simp [eq_comm]

theorem outcome_liftExcept_eq_ok_iff {e : Except Error α} {a : α} {d rest : Bytes} :
    outcome (readNode.liftExcept e) d = (.ok a, rest) ↔ e = .ok a ∧ d = rest := by
  rw [outcome_liftExcept, Prod.mk.injEq]

theorem outcome_throw_ne_ok {e : Error} {a : α} {d rest : Bytes} :
    outcome (throw e) d ≠ (.ok a, rest) := by
  rw [outcome_throw]
  simp

/-! ### Lengths -/

/-- Bytes behind their length. -/
def sized (body : Bytes) : Bytes :=
  fourBytes body.length ++ body

@[simp] theorem length_fourBytes (n : Nat) : (fourBytes n).length = 4 := rfl

@[simp] theorem length_sized (body : Bytes) : (sized body).length = 4 + body.length := by
  simp [sized]

theorem sized_injective {a b : Bytes} : sized a = sized b ↔ a = b := by
  refine ⟨fun h => ?_, fun h => h ▸ rfl⟩
  exact (List.append_inj h rfl).2

/-- A length is put in front of a body exactly if it fits in four bytes. -/
theorem withLength_eq_ok_iff {body b : Bytes} :
    withLength body = .ok b ↔ body.length < lengthBound ∧ b = sized body := by
  unfold withLength sized
  by_cases h : body.length < lengthBound
  · simp [h, eq_comm]
  · simp [h]

theorem bigEndian_fourBytes {n : Nat} (h : n < lengthBound) : bigEndian (fourBytes n) = n := by
  unfold lengthBound at h
  simp only [bigEndian, fourBytes, List.foldl_cons, List.foldl_nil, UInt8.toNat_ofNat']
  omega

/-- Four bytes are those of the number that they write. -/
theorem fourBytes_bigEndian {d : Bytes} (h : d.length = 4) :
    fourBytes (bigEndian d) = d ∧ bigEndian d < lengthBound := by
  obtain ⟨a, b, c, e, rfl⟩ : ∃ a b c e, d = [a, b, c, e] := by
    rcases d with - | ⟨a, - | ⟨b, - | ⟨c, - | ⟨e, - | ⟨f, d⟩⟩⟩⟩⟩ <;> simp_all
  -- digits to the base 256
  have ha := a.toNat_lt
  have hb := b.toNat_lt
  have hc := c.toNat_lt
  have he := e.toNat_lt
  simp only [bigEndian, fourBytes, List.foldl_cons, List.foldl_nil, lengthBound,
    List.cons.injEq, and_true, ← UInt8.toNat_inj, UInt8.toNat_ofNat']
  omega

/-! ### Pieces -/

theorem outcome_readByte_nil : outcome readByte [] = (.error (.tooFewBytes 1 0), []) := rfl

theorem outcome_readByte_cons (b : UInt8) (rest : Bytes) :
    outcome readByte (b :: rest) = (.ok b, rest) := rfl

theorem readByte_eq_ok_iff {d rest : Bytes} {b : UInt8} :
    outcome readByte d = (.ok b, rest) ↔ d = b :: rest := by
  rcases d with - | ⟨c, d⟩
  · rw [outcome_readByte_nil]
    simp
  · rw [outcome_readByte_cons]
    simp

theorem outcome_readExactly (n : Nat) (d : Bytes) :
    outcome (readExactly n) d
      = if (d.take n).length = n then (.ok (d.take n), d.drop n)
        else (.error (.tooFewBytes n d.length), d) := by
  show outcome (if (d.take n).length = n then set (d.drop n) >>= fun _ => pure (d.take n)
    else throw (.tooFewBytes n d.length)) d = _
  split <;> rfl

/-- A number of bytes is taken off exactly if as many are there. -/
theorem readExactly_eq_ok_iff {n : Nat} {d body rest : Bytes} :
    outcome (readExactly n) d = (.ok body, rest) ↔ body.length = n ∧ d = body ++ rest := by
  rw [outcome_readExactly]
  by_cases h : (d.take n).length = n
  · rw [if_pos h]
    constructor
    · rintro ⟨rfl, rfl⟩
      exact ⟨h, (List.take_append_drop n d).symm⟩
    · rintro ⟨rfl, rfl⟩
      simp
  · rw [if_neg h]
    constructor
    · intro he
      cases he
    · rintro ⟨rfl, rfl⟩
      simp at h

/-- A body is taken off exactly if it stands behind its length. -/
theorem readSized_eq_ok_iff {d body rest : Bytes} :
    outcome readSized d = (.ok body, rest)
      ↔ body.length < lengthBound ∧ d = sized body ++ rest := by
  unfold readSized
  rw [outcome_bind_eq_ok_iff]
  constructor
  · rintro ⟨length, mid, h₁, h₂⟩
    obtain ⟨hl, rfl⟩ := readExactly_eq_ok_iff.1 h₁
    obtain ⟨hb, rfl⟩ := readExactly_eq_ok_iff.1 h₂
    obtain ⟨h₃, h₄⟩ := fourBytes_bigEndian hl
    refine ⟨by omega, ?_⟩
    rw [sized, hb, h₃, List.append_assoc]
  · rintro ⟨h, rfl⟩
    refine ⟨fourBytes body.length, body ++ rest, ?_, ?_⟩
    · rw [readExactly_eq_ok_iff, sized, List.append_assoc]
      exact ⟨rfl, rfl⟩
    · rw [bigEndian_fourBytes h, readExactly_eq_ok_iff]
      exact ⟨rfl, rfl⟩

/-- A text is read exactly if its bytes stand behind their length. -/
theorem readText_eq_ok_iff {d rest : Bytes} {text : String} :
    outcome readText d = (.ok text, rest)
      ↔ (Utf8.encode text).length < lengthBound ∧ d = sized (Utf8.encode text) ++ rest := by
  unfold readText
  rw [outcome_bind_eq_ok_iff]
  constructor
  · rintro ⟨data, mid, h₁, h₂⟩
    obtain ⟨hl, rfl⟩ := readSized_eq_ok_iff.1 h₁
    rcases e : Utf8.decode? data with - | t
    · rw [e] at h₂
      exact absurd h₂ outcome_throw_ne_ok
    · rw [e] at h₂
      obtain ⟨rfl, rfl⟩ := outcome_pure_eq_ok_iff.1 h₂
      obtain rfl := Utf8.decode?_eq_some_iff.1 e
      exact ⟨hl, rfl⟩
  · rintro ⟨h, rfl⟩
    refine ⟨Utf8.encode text, rest, readSized_eq_ok_iff.2 ⟨h, rfl⟩, ?_⟩
    rw [Utf8.decode?_encode]
    rfl

/-- Annotations are the words of a text. -/
theorem readAnnots_eq_ok_iff {d rest : Bytes} {annots : List String} :
    outcome readAnnots d = (.ok annots, rest)
      ↔ ∃ blob, (Utf8.encode blob).length < lengthBound ∧ annots = words blob
          ∧ d = sized (Utf8.encode blob) ++ rest := by
  unfold readAnnots
  rw [outcome_bind_eq_ok_iff]
  constructor
  · rintro ⟨blob, mid, h₁, h₂⟩
    obtain ⟨hl, rfl⟩ := readText_eq_ok_iff.1 h₁
    obtain ⟨rfl, rfl⟩ := outcome_pure_eq_ok_iff.1 h₂
    exact ⟨blob, hl, rfl, rfl⟩
  · rintro ⟨blob, hl, rfl, rfl⟩
    exact ⟨blob, rest, readText_eq_ok_iff.2 ⟨hl, rfl⟩, rfl⟩

/-- A keyword is read exactly if its code stands in front. -/
theorem readKeyword_eq_ok_iff {d rest : Bytes} {name : String} :
    outcome readKeyword d = (.ok name, rest)
      ↔ ∃ code : UInt8, Keyword.name? code.toNat = some name ∧ d = code :: rest := by
  unfold readKeyword
  rw [outcome_bind_eq_ok_iff]
  constructor
  · rintro ⟨code, mid, h₁, h₂⟩
    obtain rfl := readByte_eq_ok_iff.1 h₁
    rcases e : Keyword.name? code.toNat with - | t
    · rw [e] at h₂
      exact absurd h₂ outcome_throw_ne_ok
    · rw [e] at h₂
      obtain ⟨rfl, rfl⟩ := outcome_pure_eq_ok_iff.1 h₂
      exact ⟨code, e, rfl⟩
  · rintro ⟨code, h, rfl⟩
    refine ⟨code, rest, outcome_readByte_cons code rest, ?_⟩
    rw [h]
    rfl

theorem outcome_readInt (d : Bytes) :
    outcome readInt d = match Integer.read d with
      | .ok (value, rest) => (.ok value, rest)
      | .error e => (.error e, d) := by
  show outcome (match Integer.read d with
    | .ok (value, rest) => set rest >>= fun _ => pure value
    | .error e => throw e) d = _
  rcases Integer.read d with e | ⟨value, rest⟩ <;> rfl

/-- A number is read exactly if digits stand in front that it is read of. -/
theorem readInt_eq_ok_iff {d rest : Bytes} {value : Int} :
    outcome readInt d = (.ok value, rest)
      ↔ ∃ digits, Integer.read digits = .ok (value, []) ∧ d = digits ++ rest := by
  have hread : outcome readInt d = (.ok value, rest) ↔ Integer.read d = .ok (value, rest) := by
    rw [outcome_readInt]
    rcases Integer.read d with e | ⟨v, r⟩ <;> simp
  rw [hread, Integer.read_eq_ok_iff]
  exact ⟨fun ⟨digits, h, h'⟩ => ⟨digits, h', h⟩, fun ⟨digits, h, h'⟩ => ⟨digits, h', h⟩⟩

end Micheline.Binary
