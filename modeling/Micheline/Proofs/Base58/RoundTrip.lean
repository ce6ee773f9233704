/-
Micheline/Proofs/Base58/RoundTrip.lean

Base 58 is read back as it was written.  A byte string and its text have the same number of
zeros in front, and what is behind them is one number in two bases, so that nothing is lost
on the way there and back (`Base58.rebase_rebase`).  So bytes and the texts that are read
stand for each other (`Base58.decode_eq_ok_iff`); and so they do with a checksum behind the
bytes, whatever the checksum is (`Base58.decodeChecked_eq_ok_iff`).  A text is read exactly if
its bytes are digits (`Base58.exists_decode_iff`).

The digits of a number are those that the library has, the first one weighing most.
-/
import Mathlib.Data.List.TakeWhile
import Mathlib.Data.Nat.Digits.Lemmas
import Micheline.Base58.Checked
import Micheline.Proofs.Base58.Carry
import Micheline.Proofs.Except
import Micheline.Proofs.Text.Ascii

namespace Micheline.Base58

/-! ### Numbers and digits -/

/-- The number that digits write, the first digit weighing most. -/
def ofDigits (base : Nat) (ds : List Nat) : Nat :=
  Nat.ofDigits base ds.reverse

/-- The digits of a number, the first one weighing most; zero has none. -/
def toDigits (base n : Nat) : List Nat :=
  (Nat.digits base n).reverse

section Digits

variable {base : Nat}

theorem ofDigits_toDigits (base n : Nat) : ofDigits base (toDigits base n) = n := by
  rw [toDigits, ofDigits, List.reverse_reverse, Nat.ofDigits_digits]

/-- Digits without zeros in front are those of their number. -/
theorem toDigits_ofDigits (hb : 1 < base) {ds : List Nat} (hlt : ∀ d ∈ ds, d < base)
    (hhead : ds.head? ≠ some 0) : toDigits base (ofDigits base ds) = ds := by
  have hdigits : Nat.digits base (Nat.ofDigits base ds.reverse) = ds.reverse := by
    apply Nat.digits_ofDigits _ hb
    · intro d hd
      exact hlt d (List.mem_reverse.1 hd)
    · intro hne hlast
      apply hhead
      rw [← List.getLast?_reverse, List.getLast?_eq_some_getLast hne, hlast]
  rw [toDigits, ofDigits, hdigits, List.reverse_reverse]

theorem lt_of_mem_toDigits (hb : 1 < base) {n d : Nat} (h : d ∈ toDigits base n) : d < base := by
  rw [toDigits] at h
  exact Nat.digits_lt_base hb (List.mem_reverse.1 h)

/-- No number is written with a zero in front. -/
theorem head?_toDigits (base n : Nat) : (toDigits base n).head? ≠ some 0 := by
  rw [toDigits, List.head?_reverse]
  intro h
  have hn : n ≠ 0 := by
    rintro rfl
    simp at h
  have hne : Nat.digits base n ≠ [] := Nat.digits_ne_nil_iff_ne_zero.2 hn
  rw [List.getLast?_eq_some_getLast hne] at h
  exact Nat.getLast_digit_ne_zero base hn (Option.some.inj h)

/-- Zeros in front do not count. -/
theorem ofDigits_replicate_append (k : Nat) (ds : List Nat) :
    ofDigits base (List.replicate k 0 ++ ds) = ofDigits base ds := by
  rw [ofDigits, ofDigits, List.reverse_append, List.reverse_replicate,
    Nat.ofDigits_append_replicate_zero]

end Digits

/-! ### Zeros in front -/

theorem takeWhile_replicate_append {k : Nat} {ds : List Nat} (h : ds.head? ≠ some 0) :
    (List.replicate k 0 ++ ds).takeWhile (· == 0) = List.replicate k 0 := by
  rw [List.takeWhile_append_of_pos (by simp)]
  rcases ds with - | ⟨d, ds⟩
  · simp
  · have hd : (d == 0) = false := by simpa using h
    rw [List.takeWhile_cons, hd]
    simp

theorem takeWhile_eq_replicate (ds : List Nat) :
    ds.takeWhile (· == 0) = List.replicate (ds.takeWhile (· == 0)).length 0 :=
  List.eq_replicate_iff.2 ⟨rfl, fun d hd => by simpa using List.mem_takeWhile_imp hd⟩

/-- Leading zeros do not change the number that digits denote. -/
theorem ofDigits_dropWhile (base : Nat) (ds : List Nat) :
    ofDigits base (ds.dropWhile (· == 0)) = ofDigits base ds := by
  conv_rhs => rw [← List.takeWhile_append_dropWhile (p := (· == 0)) (l := ds),
    takeWhile_eq_replicate, ofDigits_replicate_append]

/-- The zeros in front of digits, and the digits behind them. -/
theorem eq_replicate_append (ds : List Nat) :
    ∃ k rest, ds = List.replicate k 0 ++ rest ∧ rest.head? ≠ some 0 := by
  refine ⟨(ds.takeWhile (· == 0)).length, ds.dropWhile (· == 0), ?_, ?_⟩
  · rw [← takeWhile_eq_replicate, List.takeWhile_append_dropWhile]
  · intro h
    have hnot := List.head?_dropWhile_not (· == 0) ds
    rw [h] at hnot
    simp at hnot

/-- Digits in another base, behind as many zeros. -/
def rebase (base base' : Nat) (ds : List Nat) : List Nat :=
  ds.takeWhile (· == 0) ++ toDigits base' (ofDigits base ds)

section Rebase

variable {base base' : Nat} {ds : List Nat}

theorem lt_of_mem_rebase (hb' : 1 < base') {d : Nat} (h : d ∈ rebase base base' ds) :
    d < base' := by
  rcases List.mem_append.1 h with h | h
  · have hzero : d = 0 := by simpa using List.mem_takeWhile_imp h
    omega
  · exact lt_of_mem_toDigits hb' h

/-- One number in two bases, behind as many zeros. -/
theorem rebase_replicate_append {k : Nat} (h : ds.head? ≠ some 0) :
    rebase base base' (List.replicate k 0 ++ ds)
      = List.replicate k 0 ++ toDigits base' (ofDigits base ds) := by
  rw [rebase, takeWhile_replicate_append h, ofDigits_replicate_append]

/-- **Digits come back from another base.** -/
theorem rebase_rebase (hb : 1 < base) (hlt : ∀ d ∈ ds, d < base) :
    rebase base' base (rebase base base' ds) = ds := by
  obtain ⟨k, rest, rfl, hrest⟩ := eq_replicate_append ds
  have hback : toDigits base (ofDigits base rest) = rest :=
    toDigits_ofDigits hb (fun d hd => hlt d (List.mem_append_right _ hd)) hrest
  rw [rebase_replicate_append hrest, rebase_replicate_append (head?_toDigits _ _),
    ofDigits_toDigits, hback]

end Rebase

/-! ### Places -/

theorem map_toNat_map_ofNat {ds : List Nat} (h : ∀ d ∈ ds, d < 256) :
    (ds.map UInt8.ofNat).map UInt8.toNat = ds := by
  rw [List.map_map]
  exact (List.map_congr_left fun d hd => UInt8.toNat_ofNat_of_lt' (h d hd)).trans (List.map_id' _)

/-- Digits in base 58 may come in to make bytes. -/
theorem forall_lt_map_ofNat {ds : List Nat} (h : ∀ d ∈ ds, d < 58) :
    ∀ d ∈ ds.map UInt8.ofNat, d.toNat < Conversion.toBytes.scale.toNat := by
  intro d hd
  obtain ⟨v, hv, rfl⟩ := List.mem_map.1 hd
  rw [UInt8.toNat_ofNat_of_lt' (Nat.lt_trans (h v hv) (by decide))]
  exact h v hv

/-- **The loops write a number in another base.** -/
theorem reverse_places {c : Conversion} {digits : Bytes}
    (h : ∀ d ∈ digits, d.toNat < c.scale.toNat) :
    (c.places digits).reverse
      = (toDigits c.base.toNat (ofDigits c.scale.toNat (digits.map UInt8.toNat))).map
          UInt8.ofNat := by
  rw [Conversion.places_eq h, Round.digitPlaces, ← List.map_reverse]
  rfl

/-- The places that the carry loops leave are the digits of the number in the other base. -/
theorem map_toNat_reverse_places {c : Conversion} {digits : Bytes}
    (h : ∀ d ∈ digits, d.toNat < c.scale.toNat) :
    (c.places digits).reverse.map UInt8.toNat
      = toDigits c.base.toNat (ofDigits c.scale.toNat (digits.map UInt8.toNat)) := by
  rw [Conversion.places_eq h, List.map_reverse, Round.map_toNat_digitPlaces]
  rfl

/-! ### The alphabet -/

/-- A digit has its value; it is an ASCII character other than a percent sign. -/
theorem digit_spec : ∀ v < 58,
    value? (digit v) = some v ∧ (digit v).toNat < 128 ∧ digit v ≠ '%' := by
  decide +kernel

/-- The values of digits are read back from their bytes. -/
theorem values_map_digit (text : String) {vs : List Nat} (h : ∀ v ∈ vs, v < 58) :
    values text ((vs.map digit).map Utf8.code) = .ok vs := by
  induction vs with
  | nil => rfl
  | cons v vs ih =>
    obtain ⟨hv, hvs⟩ := List.forall_mem_cons.1 h
    have hchar : Char.ofNat (Utf8.code (digit v)).toNat = digit v := by
      have hlt := (digit_spec v hv).2.1
      rw [Utf8.code, UInt8.toNat_ofNat', Nat.mod_eq_of_lt (by omega), Char.ofNat_toNat]
    have hvalue : value? (Char.ofNat (Utf8.code (digit v)).toNat) = some v := by
      rw [hchar, (digit_spec v hv).1]
    rw [List.map_cons, List.map_cons, values]
    simp only [hvalue]
    rw [ih hvs]
    rfl

/-- A byte has a value only if it is a digit. -/
theorem digit_of_value? {c : Char} {v : Nat} (h : value? c = some v) : v < 58 ∧ digit v = c := by
  obtain ⟨hv, hc, -⟩ := List.idxOf?_eq_some_iff.1 h
  refine ⟨hv, ?_⟩
  rw [digit, List.getD_eq_getElem?_getD, List.getElem?_eq_getElem hv]
  exact hc

/-- Bytes that have values are digits. -/
theorem eq_of_values {text : String} {data : Bytes} {vs : List Nat}
    (h : values text data = .ok vs) :
    (∀ v ∈ vs, v < 58) ∧ data = (vs.map digit).map Utf8.code := by
  induction data generalizing vs with
  | nil =>
    obtain rfl := Except.ok.inj h
    exact ⟨nofun, rfl⟩
  | cons b data ih =>
    rw [values] at h
    split at h
    next v hv =>
      obtain ⟨rest, hrest, h⟩ := bind_eq_ok_iff.1 h
      obtain rfl := pure_eq_ok_iff.1 h
      obtain ⟨hlt, hdata⟩ := ih hrest
      obtain ⟨hv58, hdigit⟩ := digit_of_value? hv
      have hcode : Utf8.code (digit v) = b := by
        -- A byte is below the surrogates, so the character with its number has that number.
        have hvalid : b.toNat.isValidChar := .inl (Nat.lt_trans b.toNat_lt (by decide))
        have hb : (Char.ofNat b.toNat).toNat = b.toNat := by
          rw [Char.ofNat, dif_pos hvalid]
          rfl
        rw [hdigit, Utf8.code, hb, UInt8.ofNat_toNat]
      refine ⟨List.forall_mem_cons.2 ⟨hv58, hlt⟩, ?_⟩
      rw [List.map_cons, List.map_cons, hcode, ← hdata]
    next => cases h

/-! ### Texts -/

/-- The values of the digits that bytes are written with. -/
def digitsOf (data : Bytes) : List Nat :=
  rebase 256 58 (data.map UInt8.toNat)

theorem lt_of_mem_digitsOf {data : Bytes} : ∀ v ∈ digitsOf data, v < 58 :=
  fun _ => lt_of_mem_rebase (by decide)

theorem toNat_lt_of_mem_digits {vs : List Nat} (h : ∀ v ∈ vs, v < 58) :
    ∀ c ∈ vs.map digit, c.toNat < 128 := by
  intro c hc
  obtain ⟨v, hv, rfl⟩ := List.mem_map.1 hc
  exact (digit_spec v (h v hv)).2.1

theorem isZero_toNat : ((· == 0) ∘ UInt8.toNat) = (· == (0 : UInt8)) := by
  funext b
  exact Bool.eq_iff_iff.2 (by simp [← UInt8.toNat_inj])

/-- The encoder writes the digits of the bytes as characters. -/
theorem encode_eq (data : Bytes) : encode data = String.ofList ((digitsOf data).map digit) := by
  have hzeros : (data.takeWhile (· == 0)).map (fun _ => '1')
      = ((data.map UInt8.toNat).takeWhile (· == 0)).map digit := by
    rw [List.takeWhile_map, List.map_map, isZero_toNat]
    refine List.map_congr_left fun b hb => ?_
    obtain rfl : b = 0 := by simpa using List.mem_takeWhile_imp hb
    rfl
  have hnumber : ofDigits 256 ((data.dropWhile (· == 0)).map UInt8.toNat)
      = ofDigits 256 (data.map UInt8.toNat) := by
    rw [← ofDigits_dropWhile 256 (data.map _), List.dropWhile_map, isZero_toNat]
  have hdigits : (Conversion.ofBytes.places (data.dropWhile (· == 0))).reverse.map UInt8.toNat
      = toDigits 58 (ofDigits 256 (data.map UInt8.toNat)) := by
    rw [map_toNat_reverse_places (c := .ofBytes) fun b _ => b.toNat_lt, ← hnumber]
    rfl
  rw [encode, digitsOf, rebase, List.map_append, ← hzeros, ← hdigits, List.map_map]
  rfl

/-- The decoder rebases the values of the characters. -/
theorem decode_eq {text : String} {vs : List Nat}
    (h : values text (Utf8.encode text) = .ok vs) :
    decode text = .ok ((rebase 58 256 vs).map UInt8.ofNat) := by
  have hzeros : (vs.takeWhile (· == 0)).map (fun _ => (0 : UInt8))
      = (vs.takeWhile (· == 0)).map UInt8.ofNat := by
    refine List.map_congr_left fun v hv => ?_
    obtain rfl : v = 0 := by simpa using List.mem_takeWhile_imp hv
    rfl
  have hlt := (eq_of_values h).1
  have hbytes : (Conversion.toBytes.places (vs.map UInt8.ofNat)).reverse
      = (toDigits 256 (ofDigits 58 vs)).map UInt8.ofNat := by
    rw [reverse_places (forall_lt_map_ofNat hlt), map_toNat_map_ofNat fun v hv =>
      Nat.lt_trans (hlt v hv) (by decide)]
    rfl
  rw [decode, h, rebase, List.map_append, ← hzeros, ← hbytes]
  rfl

/-- No base58 text holds the mark before an entrypoint. -/
theorem percent_notMem_encode (data : Bytes) : '%' ∉ (encode data).toList := by
  rw [encode_eq, String.toList_ofList]
  intro h
  obtain ⟨v, hv, hpercent⟩ := List.mem_map.1 h
  exact (digit_spec v (lt_of_mem_digitsOf v hv)).2.2 hpercent

/-- **Bytes are read back from their text.** -/
theorem decode_encode (data : Bytes) : decode (encode data) = .ok data := by
  have hvalues : values (encode data) (Utf8.encode (encode data)) = .ok (digitsOf data) := by
    rw [encode_eq, Utf8.encode_ofList_of_ascii (toNat_lt_of_mem_digits lt_of_mem_digitsOf)]
    exact values_map_digit _ lt_of_mem_digitsOf
  have hback : rebase 58 256 (digitsOf data) = data.map UInt8.toNat := by
    apply rebase_rebase (by decide)
    intro d hd
    obtain ⟨b, -, rfl⟩ := List.mem_map.1 hd
    exact b.toNat_lt
  have hid : (UInt8.ofNat ∘ UInt8.toNat) = id := funext fun b => UInt8.ofNat_toNat
  rw [decode_eq hvalues, hback, List.map_map, hid, List.map_id]

/-- **A text is that of the bytes that it is read as.** -/
theorem encode_eq_of_decode {text : String} {data : Bytes} (h : decode text = .ok data) :
    encode data = text := by
  obtain ⟨vs, hvs, -⟩ := bind_eq_ok_iff.1 h
  obtain ⟨hlt, hbytes⟩ := eq_of_values hvs
  obtain rfl := Except.ok.inj ((decode_eq hvs).symm.trans h)
  have htoNat : ((rebase 58 256 vs).map UInt8.ofNat).map UInt8.toNat = rebase 58 256 vs :=
    map_toNat_map_ofNat fun d hd => lt_of_mem_rebase (by decide) hd
  have htext : text = String.ofList (vs.map digit) := by
    apply Utf8.encode_injective
    rw [Utf8.encode_ofList_of_ascii (toNat_lt_of_mem_digits hlt), hbytes]
  rw [encode_eq, digitsOf, htoNat, rebase_rebase (by decide) hlt, ← htext]

/-- Bytes and texts stand for each other. -/
theorem decode_eq_ok_iff {text : String} {data : Bytes} :
    decode text = .ok data ↔ encode data = text :=
  ⟨encode_eq_of_decode, fun h => h ▸ decode_encode data⟩

/-! ### Which texts, and which bytes -/

/-- The characters of a text have values exactly if all of them are in the alphabet. -/
theorem exists_values_iff {text : String} {data : Bytes} :
    (∃ vs, values text data = .ok vs) ↔ ∀ b ∈ data, Char.ofNat b.toNat ∈ alphabet := by
  induction data with
  | nil => exact ⟨fun _ => nofun, fun _ => ⟨[], rfl⟩⟩
  | cons b data ih =>
    rw [List.forall_mem_cons, ← ih, values]
    split
    next v hv =>
      have hb : Char.ofNat b.toNat ∈ alphabet := by
        rw [← List.isSome_idxOf?]
        exact Option.isSome_of_eq_some hv
      rw [exists_return_iff, and_iff_right hb]
    next hv => exact ⟨nofun, fun h => absurd h.1 (List.idxOf?_eq_none_iff.1 hv)⟩

/-- A text is read exactly if its bytes are digits. -/
theorem exists_decode_iff {text : String} :
    (∃ data, decode text = .ok data)
      ↔ ∀ b ∈ Utf8.encode text, Char.ofNat b.toNat ∈ alphabet := by
  rw [← @exists_values_iff text]
  constructor
  · rintro ⟨data, h⟩
    obtain ⟨vs, hvs, -⟩ := bind_eq_ok_iff.1 h
    exact ⟨vs, hvs⟩
  · rintro ⟨vs, hvs⟩
    exact ⟨_, decode_eq hvs⟩

theorem head?_map_toNat {data : Bytes} (h : data.head? ≠ some 0) :
    (data.map UInt8.toNat).head? ≠ some 0 := by
  rw [List.head?_map, ne_eq, Option.map_eq_some_iff]
  rintro ⟨b, hb, hb0⟩
  obtain rfl : b = 0 := UInt8.toNat_inj.1 hb0
  exact h hb

/-- Each leading zero byte is written as a one, and the rest as a number. -/
theorem encode_replicate_append {k : Nat} {data : Bytes} (h : data.head? ≠ some 0) :
    encode (List.replicate k 0 ++ data)
      = String.ofList (List.replicate k '1'
          ++ (toDigits 58 (ofDigits 256 (data.map UInt8.toNat))).map digit) := by
  rw [encode_eq, digitsOf, List.map_append, List.map_replicate]
  show String.ofList ((rebase 256 58 (List.replicate k 0 ++ _)).map digit) = _
  rw [rebase_replicate_append (head?_map_toNat h), List.map_append, List.map_replicate]
  rfl

/-- Each leading one is read as a zero byte, and the rest as a number. -/
theorem decode_replicate_append {k : Nat} {vs : List Nat} (hlt : ∀ v ∈ vs, v < 58)
    (h : vs.head? ≠ some 0) :
    decode (String.ofList (List.replicate k '1' ++ vs.map digit))
      = .ok (List.replicate k 0 ++ (toDigits 256 (ofDigits 58 vs)).map UInt8.ofNat) := by
  have hone : List.replicate k '1' ++ vs.map digit = (List.replicate k 0 ++ vs).map digit := by
    rw [List.map_append, List.map_replicate]
    rfl
  have hall : ∀ v ∈ List.replicate k 0 ++ vs, v < 58 := by
    refine List.forall_mem_append.2 ⟨fun v hv => ?_, hlt⟩
    rw [List.eq_of_mem_replicate hv]
    decide
  rw [hone, decode_eq, rebase_replicate_append h, List.map_append, List.map_replicate]
  · rfl
  · rw [Utf8.encode_ofList_of_ascii (toNat_lt_of_mem_digits hall)]
    exact values_map_digit _ hall

/-- **Bytes in base 58.**  Bytes and the texts over the alphabet stand for each other.  Both
ways go by the one number that the bytes write in base 256 and the digits in base 58, with a
`1` for each zero in front.  While the loops turn one into the other, every place is a digit
of its base, and no sum outgrows 32 bits. -/
theorem encode_decode_positional :
    (∀ data : Bytes, decode (encode data) = .ok data)
      ∧ (∀ text : String,
        ((∃ data, decode text = .ok data)
            ↔ ∀ b ∈ Utf8.encode text, Char.ofNat b.toNat ∈ alphabet)
          ∧ ∀ data, decode text = .ok data → encode data = text)
      ∧ (∀ (k : Nat) (data : Bytes), data.head? ≠ some 0 →
        encode (List.replicate k 0 ++ data)
          = String.ofList (List.replicate k '1'
            ++ (Nat.digits 58 (Nat.ofDigits 256 (data.map UInt8.toNat).reverse)).reverse.map
              digit))
      ∧ (∀ (k : Nat) (vs : List Nat), (∀ v ∈ vs, v < 58) → vs.head? ≠ some 0 →
        decode (String.ofList (List.replicate k '1' ++ vs.map digit))
          = .ok (List.replicate k 0
            ++ (Nat.digits 256 (Nat.ofDigits 58 vs.reverse)).reverse.map UInt8.ofNat))
      ∧ (∀ (data : Bytes) (r : Round),
        Conversion.ofBytes.Visits (data.dropWhile (· == 0)) r →
          (∀ d ∈ r.passed ++ r.ahead, d.toNat < 58) ∧ r.sum .ofBytes < 2 ^ 32)
      ∧ ∀ (vs : List Nat) (r : Round), (∀ v ∈ vs, v < 58) →
        Conversion.toBytes.Visits (vs.map UInt8.ofNat) r →
          (∀ d ∈ r.passed ++ r.ahead, d.toNat < 256) ∧ r.sum .toBytes < 2 ^ 32 := by
  -- what holds of a round within its bounds holds of every round that is visited
  have hbounds {c : Conversion} {digits : Bytes} {r : Round}
      (h : ∀ d ∈ digits, d.toNat < c.scale.toNat) (hr : c.Visits digits r) :
      (∀ d ∈ r.passed ++ r.ahead, d.toNat < c.base.toNat) ∧ r.sum c < 2 ^ 32 := by
    have hwithin := Conversion.within_of_visits h hr
    exact ⟨List.forall_mem_append.2 ⟨hwithin.passed, hwithin.ahead⟩, hwithin.sum_lt⟩
  refine ⟨decode_encode, fun text => ⟨exists_decode_iff, fun _ => encode_eq_of_decode⟩,
    fun _ _ => encode_replicate_append, fun _ _ => decode_replicate_append,
    fun data r => hbounds fun b _ => b.toNat_lt, fun vs r hlt => hbounds ?_⟩
  exact forall_lt_map_ofNat hlt

/-- Two zeros in front of fifty-eight, which has two digits; the second one comes in when there
is one place. -/
theorem encode_decode_positional_two :
    encode [0, 0, 58] = "1121" ∧ decode "1121" = .ok [0, 0, 58]
      ∧ Conversion.toBytes.Visits ([0, 0, 1, 0].map UInt8.ofNat) ⟨[], 0, [1]⟩
      ∧ Round.sum .toBytes ⟨[], 0, [1]⟩ < 2 ^ 32 := by
  obtain ⟨-, -, hencode, hdecode, -, hbounds⟩ := encode_decode_positional
  have hdigits : ∀ d ∈ ([0, 0, 1] : Bytes), d.toNat < Conversion.toBytes.scale.toNat := by
    simp only [List.mem_cons, List.not_mem_nil, or_false, forall_eq_or_imp, forall_eq]
    decide
  have hplaces : Conversion.toBytes.places [0, 0, 1] = [1] := by
    rw [Conversion.places_eq hdigits]
    rfl
  have hvisits : Conversion.toBytes.Visits ([0, 0, 1, 0].map UInt8.ofNat) ⟨[], 0, [1]⟩ := by
    refine ⟨[0, 0, 1], 0, [], rfl, ?_⟩
    rw [hplaces]
    exact .refl
  exact ⟨hencode 2 [58] (by decide), hdecode 2 [1, 0] (by decide) (by decide), hvisits,
    (hbounds [0, 0, 1, 0] _ (by decide) hvisits).2⟩

/-! ### Checksums -/

/-- **Bytes are read back from their text with a checksum.** -/
theorem decodeChecked_encodeChecked (sum : Checksum) (data : Bytes) :
    decodeChecked sum (encodeChecked sum data) = .ok data := by
  have hlen : (data ++ sum.bytes data).length - 4 = data.length := by
    rw [List.length_append, sum.length_bytes]
    rfl
  rw [decodeChecked, encodeChecked, decode_encode]
  show (if (data ++ sum.bytes data).length < 4 then _ else _) = _
  rw [if_neg (by rw [List.length_append, sum.length_bytes]; omega), hlen, List.take_left,
    List.drop_left]
  exact if_pos rfl

/-- **Texts with a checksum and bytes stand for each other**, whatever the checksum is. -/
theorem decodeChecked_eq_ok_iff {sum : Checksum} {text : String} {data : Bytes} :
    decodeChecked sum text = .ok data ↔ encodeChecked sum data = text := by
  constructor
  · intro h
    obtain ⟨raw, hraw, h⟩ := bind_eq_ok_iff.1 h
    split at h
    next => cases h
    next =>
      dsimp only [pure_bind] at h
      split at h
      next hsum =>
        obtain rfl := pure_eq_ok_iff.1 h
        rw [encodeChecked, hsum, List.take_append_drop]
        exact decode_eq_ok_iff.1 hraw
      next => cases h
  · rintro rfl
    exact decodeChecked_encodeChecked sum data

end Micheline.Base58
