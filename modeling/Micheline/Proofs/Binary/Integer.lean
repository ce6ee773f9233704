/-
Micheline/Proofs/Binary/Integer.lean

Integers as bytes.  Reading undoes writing, whatever bytes follow (`read_encode`).  Of the
forms that read as one integer the written one is the shortest (`length_encode_le`), and it
is the only one that is minimal: no byte that adds nothing ends it, and zero has no sign
(`encode_eq_iff_isMinimal`).  So it is known of all bytes what is read at their front and how
far that goes (`decode_front`).
-/
import Micheline.Binary.Integer
import Micheline.Proofs.Except

namespace Micheline.Binary.Integer

/-! ### Groups of seven bits -/

theorem continues_iff {b : UInt8} : continues b = true ↔ 128 ≤ b.toNat := by
  simp [continues]

theorem groups_of_lt {n : Nat} (h : n < 128) : groups n = [UInt8.ofNat n] := by
  rw [groups, if_pos h]

theorem groups_of_le {n : Nat} (h : 128 ≤ n) :
    groups n = UInt8.ofNat (n % 128 + 128) :: groups (n / 128) := by
  rw [groups, if_neg (by omega)]

theorem takeGroups_of_continues {b : UInt8} (h : 128 ≤ b.toNat) (d : Bytes) :
    takeGroups (b :: d)
      = (takeGroups d).map fun (n, used) => (b.toNat % 128 + 128 * n, used + 1) := by
  rw [takeGroups, if_pos (continues_iff.2 h)]
  rcases takeGroups d with - | ⟨n, used⟩ <;> rfl

theorem takeGroups_of_last {b : UInt8} (h : b.toNat < 128) (d : Bytes) :
    takeGroups (b :: d) = some (b.toNat, 1) := by
  rw [takeGroups, if_neg (by simpa [continues] using h)]

/-- The groups of a number are taken off whatever follows them. -/
theorem takeGroups_groups (n : Nat) (rest : Bytes) :
    takeGroups (groups n ++ rest) = some (n, (groups n).length) := by
  induction n using Nat.strongRecOn with
  | ind n ih =>
    rcases Nat.lt_or_ge n 128 with h | h
    · have hb : (UInt8.ofNat n).toNat = n := by rw [UInt8.toNat_ofNat']; omega
      rw [groups_of_lt h, List.singleton_append, takeGroups_of_last (by omega), hb]
      rfl
    · have hb : (UInt8.ofNat (n % 128 + 128)).toNat = n % 128 + 128 := by
        rw [UInt8.toNat_ofNat']; omega
      have hn : (n % 128 + 128) % 128 + 128 * (n / 128) = n := by omega
      rw [groups_of_le h, List.cons_append, takeGroups_of_continues (by omega),
        ih (n / 128) (by omega), hb]
      show some ((n % 128 + 128) % 128 + 128 * (n / 128), (groups (n / 128)).length + 1) = _
      rw [hn, List.length_cons]

/-- Groups are read from the front: what follows them does not matter. -/
theorem takeGroups_eq_some_iff {d : Bytes} {n used : Nat} :
    takeGroups d = some (n, used)
      ↔ ∃ g rest, d = g ++ rest ∧ g.length = used ∧ takeGroups g = some (n, g.length) := by
  induction d generalizing n used with
  | nil =>
    refine ⟨fun h => by simp [takeGroups] at h, ?_⟩
    rintro ⟨g, rest, hg, -, h⟩
    obtain ⟨rfl, -⟩ := List.append_eq_nil_iff.1 hg.symm
    simp [takeGroups] at h
  | cons b d ih =>
    -- a byte below 128 is the last one, any other one promises more
    rcases Nat.lt_or_ge b.toNat 128 with hb | hb
    · rw [takeGroups_of_last hb]
      constructor
      · intro h
        obtain ⟨rfl, rfl⟩ := Prod.mk.inj (Option.some.inj h)
        exact ⟨[b], d, rfl, rfl, takeGroups_of_last hb []⟩
      · rintro ⟨g, rest, hg, rfl, h⟩
        rcases g with - | ⟨c, g⟩
        · simp [takeGroups] at h
        · obtain ⟨rfl, rfl⟩ := List.cons.inj hg
          rwa [takeGroups_of_last hb] at h
    · rw [takeGroups_of_continues hb, Option.map_eq_some_iff]
      constructor
      · rintro ⟨⟨m, k⟩, hm, he⟩
        obtain ⟨rfl, rfl⟩ := Prod.mk.inj he
        obtain ⟨g, rest, rfl, rfl, hg⟩ := ih.1 hm
        refine ⟨b :: g, rest, rfl, rfl, ?_⟩
        rw [takeGroups_of_continues hb, hg]
        rfl
      · rintro ⟨g, rest, hg, rfl, h⟩
        rcases g with - | ⟨c, g⟩
        · simp [takeGroups] at h
        · obtain ⟨rfl, rfl⟩ := List.cons.inj hg
          rw [takeGroups_of_continues hb, Option.map_eq_some_iff] at h
          obtain ⟨⟨m, k⟩, hm, he⟩ := h
          obtain ⟨rfl, hk⟩ := Prod.mk.inj he
          obtain rfl : k = g.length := Nat.succ.inj hk
          exact ⟨(m, g.length), ih.2 ⟨g, rest, rfl, rfl, hm⟩, rfl⟩

theorem length_pos_of_takeGroups {g : Bytes} {n : Nat}
    (h : takeGroups g = some (n, g.length)) : 0 < g.length := by
  rcases g with - | ⟨b, g⟩
  · cases h
  · exact Nat.succ_pos _

/-- What is read of groups comes of the first one, which is the last, or of those after it. -/
theorem takeGroups_cons_cases {b : UInt8} {g : Bytes} {n : Nat}
    (h : takeGroups (b :: g) = some (n, (b :: g).length)) :
    b.toNat < 128 ∧ g = [] ∧ n = b.toNat
      ∨ 128 ≤ b.toNat ∧ ∃ m, takeGroups g = some (m, g.length) ∧ n = b.toNat % 128 + 128 * m := by
  rcases Nat.lt_or_ge b.toNat 128 with hb | hb
  · rw [takeGroups_of_last hb] at h
    obtain ⟨rfl, hlen⟩ := Prod.mk.inj (Option.some.inj h)
    exact .inl ⟨hb, List.eq_nil_of_length_eq_zero (Nat.succ.inj hlen).symm, rfl⟩
  · rw [takeGroups_of_continues hb, Option.map_eq_some_iff] at h
    obtain ⟨⟨m, k⟩, hm, he⟩ := h
    obtain ⟨rfl, hk⟩ := Prod.mk.inj he
    obtain rfl : k = g.length := Nat.succ.inj hk
    exact .inr ⟨hb, m, hm, rfl⟩

/-- The last group is zero where all of them write zero. -/
theorem getLast?_of_takeGroups_zero {g : Bytes} (h : takeGroups g = some (0, g.length)) :
    g.getLast? = some 0 := by
  induction g with
  | nil => simp [takeGroups] at h
  | cons b g ih =>
    obtain ⟨-, rfl, hn⟩ | ⟨hb, m, hm, hn⟩ := takeGroups_cons_cases h
    · have hb0 : b = 0 := UInt8.toNat_inj.1 hn.symm
      rw [List.getLast?_singleton, hb0]
    · obtain rfl : m = 0 := by omega
      have hl := ih hm
      rcases g with - | ⟨c, g⟩
      · simp at hl
      · rwa [List.getLast?_cons_cons]

/-- Of the groups that write a positive number, the written ones are the fewest; they are
the only ones that do not end in zero. -/
theorem groups_of_takeGroups {g : Bytes} {n : Nat} (h : takeGroups g = some (n, g.length))
    (hn : 0 < n) :
    (groups n).length ≤ g.length ∧ (groups n = g ↔ g.getLast? ≠ some 0) := by
  induction g generalizing n with
  | nil => simp [takeGroups] at h
  | cons b g ih =>
    obtain ⟨hb, rfl, rfl⟩ | ⟨hb, m, hm, rfl⟩ := takeGroups_cons_cases h
    · rw [groups_of_lt hb, UInt8.ofNat_toNat]
      refine ⟨Nat.le_refl _, ?_⟩
      have hne : b ≠ 0 := by rintro rfl; simp at hn
      simpa using hne
    · have hlast : (b :: g).getLast? = g.getLast? := by
        rcases g with - | ⟨c, g⟩
        · simp [takeGroups] at hm
        · exact List.getLast?_cons_cons
      rw [hlast]
      rcases Nat.eq_zero_or_pos m with rfl | hpos
      · -- the groups after the first add nothing, and one group is written
        rw [groups_of_lt (by omega), getLast?_of_takeGroups_zero hm]
        refine ⟨by simp, ?_⟩
        have hne : UInt8.ofNat (b.toNat % 128 + 128 * 0) ≠ b := by
          intro he
          have := congrArg UInt8.toNat he
          rw [UInt8.toNat_ofNat'] at this
          omega
        exact ⟨fun he => absurd (List.cons.inj he).1 hne, fun h => absurd rfl h⟩
      -- the first group is as it is written, and the others are compared by induction
      · obtain ⟨hle, hiff⟩ := ih hm hpos
        have hlt := b.toNat_lt
        have hhead : UInt8.ofNat ((b.toNat % 128 + 128 * m) % 128 + 128) = b := by
          apply UInt8.toNat_inj.1
          rw [UInt8.toNat_ofNat']
          omega
        have htail : (b.toNat % 128 + 128 * m) / 128 = m := by omega
        rw [groups_of_le (by omega), hhead, htail]
        refine ⟨by simpa using hle, ?_⟩
        rw [← hiff]
        simp

/-! ### Reading integers -/

theorem decode_of_continues {b : UInt8} (hb : 128 ≤ b.toNat) (d : Bytes) :
    decode (b :: d) = match takeGroups d with
      | some (n, used) => .ok (signed b (b.toNat % 64 + 64 * n), used + 1)
      | none => .error (.tooFewBytes (d.length + 2) (d.length + 1)) :=
  if_pos (continues_iff.2 hb)

theorem decode_of_last {b : UInt8} (hb : b.toNat < 128) (d : Bytes) :
    decode (b :: d) = .ok (signed b (b.toNat % 64), 1) := by
  rw [decode, if_neg (by simpa [continues] using hb)]

theorem natAbs_signed (b : UInt8) (m : Nat) : (signed b m).natAbs = m := by
  unfold signed
  split <;> simp

theorem signBit_signed {b : UInt8} {m : Nat} (hm : 0 < m) :
    signBit (signed b m) = 64 * (b.toNat / 64 % 2) := by
  unfold signBit signed
  split
  · rw [if_pos (by omega)]
    omega
  · rw [if_neg (by omega)]
    omega

/-- A magnitude with the sign that its number has is that number. -/
theorem signed_of_signBit {v : Int} {b : UInt8}
    (hb : b.toNat / 64 % 2 = signBit v / 64) : signed b v.natAbs = v := by
  unfold signed
  unfold signBit at hb
  split at hb
  · rw [if_pos (by omega)]
    omega
  · rw [if_neg (by omega)]
    omega

theorem encode_of_lt {v : Int} (h : v.natAbs < 64) :
    encode v = [UInt8.ofNat (v.natAbs + signBit v)] := by
  simp only [encode, if_pos h]

theorem encode_of_le {v : Int} (h : 64 ≤ v.natAbs) :
    encode v = UInt8.ofNat (v.natAbs % 64 + signBit v + 128) :: groups (v.natAbs / 64) := by
  simp only [encode, if_neg (Nat.not_lt.2 h)]

theorem signBit_eq (v : Int) : signBit v = 0 ∨ signBit v = 64 := by
  unfold signBit
  split <;> simp

/-- Writing is undone, whatever bytes follow. -/
theorem decode_encode (v : Int) (rest : Bytes) :
    decode (encode v ++ rest) = .ok (v, (encode v).length) := by
  -- the sign is the bit above the six lowest ones
  have hsign := signBit_eq v
  rcases Nat.lt_or_ge v.natAbs 64 with h | h
  · have hb : (UInt8.ofNat (v.natAbs + signBit v)).toNat = v.natAbs + signBit v := by
      rw [UInt8.toNat_ofNat']
      omega
    have hm : (v.natAbs + signBit v) % 64 = v.natAbs := by omega
    rw [encode_of_lt h, List.singleton_append, decode_of_last (by omega), hb, hm,
      signed_of_signBit (by omega)]
    rfl
  · have hb : (UInt8.ofNat (v.natAbs % 64 + signBit v + 128)).toNat
        = v.natAbs % 64 + signBit v + 128 := by
      rw [UInt8.toNat_ofNat']
      omega
    have hm : (v.natAbs % 64 + signBit v + 128) % 64 + 64 * (v.natAbs / 64) = v.natAbs := by
      omega
    rw [encode_of_le h, List.cons_append, decode_of_continues (by omega), takeGroups_groups]
    simp only [hb, hm]
    rw [signed_of_signBit (by omega)]
    rfl

/-- An integer is decoded from its digits, whatever follows them. -/
theorem decode_eq_ok_iff {d : Bytes} {v : Int} {n : Nat} :
    decode d = .ok (v, n)
      ↔ ∃ digits rest, d = digits ++ rest ∧ digits.length = n
          ∧ decode digits = .ok (v, digits.length) := by
  rcases d with - | ⟨b, d⟩
  · refine ⟨fun h => by simp [decode] at h, ?_⟩
    rintro ⟨digits, rest, hd, -, h⟩
    obtain ⟨rfl, -⟩ := List.append_eq_nil_iff.1 hd.symm
    cases h
  rcases Nat.lt_or_ge b.toNat 128 with hb | hb
  · rw [decode_of_last hb]
    constructor
    · intro h
      obtain ⟨rfl, rfl⟩ := Prod.mk.inj (Except.ok.inj h)
      exact ⟨[b], d, rfl, rfl, decode_of_last hb []⟩
    · rintro ⟨digits, rest, hd, rfl, h⟩
      rcases digits with - | ⟨c, digits⟩
      · cases h
      · obtain ⟨rfl, -⟩ := List.cons.inj hd
        rwa [decode_of_last hb] at h
  · rw [decode_of_continues hb]
    constructor
    · intro h
      rcases e : takeGroups d with - | ⟨m, used⟩
      · simp [e] at h
      · rw [e] at h
        obtain ⟨rfl, rfl⟩ := Prod.mk.inj (Except.ok.inj h)
        -- the groups after the first byte end before what follows them
        obtain ⟨g, rest, rfl, rfl, hg⟩ := takeGroups_eq_some_iff.1 e
        refine ⟨b :: g, rest, rfl, rfl, ?_⟩
        rw [decode_of_continues hb, hg]
        rfl
    · rintro ⟨digits, rest, hd, rfl, h⟩
      rcases digits with - | ⟨c, g⟩
      · cases h
      · rw [List.cons_append] at hd
        obtain ⟨rfl, rfl⟩ := List.cons.inj hd
        rw [decode_of_continues hb] at h
        rcases e : takeGroups g with - | ⟨m, used⟩
        · simp [e] at h
        · rw [e] at h
          obtain ⟨rfl, hused⟩ := Prod.mk.inj (Except.ok.inj h)
          obtain rfl : used = g.length := Nat.succ.inj hused
          rw [takeGroups_eq_some_iff.2 ⟨g, rest, rfl, rfl, e⟩]
          rfl

/-- An integer that is all of the data takes all of its bytes. -/
theorem read_eq_ok_nil_iff {digits : Bytes} {v : Int} :
    read digits = .ok (v, []) ↔ decode digits = .ok (v, digits.length) := by
  rw [read, bind_eq_ok_iff]
  constructor
  · rintro ⟨⟨w, used⟩, h, hrest⟩
    obtain ⟨rfl, hnil⟩ := Prod.mk.inj (pure_eq_ok_iff.1 hrest)
    obtain ⟨front, rest, rfl, rfl, hfront⟩ := decode_eq_ok_iff.1 h
    obtain rfl : rest = [] := by rw [← hnil, List.drop_left]
    rwa [List.append_nil]
  · intro h
    exact ⟨_, h, pure_eq_ok_iff.2 (by rw [List.drop_length])⟩

/-- An integer is read from the front: what follows its bytes does not matter. -/
theorem read_eq_ok_iff {d : Bytes} {v : Int} {rest : Bytes} :
    read d = .ok (v, rest) ↔ ∃ digits, d = digits ++ rest ∧ read digits = .ok (v, []) := by
  simp only [read_eq_ok_nil_iff]
  rw [read, bind_eq_ok_iff]
  constructor
  · rintro ⟨⟨w, used⟩, h, hrest⟩
    obtain ⟨rfl, rfl⟩ := Prod.mk.inj (pure_eq_ok_iff.1 hrest)
    obtain ⟨digits, more, rfl, rfl, hdigits⟩ := decode_eq_ok_iff.1 h
    exact ⟨digits, by rw [List.drop_left], hdigits⟩
  · rintro ⟨digits, rfl, hdigits⟩
    refine ⟨_, decode_eq_ok_iff.2 ⟨digits, rest, rfl, rfl, hdigits⟩, pure_eq_ok_iff.2 ?_⟩
    rw [List.drop_left]

/-- **Reading undoes writing.** -/
theorem read_encode (v : Int) (rest : Bytes) : read (encode v ++ rest) = .ok (v, rest) := by
  have h := decode_encode v []
  rw [List.append_nil] at h
  exact read_eq_ok_iff.2 ⟨encode v, rfl, read_eq_ok_nil_iff.2 h⟩

/-! ### Minimal forms -/

/-- No byte that adds nothing, and no sign at zero. -/
def IsMinimal (digits : Bytes) : Prop :=
  digits ≠ [0x40] ∧ (1 < digits.length → digits.getLast? ≠ some 0)

/-- A single byte is written again, but for the sign of zero. -/
theorem encode_of_last {b : UInt8} (hb : b.toNat < 128) :
    ∃ c, encode (signed b (b.toNat % 64)) = [c] ∧ ([c] = [b] ↔ IsMinimal [b]) := by
  refine ⟨_, encode_of_lt (by rw [natAbs_signed]; omega), ?_⟩
  rw [natAbs_signed]
  simp only [List.cons.injEq, and_true, IsMinimal, List.length_singleton, Nat.lt_irrefl,
    false_imp_iff, ne_eq]
  have h40 : (0x40 : UInt8).toNat = 64 := rfl
  rcases Nat.eq_zero_or_pos (b.toNat % 64) with hz | hpos
  · -- zero: only the byte without a sign is written
    have hs : signBit (signed b (b.toNat % 64)) = 0 := by
      rw [hz]
      simp [signBit, signed]
    have h00 : (UInt8.ofNat (0 + 0)).toNat = 0 := rfl
    rw [hs, hz, ← UInt8.toNat_inj, ← UInt8.toNat_inj]
    omega
  · rw [signBit_signed hpos, ← UInt8.toNat_inj, ← UInt8.toNat_inj, UInt8.toNat_ofNat']
    omega

/-- Of several bytes only the last one can be too many. -/
theorem isMinimal_cons_iff {b : UInt8} {d : Bytes} (hd : d ≠ []) :
    IsMinimal (b :: d) ↔ d.getLast? ≠ some 0 := by
  obtain ⟨c, d, rfl⟩ := List.exists_cons_of_ne_nil hd
  simp [IsMinimal, List.getLast?_cons_cons]

/-- The first byte and the groups after it are written as a first byte and groups again. -/
theorem encode_of_continues {b : UInt8} (hb : 128 ≤ b.toNat) {n : Nat} (hn : 0 < n) :
    encode (signed b (b.toNat % 64 + 64 * n)) = b :: groups n := by
  have hlt := b.toNat_lt
  have hhead : UInt8.ofNat
      ((b.toNat % 64 + 64 * n) % 64 + 64 * (b.toNat / 64 % 2) + 128) = b := by
    apply UInt8.toNat_inj.1
    rw [UInt8.toNat_ofNat']
    omega
  have htail : (b.toNat % 64 + 64 * n) / 64 = n := by omega
  rw [encode_of_le (by rw [natAbs_signed]; omega), natAbs_signed, signBit_signed (by omega),
    hhead, htail]

/-- What is read of the bytes of an integer comes of a single one, or of the groups after it. -/
theorem decode_cons_cases {b : UInt8} {d : Bytes} {v : Int}
    (h : decode (b :: d) = .ok (v, (b :: d).length)) :
    b.toNat < 128 ∧ d = [] ∧ v = signed b (b.toNat % 64)
      ∨ 128 ≤ b.toNat ∧ ∃ n, takeGroups d = some (n, d.length)
          ∧ v = signed b (b.toNat % 64 + 64 * n) := by
  rcases Nat.lt_or_ge b.toNat 128 with hb | hb
  · rw [decode_of_last hb] at h
    obtain ⟨rfl, hlen⟩ := Prod.mk.inj (Except.ok.inj h)
    exact .inl ⟨hb, List.eq_nil_of_length_eq_zero (Nat.succ.inj hlen).symm, rfl⟩
  · rw [decode_of_continues hb] at h
    rcases e : takeGroups d with - | ⟨n, used⟩
    · simp [e] at h
    · rw [e] at h
      obtain ⟨rfl, hused⟩ := Prod.mk.inj (Except.ok.inj h)
      obtain rfl : used = d.length := Nat.succ.inj hused
      exact .inr ⟨hb, n, rfl, rfl⟩

/-- Writing what was read: no more bytes, and the same ones where they were minimal. -/
theorem rewritten_of_decode {digits : Bytes} {v : Int}
    (h : decode digits = .ok (v, digits.length)) :
    (encode v).length ≤ digits.length ∧ (encode v = digits ↔ IsMinimal digits) := by
  rcases digits with - | ⟨b, d⟩
  · cases h
  obtain ⟨hb, rfl, rfl⟩ | ⟨hb, n, hn, rfl⟩ := decode_cons_cases h
  · obtain ⟨c, hc, hiff⟩ := encode_of_last hb
    rw [hc]
    exact ⟨Nat.le_refl _, hiff⟩
  · have hd : d ≠ [] := List.ne_nil_of_length_pos (length_pos_of_takeGroups hn)
    rw [isMinimal_cons_iff hd]
    rcases Nat.eq_zero_or_pos n with rfl | hpos
    · -- the groups add nothing, and the first byte is written alone
      rw [encode_of_lt (by rw [natAbs_signed]; omega), getLast?_of_takeGroups_zero hn]
      refine ⟨by simp, ?_⟩
      simp [hd.symm]
    · obtain ⟨hle, hiff⟩ := groups_of_takeGroups hn hpos
      rw [encode_of_continues hb hpos, ← hiff]
      exact ⟨by simpa using hle, by simp⟩

theorem length_encode_le {digits : Bytes} {v : Int} (h : read digits = .ok (v, [])) :
    (encode v).length ≤ digits.length :=
  (rewritten_of_decode (read_eq_ok_nil_iff.1 h)).1

/-- Digits are those that the encoder writes exactly if none of them could be left out. -/
theorem encode_eq_iff_isMinimal {digits : Bytes} {v : Int} (h : read digits = .ok (v, [])) :
    encode v = digits ↔ IsMinimal digits :=
  (rewritten_of_decode (read_eq_ok_nil_iff.1 h)).2

/-! ### How far an integer goes -/

/-- Groups have no end only if every byte announces another one. -/
theorem takeGroups_eq_none_iff {d : Bytes} :
    takeGroups d = none ↔ ∀ b ∈ d, continues b = true := by
  induction d with
  | nil => exact ⟨fun _ => nofun, fun _ => rfl⟩
  | cons b d ih =>
    rw [List.forall_mem_cons]
    by_cases hb : continues b = true
    · rw [takeGroups_of_continues (continues_iff.1 hb), Option.map_eq_none_iff, ih]
      exact (and_iff_right hb).symm
    · rw [takeGroups, if_neg hb]
      exact ⟨nofun, fun h => absurd h.1 hb⟩

/-- No integer is read exactly where more bytes are promised all the way, and then one byte
is missing. -/
theorem decode_eq_error_iff {d : Bytes} {e : Error} :
    decode d = .error e
      ↔ (∀ b ∈ d, continues b = true) ∧ e = .tooFewBytes (d.length + 1) d.length := by
  rcases d with - | ⟨b, d⟩
  · constructor
    · rintro ⟨⟩
      exact ⟨nofun, rfl⟩
    · rintro ⟨-, rfl⟩
      rfl
  -- The first byte has a sign and six bits and is read on its own, the rest in groups of seven.
  · rw [List.forall_mem_cons, ← takeGroups_eq_none_iff]
    by_cases hb : continues b = true
    · rw [decode_of_continues (continues_iff.1 hb)]
      rcases takeGroups d with - | ⟨n, used⟩
      · constructor
        · rintro ⟨⟩
          exact ⟨⟨hb, rfl⟩, rfl⟩
        · rintro ⟨-, rfl⟩
          rfl
      · exact ⟨nofun, fun h => absurd h.1.2 nofun⟩
    · rw [decode, if_neg hb]
      exact ⟨nofun, fun h => absurd h.1.1 hb⟩

theorem continues_eq_false {b : UInt8} (hb : b.toNat < 128) : continues b = false := by
  simpa [continues] using hb

/-- Groups end with the first byte that promises no more. -/
theorem findIdx_of_takeGroups {g : Bytes} {n : Nat} (h : takeGroups g = some (n, g.length)) :
    g.findIdx (fun b => !continues b) + 1 = g.length := by
  induction g generalizing n with
  | nil => cases h
  | cons b g ih =>
    rw [List.findIdx_cons]
    obtain ⟨hb, rfl, -⟩ | ⟨hb, m, hm, -⟩ := takeGroups_cons_cases h
    · rw [continues_eq_false hb]
      rfl
    · rw [continues_iff.2 hb, List.length_cons, ← ih hm]
      rfl

/-- The last digit is the first one that does not continue. -/
theorem findIdx_of_decode {digits : Bytes} {v : Int}
    (h : decode digits = .ok (v, digits.length)) :
    digits.findIdx (fun b => !continues b) + 1 = digits.length := by
  rcases digits with - | ⟨b, d⟩
  · cases h
  rw [List.findIdx_cons]
  obtain ⟨hb, rfl, -⟩ | ⟨hb, n, hn, -⟩ := decode_cons_cases h
  · rw [continues_eq_false hb]
    rfl
  · rw [continues_iff.2 hb, List.length_cons, ← findIdx_of_takeGroups hn]
    rfl

/-- One digit is minimal unless it is a negative zero, and more are if the last group is not
empty. -/
theorem isMinimal_iff {digits : Bytes} (h : digits ≠ []) :
    IsMinimal digits
      ↔ digits.length = 1 ∧ digits[0]? ≠ some 0x40
        ∨ 1 < digits.length ∧ digits[digits.length - 1]? ≠ some 0 := by
  rw [IsMinimal, List.getLast?_eq_getElem?]
  rcases digits with - | ⟨b, - | ⟨c, d⟩⟩
  · exact absurd rfl h
  · simp
  · simp

/-- **An integer at the front of bytes.**  What was written is read back, whatever follows it,
with the number of its bytes.  Nothing is read exactly if each byte promises another one, and
then one byte is missing.  What is read ends with the first byte that promises no more, and it
is what would be written exactly if no byte at its end adds nothing and zero has no sign;
otherwise less would be written. -/
theorem decode_front :
    (∀ (v : Int) (rest : Bytes), decode (encode v ++ rest) = .ok (v, (encode v).length))
      ∧ ∀ d : Bytes,
        ((∃ e, decode d = .error e) ↔ ∀ b ∈ d, continues b = true)
          ∧ (∀ e, decode d = .error e → e = .tooFewBytes (d.length + 1) d.length)
          ∧ ∀ v n, decode d = .ok (v, n) →
            n = d.findIdx (fun b => !continues b) + 1 ∧ n ≤ d.length
              ∧ (encode v).length ≤ n
              ∧ (encode v = d.take n
                ↔ n = 1 ∧ d[0]? ≠ some 0x40 ∨ 1 < n ∧ d[n - 1]? ≠ some 0) := by
  refine ⟨fun v rest => ?_, fun d => ⟨?_, fun e he => (decode_eq_error_iff.1 he).2, ?_⟩⟩
  · exact decode_encode v rest
  · constructor
    · rintro ⟨e, he⟩
      exact (decode_eq_error_iff.1 he).1
    · exact fun h => ⟨_, decode_eq_error_iff.2 ⟨h, rfl⟩⟩
  · intro v n h
    -- the bytes that were read stand in front of those that do not matter
    obtain ⟨digits, rest, rfl, rfl, hdigits⟩ := decode_eq_ok_iff.1 h
    have hend := findIdx_of_decode hdigits
    obtain ⟨hle, hminimal⟩ := rewritten_of_decode hdigits
    have hne : digits ≠ [] := by
      rintro rfl
      cases hend
    have hpos := List.length_pos_of_ne_nil hne
    refine ⟨?_, by simp, hle, ?_⟩
    · rw [List.findIdx_append, if_pos (by omega), hend]
    · rw [List.take_left, hminimal, isMinimal_iff hne,
        List.getElem?_append_left hpos, List.getElem?_append_left (by omega)]

/-- Three bytes for 64, of which the last one adds nothing, and one byte after them. -/
theorem decode_front_padded :
    decode [0x80, 0x81, 0x00, 0xff] = .ok (64, 3) ∧ encode 64 = [0x80, 0x01]
      ∧ (encode 64).length ≤ 3 ∧ encode 64 ≠ [0x80, 0x81, 0x00] := by
  have h : decode [0x80, 0x81, 0x00, 0xff] = .ok (64, 3) := rfl
  obtain ⟨-, -, hle, hiff⟩ := (decode_front.2 _).2.2 64 3 h
  refine ⟨h, ?_, hle, fun he => ?_⟩
  · rw [encode_of_le (by decide), groups_of_lt (by decide)]
    rfl
  · rcases hiff.1 he with ⟨h1, -⟩ | ⟨-, h0⟩
    · cases h1
    · exact h0 rfl

end Micheline.Binary.Integer
