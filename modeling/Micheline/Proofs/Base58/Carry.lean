/-
Micheline/Proofs/Base58/Carry.lean

The loops of a conversion.  While digits come in, every place stays below the base and what is
carried stays below the scale (`Round.Within`); a step keeps this (`Round.Within.next`), and so
does a round (`Conversion.within_of_visits`).  So no sum outgrows its word
(`Round.Within.sum_lt`), and the places are the digits of the number
(`Conversion.places_eq`): those that the library has, the lowest one first.
-/
import Mathlib.Computability.StateTransition
import Mathlib.Data.Nat.Digits.Lemmas
import Micheline.Base58.Carry

namespace Micheline.Base58

variable {c : Conversion} {r s : Round}

theorem Conversion.base_pos (c : Conversion) : 0 < c.base.toNat :=
  Nat.lt_trans Nat.zero_lt_one c.one_lt_base

namespace Round

/-! ### Steps -/

/-- What the next place comes to, in a word of any size. -/
def sum (c : Conversion) (r : Round) : Nat :=
  r.carry.toNat + (r.ahead.headD 0).toNat * c.scale.toNat

/-- Places are digits of the base, and what is carried is a digit of the other one. -/
structure Within (c : Conversion) (r : Round) : Prop where
  passed : ∀ d ∈ r.passed, d.toNat < c.base.toNat
  ahead : ∀ d ∈ r.ahead, d.toNat < c.base.toNat
  carry : r.carry.toNat < c.scale.toNat

/-- What a place comes to is no more than a digit of each base together make. -/
theorem Within.sum_lt_mul (h : r.Within c) : r.sum c < c.base.toNat * c.scale.toNat := by
  have hplace : (r.ahead.headD 0).toNat < c.base.toNat := by
    obtain ⟨passed, carry, - | ⟨place, ahead⟩⟩ := r
    · exact c.base_pos
    · exact h.ahead place List.mem_cons_self
  calc r.sum c < c.scale.toNat + (r.ahead.headD 0).toNat * c.scale.toNat :=
        Nat.add_lt_add_right h.carry _
    _ = ((r.ahead.headD 0).toNat + 1) * c.scale.toNat := by rw [Nat.succ_mul, Nat.add_comm]
    _ ≤ c.base.toNat * c.scale.toNat := Nat.mul_le_mul_right _ hplace

/-- **What a place comes to fits in a word.** -/
theorem Within.sum_lt (h : r.Within c) : r.sum c < UInt32.size :=
  Nat.lt_of_lt_of_le h.sum_lt_mul c.base_mul_scale_le

/-- The word that is computed is what the place comes to. -/
theorem Within.toNat_sum {passed ahead : Bytes} {carry : UInt32} {place : UInt8}
    (h : Within c ⟨passed, carry, place :: ahead⟩) :
    (carry + place.toUInt32 * c.scale).toNat = carry.toNat + place.toNat * c.scale.toNat := by
  have hsum : carry.toNat + place.toNat * c.scale.toNat < UInt32.size := h.sum_lt
  rw [UInt32.toNat_add, UInt32.toNat_mul, UInt8.toNat_toUInt32, Nat.add_mod_mod,
    Nat.mod_eq_of_lt hsum]

/-- What is left of a word in a place. -/
theorem toNat_place (c : Conversion) (sum : UInt32) :
    (sum % c.base).toUInt8.toNat = sum.toNat % c.base.toNat := by
  have hlt : sum.toNat % c.base.toNat < c.base.toNat :=
    Nat.mod_lt _ c.base_pos
  rw [UInt32.toNat_toUInt8, UInt32.toNat_mod]
  exact Nat.mod_eq_of_lt (Nat.lt_of_lt_of_le hlt c.base_le)

/-- **A step keeps the bounds.** -/
theorem Within.next (h : r.Within c) (hs : r.next? c = some s) : s.Within c := by
  have hplace (sum : UInt32) : (sum % c.base).toUInt8.toNat < c.base.toNat := by
    rw [toNat_place]
    exact Nat.mod_lt _ c.base_pos
  obtain ⟨passed, carry, - | ⟨place, ahead⟩⟩ := r
  · rw [next?] at hs
    split at hs
    next => cases hs
    next =>
      obtain rfl := Option.some.inj hs
      refine ⟨List.forall_mem_cons.2 ⟨hplace _, h.passed⟩, List.forall_mem_nil _, ?_⟩
      rw [UInt32.toNat_div]
      exact Nat.lt_of_le_of_lt (Nat.div_le_self _ _) h.carry
  · obtain rfl := Option.some.inj hs
    refine ⟨List.forall_mem_cons.2 ⟨hplace _, h.passed⟩, (List.forall_mem_cons.1 h.ahead).2, ?_⟩
    -- The sum itself may be far above the bound of a carry: it is the division that brings it back.
    rw [UInt32.toNat_div, h.toNat_sum]
    exact Nat.div_lt_of_lt_mul h.sum_lt_mul

/-! ### Rounds -/

/-- **A round keeps the bounds.** -/
theorem Within.of_reaches (h : r.Within c) (hs : StateTransition.Reaches (next? c) r s) :
    s.Within c := by
  induction hs with
  | refl => exact h
  | tail _ hnext ih => exact ih.next hnext

/-- The digits of a number, as places. -/
def digitPlaces (c : Conversion) (n : Nat) : Bytes :=
  (Nat.digits c.base.toNat n).map UInt8.ofNat

theorem digitPlaces_zero (c : Conversion) : digitPlaces c 0 = [] := by
  rw [digitPlaces, Nat.digits_zero, List.map_nil]

theorem digitPlaces_of_pos (c : Conversion) {n : Nat} (hn : 0 < n) :
    digitPlaces c n = UInt8.ofNat (n % c.base.toNat) :: digitPlaces c (n / c.base.toNat) := by
  rw [digitPlaces, Nat.digits_def' c.one_lt_base hn, List.map_cons]
  rfl

theorem eq_zero_of_digitPlaces {n : Nat} (h : digitPlaces c n = []) : n = 0 := by
  by_contra hn
  rw [digitPlaces_of_pos c (Nat.pos_of_ne_zero hn)] at h
  cases h

theorem toNat_ofNat_of_lt_base {d : Nat} (h : d < c.base.toNat) : (UInt8.ofNat d).toNat = d :=
  UInt8.toNat_ofNat_of_lt' (Nat.lt_of_lt_of_le h c.base_le)

/-- The digit places of a number are its digits in the base, the lowest first. -/
theorem map_toNat_digitPlaces (c : Conversion) (n : Nat) :
    (digitPlaces c n).map UInt8.toNat = Nat.digits c.base.toNat n := by
  rw [digitPlaces, List.map_map]
  refine (List.map_congr_left fun d hd => ?_).trans (List.map_id' _)
  exact toNat_ofNat_of_lt_base (Nat.digits_lt_base c.one_lt_base hd)

theorem lt_of_mem_digitPlaces {n : Nat} : ∀ d ∈ digitPlaces c n, d.toNat < c.base.toNat := by
  intro d hd
  obtain ⟨x, hx, rfl⟩ := List.mem_map.1 hd
  have hlt := Nat.digits_lt_base c.one_lt_base hx
  rwa [toNat_ofNat_of_lt_base hlt]

/-- A carry below the scale starts a round within the bounds. -/
theorem within_start {n : Nat} {carry : UInt32} (h : carry.toNat < c.scale.toNat) :
    Within c ⟨[], carry, digitPlaces c n⟩ :=
  ⟨nofun, lt_of_mem_digitPlaces, h⟩

/-- A number whose lowest place is what is left of a sum. -/
theorem digitPlaces_of_sum {sum : UInt32} {n rest : Nat} (hn : 0 < n)
    (h : n = sum.toNat + c.base.toNat * rest) :
    digitPlaces c n
      = (sum % c.base).toUInt8 :: digitPlaces c (rest + (sum / c.base).toNat) := by
  have hplace : (sum % c.base).toUInt8 = UInt8.ofNat (n % c.base.toNat) := by
    apply UInt8.toNat_inj.1
    rw [toNat_place, toNat_ofNat_of_lt_base (Nat.mod_lt _ c.base_pos), h,
      Nat.add_mul_mod_self_left]
  have hrest : n / c.base.toNat = rest + (sum / c.base).toNat := by
    rw [h, Nat.add_mul_div_left _ _ c.base_pos, UInt32.toNat_div, Nat.add_comm]
  rw [digitPlaces_of_pos c hn, hplace, hrest]

/-- A round in progress ends where its next place takes it. -/
theorem finish_of_next? (h : r.next? c = some s) : r.finish c = s.finish c := by
  rw [finish]
  split
  next t ht => rw [Option.some.inj (h.symm.trans ht)]
  next ht => cases h.symm.trans ht

theorem finish_of_next?_eq_none (h : r.next? c = none) : r.finish c = r.passed.reverse := by
  rw [finish]
  split
  next t ht => cases h.symm.trans ht
  next => rfl

/-- A multiple of a number with a carry, by the last place of the number and the rest of it. -/
theorem mul_add_eq_place_add (base scale n carry : Nat) :
    scale * n + carry = carry + n % base * scale + base * (scale * (n / base)) :=
  calc scale * n + carry
      = scale * (base * (n / base) + n % base) + carry := by rw [Nat.div_add_mod]
    _ = carry + n % base * scale + base * (scale * (n / base)) := by
      rw [Nat.mul_add, Nat.mul_left_comm, Nat.mul_comm _ (n % _)]
      omega

/-- **A round takes in a digit**: behind the places that it is past stand those of the number
ahead, made larger, with what is carried added to it. -/
theorem finish_eq {n : Nat} (h : r.Within c) (hahead : r.ahead = digitPlaces c n) :
    r.finish c = r.passed.reverse ++ digitPlaces c (c.scale.toNat * n + r.carry.toNat) := by
  induction r using Round.finish.induct (c := c) generalizing n with
  | case1 r s hs ih =>
    have hwithin := h.next hs
    rw [finish_of_next? hs]
    obtain ⟨passed, carry, - | ⟨place, ahead⟩⟩ := r
    · -- no place is left, and so nothing is left of the number
      obtain rfl : n = 0 := eq_zero_of_digitPlaces hahead.symm
      rw [next?] at hs
      split at hs
      next => cases hs
      next hcarry =>
        obtain rfl := Option.some.inj hs
        have hpos : 0 < c.scale.toNat * 0 + carry.toNat := by
          rw [Nat.mul_zero, Nat.zero_add]
          exact Nat.pos_of_ne_zero fun h0 => hcarry (UInt32.toNat_inj.1 h0)
        rw [ih hwithin (digitPlaces_zero c).symm, List.reverse_cons, List.append_assoc,
          digitPlaces_of_sum hpos (by rw [Nat.mul_zero, Nat.mul_zero, Nat.zero_add, Nat.add_zero])]
        rfl
    -- the place that is next is the lowest of those of the number ahead
    · have hn : 0 < n := by
        apply Nat.pos_of_ne_zero
        rintro rfl
        rw [digitPlaces_zero] at hahead
        cases hahead
      have hplace : n % c.base.toNat < c.base.toNat := Nat.mod_lt _ c.base_pos
      rw [digitPlaces_of_pos c hn] at hahead
      obtain ⟨rfl, rfl⟩ := List.cons.inj hahead
      obtain rfl := Option.some.inj hs
      have hpos : 0 < c.scale.toNat * n + carry.toNat :=
        Nat.add_pos_left (Nat.mul_pos (Nat.zero_lt_of_lt h.carry) hn) _
      rw [ih hwithin rfl, List.reverse_cons, List.append_assoc, digitPlaces_of_sum hpos]
      · rfl
      · rw [h.toNat_sum, toNat_ofNat_of_lt_base hplace]
        exact mul_add_eq_place_add c.base.toNat c.scale.toNat n carry.toNat
  | case2 r hs =>
    rw [finish_of_next?_eq_none hs]
    obtain ⟨passed, carry, - | ⟨place, ahead⟩⟩ := r
    · obtain rfl : n = 0 := eq_zero_of_digitPlaces hahead.symm
      rw [next?] at hs
      split at hs
      next hcarry =>
        obtain rfl := hcarry
        show passed.reverse = passed.reverse ++ digitPlaces c 0
        rw [digitPlaces_zero, List.append_nil]
      next => cases hs
    · cases hs

end Round

/-! ### Numbers -/

namespace Conversion

theorem places_append (c : Conversion) (digits : Bytes) (digit : UInt8) :
    c.places (digits ++ [digit]) = c.push (c.places digits) digit := by
  rw [places, List.foldl_append, List.foldl_cons, List.foldl_nil, places]

/-- **The places are the digits of the number** that the digits that came in write. -/
theorem places_eq {digits : Bytes} (h : ∀ d ∈ digits, d.toNat < c.scale.toNat) :
    c.places digits
      = Round.digitPlaces c (Nat.ofDigits c.scale.toNat (digits.map UInt8.toNat).reverse) := by
  induction digits using List.reverseRecOn with
  | nil => exact (Round.digitPlaces_zero c).symm
  | append_singleton digits digit ih =>
    obtain ⟨hdigits, hdigit⟩ := List.forall_mem_append.1 h
    have hcarry : digit.toUInt32.toNat < c.scale.toNat := by
      rw [UInt8.toNat_toUInt32]
      exact hdigit digit List.mem_cons_self
    rw [places_append, push, ih hdigits, Round.finish_eq (Round.within_start hcarry) rfl,
      UInt8.toNat_toUInt32, List.map_append, List.reverse_append]
    show _ = Round.digitPlaces c (Nat.ofDigits _ (digit.toNat :: _))
    rw [Nat.ofDigits_cons, Nat.add_comm]
    rfl

/-- The moments of the rounds in which digits come in, one after another. -/
def Visits (c : Conversion) (digits : Bytes) (r : Round) : Prop :=
  ∃ front digit rest, digits = front ++ digit :: rest
    ∧ StateTransition.Reaches (Round.next? c) ⟨[], digit.toUInt32, c.places front⟩ r

/-- **The bounds are kept all the way.** -/
theorem within_of_visits {digits : Bytes} (h : ∀ d ∈ digits, d.toNat < c.scale.toNat)
    (hr : c.Visits digits r) : r.Within c := by
  obtain ⟨front, digit, rest, rfl, hreach⟩ := hr
  obtain ⟨hfront, hrest⟩ := List.forall_mem_append.1 h
  have hcarry : digit.toUInt32.toNat < c.scale.toNat := by
    rw [UInt8.toNat_toUInt32]
    exact hrest digit List.mem_cons_self
  rw [places_eq hfront] at hreach
  exact (Round.within_start hcarry).of_reaches hreach

end Conversion

end Micheline.Base58
