/-
Micheline/Base58/Carry.lean

Numbers that are turned from one base to another, digit by digit.  The number so far is kept
by its places, the lowest one first.  A digit that comes in makes the number as many times as
large as the base it is from, and is added to it, in a round over the places: each place is
multiplied, takes what is carried to it, and carries on what is too much for it.  What is
carried past the last place makes new places, until nothing is left.

A place is a byte, and what is carried is a word of 32 bits; products and sums that do not fit
would lose their higher bits.
-/
import Micheline.Text.Utf8

namespace Micheline.Base58

/-- The bases of a conversion.  They are small enough for bytes and for words. -/
structure Conversion where
  /-- The base of the digits that come in. -/
  scale : UInt32
  /-- The base of the places. -/
  base : UInt32
  one_lt_base : 1 < base.toNat
  base_le : base.toNat ≤ 256
  base_mul_scale_le : base.toNat * scale.toNat ≤ UInt32.size

namespace Conversion

def ofBytes : Conversion where
  scale := 256
  base := 58
  one_lt_base := by decide
  base_le := by decide
  base_mul_scale_le := by decide

def toBytes : Conversion where
  scale := 58
  base := 256
  one_lt_base := by decide
  base_le := by decide
  base_mul_scale_le := by decide

end Conversion

/-! ### Rounds -/

/-- A round over the places at one moment. -/
structure Round where
  /-- The places that the round is past, the last one first. -/
  passed : Bytes
  /-- What is carried to the next place. -/
  carry : UInt32
  /-- The places that the round has not come to, the next one first. -/
  ahead : Bytes
  deriving DecidableEq, Repr

namespace Round

/-- The round one place further, where there is a place or something to carry. -/
def next? (c : Conversion) : Round → Option Round
  | ⟨passed, carry, place :: ahead⟩ =>
    let sum := carry + place.toUInt32 * c.scale
    some ⟨(sum % c.base).toUInt8 :: passed, sum / c.base, ahead⟩
  | ⟨passed, carry, []⟩ =>
    -- past the last place, what is carried makes new places
    if carry = 0 then none else some ⟨(carry % c.base).toUInt8 :: passed, carry / c.base, []⟩

/-- What is left to do in a round.  A place ahead weighs more than any word. -/
def left (r : Round) : Nat :=
  r.ahead.length * UInt32.size + r.carry.toNat

/-- A step leaves less to do: fewer places ahead or, past the last one, less to carry. -/
theorem left_lt_of_next? {c : Conversion} {r s : Round} (h : r.next? c = some s) :
    s.left < r.left := by
  obtain ⟨passed, carry, - | ⟨place, ahead⟩⟩ := r
  · rw [next?] at h
    split at h
    next => cases h
    next hcarry =>
      obtain rfl := Option.some.inj h
      have hpos : 0 < carry.toNat := Nat.pos_of_ne_zero fun h0 => hcarry (UInt32.toNat_inj.1 h0)
      have hless := Nat.div_lt_self hpos c.one_lt_base
      simpa [left, UInt32.toNat_div] using hless
  · obtain rfl := Option.some.inj h
    have hword := ((carry + place.toUInt32 * c.scale) / c.base).toNat_lt_size
    simp only [left, List.length_cons, Nat.succ_mul]
    omega

/-- The places after the round, the lowest one first. -/
def finish (c : Conversion) (r : Round) : Bytes :=
  match _h : r.next? c with
  | some s => s.finish c
  | none => r.passed.reverse
termination_by r.left
decreasing_by exact left_lt_of_next? _h

end Round

/-! ### Numbers -/

def Conversion.push (c : Conversion) (places : Bytes) (digit : UInt8) : Bytes :=
  Round.finish c ⟨[], digit.toUInt32, places⟩

/-- The places of the number that digits write, the lowest one first; the first digit weighs
most. -/
def Conversion.places (c : Conversion) (digits : Bytes) : Bytes :=
  digits.foldl c.push []

end Micheline.Base58
