/-
Micheline/Binary/Integer.lean

Integers of any size as bytes.  The first byte holds six bits of the magnitude, the sign
in the bit of weight 64 and, in the bit of weight 128, whether more bytes follow.  Each
later byte holds the next seven bits and the same mark.  Lower bits come first.

Writing uses as few bytes as the magnitude needs; reading also accepts longer forms.
-/
import Micheline.Binary.Error

namespace Micheline.Binary.Integer

/-! ### Writing -/

/-- A positive number, or zero, in groups of seven bits; the last group is not marked. -/
def groups (n : Nat) : Bytes :=
  if n < 128 then [UInt8.ofNat n]
  else UInt8.ofNat (n % 128 + 128) :: groups (n / 128)
termination_by n
decreasing_by omega

/-- The weight of the sign. -/
def signBit (value : Int) : Nat :=
  if value < 0 then 64 else 0

def encode (value : Int) : Bytes :=
  let m := value.natAbs
  if m < 64 then [UInt8.ofNat (m + signBit value)]
  else UInt8.ofNat (m % 64 + signBit value + 128) :: groups (m / 64)

/-! ### Reading -/

/-- Whether a byte says that more follow. -/
def continues (byte : UInt8) : Bool :=
  128 ≤ byte.toNat

/-- The number in the groups of seven bits at the front, and how many bytes they take; none if
the data ends before the last group. -/
def takeGroups : Bytes → Option (Nat × Nat)
  | [] => none
  | b :: rest =>
    if continues b then do
      let (n, used) ← takeGroups rest
      return (b.toNat % 128 + 128 * n, used + 1)
    else some (b.toNat, 1)

/-- An integer from its sign and its magnitude. -/
def signed (first : UInt8) (magnitude : Nat) : Int :=
  if first.toNat / 64 % 2 = 1 then -(magnitude : Int) else magnitude

/-- The integer at the front of the data, and how many bytes it takes. -/
def decode : Bytes → Except Error (Int × Nat)
  | [] => .error (.tooFewBytes 1 0)
  | b :: rest =>
    if continues b then
      match takeGroups rest with
      | some (n, used) => .ok (signed b (b.toNat % 64 + 64 * n), used + 1)
      | none => .error (.tooFewBytes (rest.length + 2) (rest.length + 1))
    else .ok (signed b (b.toNat % 64), 1)

/-- The integer at the front of the data, and the bytes after it. -/
def read (data : Bytes) : Except Error (Int × Bytes) := do
  let (value, used) ← decode data
  return (value, data.drop used)

end Micheline.Binary.Integer
