/-
Micheline/Base58/Checked.lean

Base 58 with a checksum: four bytes that depend on the data stand behind it.  What is said
here holds for any function from bytes to four bytes; the one in use is the beginning of
the SHA-256 hash of the SHA-256 hash.
-/
import Micheline.Base58.Basic
import Micheline.Digest.Sha256

namespace Micheline.Base58

/-- A checksum: four bytes for any data. -/
structure Checksum where
  bytes : Bytes → Bytes
  length_bytes : ∀ data, (bytes data).length = 4

/-- The first four bytes of the double SHA-256 hash. -/
def doubleSha256 : Checksum where
  bytes data := (sha256 (sha256 data)).take 4
  length_bytes data := by simp [length_sha256]

/-- The text of bytes with their checksum. -/
def encodeChecked (sum : Checksum) (data : Bytes) : String :=
  encode (data ++ sum.bytes data)

/-- The bytes of a text that ends with their checksum. -/
def decodeChecked (sum : Checksum) (text : String) : Except Error Bytes := do
  let raw ← decode text
  if raw.length < 4 then throw (.tooShort text)
  let data := raw.take (raw.length - 4)
  if sum.bytes data = raw.drop (raw.length - 4) then return data
  else throw (.checksumMismatch text)

end Micheline.Base58
