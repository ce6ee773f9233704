/-
Micheline/Form/Format.lean

Checks of texts that a form takes for identifiers, bytes and points in time.  A text passes
exactly if its binary form can be made.
-/
import Micheline.Error
import Micheline.Identifier.Role

namespace Micheline.Format

def all : List Format :=
  [.identifier .address, .identifier .keyHash, .identifier .key, .identifier .signature,
    .identifier .chainId, .identifier .rollupAddress, .bytes, .timestamp]

def ofName? (name : String) : Option Format :=
  all.find? fun format => format.name == name

/-- What is wrong with a text, if anything is. -/
def fault? (format : Format) (text : String) : Option FormatFault :=
  match format with
  | .identifier role =>
    match role.toBytes text with
    | .ok _ => none
    | .error cause => some (.identifier cause)
  | .bytes =>
    match Hex.decode (Hex.dropMarker text) with
    | .ok _ => none
    | .error cause => some (.hex cause)
  | .timestamp =>
    match Calendar.Timestamp.validate text with
    | .ok _ => none
    | .error cause => some (.timestamp cause)

/-- Rejects a text that does not have the format. -/
def check (format : Format) (text : String) : Except Rejection Unit :=
  match format.fault? text with
  | none => .ok ()
  | some cause => .error { format, text, cause }

end Micheline.Format
