import RowCodec.Schema.Fingerprint

/-!
# Encoded tuples

A tuple as bytes, `fingerprint ++ key chunk ++ value chunk`, whether or not a schema accepts it.
-/

namespace RowCodec

/-- The bytes of a tuple. -/
structure EncodedTuple where
  bytes : List UInt8
deriving DecidableEq, Repr

namespace EncodedTuple

/-- The fingerprint a tuple starts with; none when it is too short to hold one. -/
def fingerprint? (t : EncodedTuple) : Option Fingerprint :=
  if Fingerprint.size ≤ t.bytes.length then
    some (Fingerprint.ofBytes (t.bytes.take Fingerprint.size))
  else none

end EncodedTuple

end RowCodec
