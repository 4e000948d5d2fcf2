import RowCodec.Json.Fields
import RowCodec.Tuple.Encoded

/-!
# Encoded tuples as JSON

A tuple is written as the array of its bytes. It may also be read from a string, which stands for
its bytes as they are, control characters and lone surrogates included.
-/

namespace RowCodec.EncodedTuple

def toJson (t : EncodedTuple) : Json := .array (t.bytes.map fun b => Json.ofNat b.toNat)

def ofJson? (depth : Nat) : Json → Option EncodedTuple
  | .string pieces => some ⟨Piece.toBytes pieces⟩
  | j => do
    let bytes ← Json.toList? (fun _ => Json.toNat? (Json.maxWord 8)) depth j
    return ⟨bytes.map UInt8.ofNat⟩

/-- The tuple that a JSON text stands for. -/
def parse? (text : String) : Option EncodedTuple :=
  (Json.parse? true text).bind (ofJson? Json.maxDepth)

end RowCodec.EncodedTuple
