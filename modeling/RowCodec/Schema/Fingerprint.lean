import RowCodec.Bytes.Hex
import RowCodec.Bytes.LittleEndian
import RowCodec.Bytes.Utf8
import RowCodec.Hash.Xxh3
import RowCodec.Schema.Columns

/-!
# Fingerprints of schemas

Every row starts with the fingerprint of the schema it was written under, so that a reader with
another layout refuses it.

* `Fingerprint.preimage` writes out a layout: each column of the key, then each column of the value,
  in stored order, with its group, name, type and nullability.
* `Fingerprint.ofColumns` is the 64-bit hash of that; the schema's version is no part of it.
-/

namespace RowCodec

/-- The content hash of a schema's layout. -/
structure Fingerprint where
  hash : UInt64
deriving DecidableEq, Repr

namespace Fingerprint

/-- The number of bytes a fingerprint takes in a row. -/
def size : Nat := 8

/-- The fingerprint as it is stored. -/
def toBytes (f : Fingerprint) : List UInt8 := LittleEndian.encode size f.hash.toNat

/-- The fingerprint stored in the given bytes. -/
def ofBytes (bytes : List UInt8) : Fingerprint := ⟨UInt64.ofNat (LittleEndian.decode bytes)⟩

/-- The fingerprint as it is shown: sixteen hexadecimal digits. -/
def text (f : Fingerprint) : String := Hex.ofNat 16 f.hash.toNat

/-- What a column's type adds to the preimage: its tag, and the width of a bit mask. -/
def typeRecord : ColumnType → List UInt8
  | .bitmask bits => (ColumnType.bitmask bits).tag :: LittleEndian.encode 4 bits.toNat
  | type => [type.tag]

/-- What a column adds to the preimage. -/
def columnRecord (group : UInt8) (c : Column) : List UInt8 :=
  let name := Utf8.encode c.name
  group :: LittleEndian.encode 4 name.length ++ name ++ typeRecord c.type
    ++ [if c.nullable then 1 else 0]

/-- The layout of a schema, written out. -/
def preimage (key value : Columns) : List UInt8 :=
  key.columns.flatMap (columnRecord 0) ++ value.columns.flatMap (columnRecord 1)

/-- The fingerprint of a layout. -/
def ofColumns (key value : Columns) : Fingerprint := ⟨Xxh3.hash (preimage key value)⟩

end Fingerprint

end RowCodec
