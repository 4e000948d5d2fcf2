/-!
# Types of columns

* `NumberKind` names the six kinds of number; each is stored in `NumberKind.size` bytes.
* `ColumnType` is what a column can hold. Numbers, UUIDs and bit masks take a fixed number of bytes
  (`ColumnType.size`); text and bytes take as many as the value has.
* `sameKind` compares types up to the width of a bit mask: a bit set of any length may be offered to
  a bit mask column.
* `tag` is the type's number in a schema's content hash; the numbers are part of the format.
-/

namespace RowCodec

/-- The kinds of number that a column can hold. -/
inductive NumberKind where
  | int1 | int2 | int4 | int8 | float4 | float8
deriving DecidableEq, Repr

namespace NumberKind

/-- The number of bytes a number takes. -/
def size : NumberKind → Nat
  | int1 => 1
  | int2 => 2
  | int4 => 4
  | int8 => 8
  | float4 => 4
  | float8 => 8

/-- The name of the kind. -/
def text : NumberKind → String
  | int1 => "Int1"
  | int2 => "Int2"
  | int4 => "Int4"
  | int8 => "Int8"
  | float4 => "Float4"
  | float8 => "Float8"

/-- The kind's number in the format. -/
def tag : NumberKind → UInt8
  | int1 => 1
  | int2 => 2
  | int4 => 3
  | int8 => 4
  | float4 => 5
  | float8 => 6

/-- A number as it is stored: two's complement for integers, the IEEE 754 format for floats. -/
abbrev Word (kind : NumberKind) := BitVec (8 * kind.size)

end NumberKind

/-- The type of a column. -/
inductive ColumnType where
  | number (kind : NumberKind)
  | uuid
  /-- A set of bit indices below `bits`. -/
  | bitmask (bits : UInt32)
  | utf8
  | blob
deriving DecidableEq, Repr

namespace ColumnType

/-- Whether every value of the type takes the same number of bytes. -/
def isFixedSize : ColumnType → Bool
  | utf8 => false
  | blob => false
  | _ => true

/-- The bytes that a value takes in the fixed section: none for text and bytes. -/
def size : ColumnType → Nat
  | number kind => kind.size
  | uuid => 16
  | bitmask bits => (bits.toNat + 7) / 8
  | utf8 => 0
  | blob => 0

/-- Equality up to the width of a bit mask. -/
def sameKind : ColumnType → ColumnType → Bool
  | bitmask _, bitmask _ => true
  | a, b => a = b

/-- The type's number in the format. -/
def tag : ColumnType → UInt8
  | number kind => kind.tag
  | uuid => 7
  | bitmask _ => 8
  | utf8 => 9
  | blob => 10

/-- The type as it is shown in reports. -/
def text : ColumnType → String
  | number kind => kind.text
  | uuid => "Uuid"
  | bitmask bits => s!"Bitmask({bits.toNat})"
  | utf8 => "Utf8"
  | blob => "Blob"

end ColumnType

end RowCodec
