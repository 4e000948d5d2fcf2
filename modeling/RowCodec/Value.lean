import RowCodec.BitSet
import RowCodec.ColumnType

/-!
# Column values

* `Value` is one column's content; `Value.undefined` is the null.
* Numbers are kept as the words that are stored, so a float keeps its sign and payload bit for bit,
  and equality of values (`=`) is equality of what a row holds.
* `Value.agrees` is equality with floats compared as numbers: no NaN agrees with anything, and the
  two zeros agree.
-/

namespace RowCodec

/-- A UUID: sixteen bytes in their written order. -/
structure Uuid where
  bytes : List UInt8
  length_bytes : bytes.length = 16
deriving DecidableEq

/-- The content of one column. -/
inductive Value where
  /-- The null. -/
  | undefined
  | number (kind : NumberKind) (word : kind.Word)
  | uuid (id : Uuid)
  | bitSet (bits : BitSet)
  | utf8 (text : String)
  | blob (bytes : List UInt8)
deriving DecidableEq

instance : Inhabited Value := ⟨.undefined⟩

namespace NumberKind

/-- The magnitude of the infinities of a float format; integers have none. -/
def infinity? : NumberKind → Option Nat
  | float4 => some 0x7f800000
  | float8 => some 0x7ff0000000000000
  | _ => none

/-- Equality of two stored numbers of one kind as numbers. Floats are equal when both are zeros, or
    when they are the same word and not a NaN. -/
def agrees (kind : NumberKind) (m n : Nat) : Bool :=
  match kind.infinity? with
  | none => m = n
  | some infinity =>
    let magnitude (w : Nat) := w % (1 <<< (8 * kind.size - 1))
    (magnitude m = 0 ∧ magnitude n = 0) ∨ (m = n ∧ magnitude m ≤ infinity)

end NumberKind

namespace Value

/-- Whether the value is the null. -/
def isUndefined : Value → Bool
  | undefined => true
  | _ => false

/-- The type of the column the value is made for, none for the null. A bit set is made for the
    narrowest bit mask that holds it. -/
def type? : Value → Option ColumnType
  | undefined => none
  | number kind _ => some (.number kind)
  | uuid _ => some .uuid
  | bitSet bits => some (.bitmask (UInt32.ofNat bits.length))
  | utf8 _ => some .utf8
  | blob _ => some .blob

/-- The value's type as it is shown in reports. -/
def text (v : Value) : String :=
  match v.type? with
  | some type => type.text
  | none => "undefined"

/-- Equality with floats compared as numbers. -/
def agrees : Value → Value → Bool
  | number kind m, number kind' n => kind = kind' && kind.agrees m.toNat n.toNat
  | a, b => a = b

end Value

end RowCodec
