import RowCodec.ColumnType
import RowCodec.Fault

/-!
# Column groups

A row has two groups of columns, its key and its value. Each group is laid out on its own.

* `Column` is a name, a type, and whether the column may hold a null.
* `Columns` is a group in the order in which it is stored: fixed-size columns first, then text and
  bytes, each kind in the order it was declared in (`Columns.ofList`).
* A fixed-size column has an offset in the group's fixed section: the sizes of the columns before it.
* A group that was read from a file keeps the layout that the file states, whether or not
  `Columns.ofList` would have made it.
-/

namespace RowCodec

/-- A column of a schema. -/
structure Column where
  name : String
  type : ColumnType
  /-- Whether the column may hold a null. -/
  nullable : Bool
deriving DecidableEq, Repr

namespace Column

/-- Whether every value of the column takes the same number of bytes. -/
def isFixedSize (c : Column) : Bool := c.type.isFixedSize

end Column

/-- A group of columns in stored order. -/
structure Columns where
  columns : List Column
  /-- The offset of each fixed-size column in the fixed section. -/
  fixedOffsets : List Nat
  /-- The size of the fixed section. -/
  fixedSize : Nat
  /-- The position of the first column of variable length, if there is one. -/
  firstVarlen : Option Nat
deriving DecidableEq, Repr

namespace Columns

/-- The offsets of columns stored one after the other from a given offset on. -/
def offsetsFrom : Nat → List Column → List Nat
  | _, [] => []
  | offset, c :: rest => offset :: offsetsFrom (offset + c.type.size) rest

/-- The bytes that columns take in the fixed section. -/
def widths : List Column → Nat
  | [] => 0
  | c :: rest => c.type.size + widths rest

/-- The layout of a group declared in the given order. -/
def ofList (declared : List Column) : Columns :=
  let fixed := declared.filter Column.isFixedSize
  let varlen := declared.filter fun c => !c.isFixedSize
  { columns := fixed ++ varlen
    fixedOffsets := offsetsFrom 0 fixed
    fixedSize := widths fixed
    firstVarlen := if varlen.isEmpty then none else some fixed.length }

/-- The number of columns. -/
def length (g : Columns) : Nat := g.columns.length

/-- The column at a position. -/
def column? (g : Columns) (index : Nat) : Option Column := g.columns[index]?

/-- The position of the first column of a name. -/
def find? (g : Columns) (name : String) : Option Nat :=
  g.columns.findIdx? fun c => c.name = name

/-- The number of bytes of the group's null map: one bit a column. -/
def nullMapSize (g : Columns) : Nat := (g.length + 7) / 8

/-- The offset of a fixed-size column in the fixed section. -/
def fixedOffset {ε : Type} (g : Columns) (index : Nat) : Outcome ε Nat :=
  match g.column? index with
  | none => Outcome.abort .outOfBounds
  | some c =>
    if c.isFixedSize then
      match g.fixedOffsets[index]? with
      | some offset => .ok offset
      | none => Outcome.abort .outOfBounds
    else Outcome.abort (.variableLength index)

/-- The number of columns without a fixed offset. -/
def varlenCount {ε : Type} (g : Columns) : Outcome ε Nat :=
  checkedSub g.length g.fixedOffsets.length

end Columns

end RowCodec
