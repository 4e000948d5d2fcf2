import RowCodec.Json.Fields
import RowCodec.Schema

/-!
# Schemas as JSON

Column types are written by name, bit masks as an object with their width. A column group is written
with its layout, and reading it takes the layout as it stands.
-/

namespace RowCodec

namespace ColumnType

/-- The types whose name says all. -/
def plainTypes : List ColumnType :=
  [.number .int1, .number .int2, .number .int4, .number .int8, .number .float4, .number .float8,
   .uuid, .utf8, .blob]

/-- The type of a name. -/
def ofName? (name : String) : Option ColumnType := plainTypes.find? fun t => t.text = name

def toJson : ColumnType → Json
  | bitmask bits => Json.ofMembers [("Bitmask", Json.ofNat bits.toNat)]
  | type => Json.ofText type.text

/-- A type, with `depth` containers left to open. A type without a width may also be written as an
    object that gives its name a null. -/
def ofJson? : Nat → Json → Option ColumnType
  | _, .string pieces => (Piece.toText? pieces).bind ofName?
  | _ + 1, .object [(name, value)] => do
    let name ← Piece.toText? name
    if name = "Bitmask" then
      return bitmask (UInt32.ofNat (← Json.toNat? (Json.maxWord 32) value))
    else
      let type ← ofName? name
      match value with
      | .null => return type
      | _ => none
  | _, _ => none

end ColumnType

namespace Column

def toJson (c : Column) : Json :=
  Json.ofMembers [("name", Json.ofText c.name), ("type", c.type.toJson), ("nullable", .bool c.nullable)]

def ofJson? : Nat → Json → Option Column
  | 0, _ => none
  | depth + 1, j => do
    match ← Json.fields? ["name", "type", "nullable"] j with
    | [name, type, nullable] =>
      return { name := ← Json.required Json.toText? name
               type := ← Json.required (ColumnType.ofJson? depth) type
               nullable := ← Json.required Json.toBool? nullable }
    | _ => none

end Column

namespace Columns

def toJson (g : Columns) : Json :=
  Json.ofMembers
    [("columns", .array (g.columns.map Column.toJson)),
     ("fixed_offsets", .array (g.fixedOffsets.map Json.ofNat)),
     ("fixed_size", Json.ofNat g.fixedSize),
     ("first_varlen", Json.ofOption Json.ofNat g.firstVarlen)]

def ofJson? : Nat → Json → Option Columns
  | 0, _ => none
  | depth + 1, j => do
    let word := Json.toNat? (Json.maxWord 64)
    match ← Json.fields? ["columns", "fixed_offsets", "fixed_size", "first_varlen"] j with
    | [columns, fixedOffsets, fixedSize, firstVarlen] =>
      return { columns := ← Json.required (Json.toList? Column.ofJson? depth) columns
               fixedOffsets := ← Json.required (Json.toList? (fun _ => word) depth) fixedOffsets
               fixedSize := ← Json.required word fixedSize
               firstVarlen := ← Json.optional word firstVarlen }
    | _ => none

end Columns

def Fingerprint.toJson (f : Fingerprint) : Json := Json.ofNat f.hash.toNat

def Schema.toJson (s : Schema) : Json :=
  Json.ofMembers
    [("version", Json.ofNat s.version.toNat), ("fingerprint", s.fingerprint.toJson),
     ("key", s.key.toJson), ("value", s.value.toJson)]

/-- The type that a JSON text stands for. -/
def ColumnType.parse? (text : String) : Option ColumnType :=
  (Json.parse? false text).bind (ColumnType.ofJson? Json.maxDepth)

/-- The column group that a JSON text stands for. -/
def Columns.parse? (text : String) : Option Columns :=
  (Json.parse? false text).bind (Columns.ofJson? Json.maxDepth)

end RowCodec
