import RowCodec.Diagnostic
import RowCodec.Value

/-!
# Types of fields

How a program's own types are stored in columns.

* `Mode` is one of the sixteen types with a binary form: a number that is always there, a number
  that may be missing, and text, UUIDs, bytes and bit sets, which may all be missing.
* `DeclaredType` is what a field says of itself: a type with a mode, or one without a binary form,
  known by its name only.
* `Mode.accepts` says which columns can store a mode, and `Mode.holds` which column contents are
  values of the type; `Mode.convert` refuses the others.
-/

namespace RowCodec

/-- The types with a binary form. -/
inductive Mode where
  /-- A number that is always there. -/
  | required (kind : NumberKind)
  /-- A number or nothing. -/
  | nullable (kind : NumberKind)
  | utf8
  | uuid
  | blob
  | bitmask
deriving DecidableEq, Repr

namespace NumberKind

def all : List NumberKind := [int1, int2, int4, int8, float4, float8]

/-- The name of the program type of such numbers. -/
def typeName : NumberKind → String
  | int1 => "i8"
  | int2 => "i16"
  | int4 => "i32"
  | int8 => "i64"
  | float4 => "f32"
  | float8 => "f64"

/-- The name of the mode that stores such numbers. -/
def modeName : NumberKind → String
  | int1 => "INT1"
  | int2 => "INT2"
  | int4 => "INT4"
  | int8 => "INT8"
  | float4 => "FLOAT4"
  | float8 => "FLOAT8"

end NumberKind

namespace Mode

/-- All modes. -/
def all : List Mode :=
  NumberKind.all.map required ++ NumberKind.all.map nullable ++ [utf8, uuid, blob, bitmask]

/-- The name of the mode. -/
def text : Mode → String
  | required kind => kind.modeName
  | nullable kind => "NULLABLE_" ++ kind.modeName
  | utf8 => "UTF8"
  | uuid => "UUID"
  | blob => "BLOB"
  | bitmask => "BITMASK"

/-- The name of the program type that the mode stores. -/
def typeName : Mode → String
  | required kind => kind.typeName
  | nullable kind => "Option<" ++ kind.typeName ++ ">"
  | utf8 => "Option<String>"
  | uuid => "Option<Uuid>"
  | blob => "Option<Vec<u8>>"
  | bitmask => "Option<BitSet>"

/-- Whether the type has no way to be missing. -/
def isPrimitive : Mode → Bool
  | required _ => true
  | _ => false

/-- Whether values of the mode can be stored in a column of the given type. A bit mask of any width
    stores bit sets. -/
def accepts (m : Mode) (type : ColumnType) : Bool :=
  match m with
  | required kind | nullable kind => type = .number kind
  | utf8 => type = .utf8
  | uuid => type = .uuid
  | blob => type = .blob
  | bitmask =>
    match type with
    | .bitmask _ => true
    | _ => false

/-- The value of a field that nobody filled: zero, or nothing. -/
def initial : Mode → Value
  | required kind => .number kind 0
  | _ => .undefined

/-- Whether a column content is a value of the type. -/
def holds : Mode → Value → Bool
  | required kind, .number kind' _ => kind = kind'
  | nullable kind, .number kind' _ => kind = kind'
  | utf8, .utf8 _ => true
  | uuid, .uuid _ => true
  | blob, .blob _ => true
  | bitmask, .bitSet _ => true
  | required _, .undefined => false
  | _, .undefined => true
  | _, _ => false

end Mode

/-- A column content that is no value of the type it was read for. -/
structure ValueMismatch where
  /-- The type's name. -/
  expected : String
  /-- The type of the content. -/
  found : String
deriving DecidableEq, Repr

namespace ValueMismatch

/-- The mismatch in words. -/
def message (e : ValueMismatch) : String :=
  "expected " ++ e.expected ++ " value, found " ++ e.found

/-- The report with its advice. -/
def diagnostic (e : ValueMismatch) : Diagnostic :=
  ((Diagnostic.new "TYPE_001" e.message).withLabel "value of unexpected type").withHelp
    ("bind a field whose declared type reads " ++ e.expected ++ " values")

end ValueMismatch

/-- The column content as a value of the type. -/
def Mode.convert (m : Mode) (v : Value) : Except ValueMismatch Value :=
  if m.holds v then .ok v else .error ⟨m.typeName, v.text⟩

/-- The type that a field or a whole key or value is declared with. -/
inductive DeclaredType where
  | encoded (mode : Mode)
  /-- A type without a binary form. -/
  | unsupported (name : String)
deriving DecidableEq, Repr

namespace DeclaredType

/-- The name of the type. -/
def text : DeclaredType → String
  | encoded mode => mode.typeName
  | unsupported name => name

/-- How the type is stored, none if it has no binary form. -/
def mode? : DeclaredType → Option Mode
  | encoded mode => some mode
  | unsupported _ => none

/-- The type of a name; every name that no mode has is a type without a binary form. -/
def ofText (name : String) : DeclaredType :=
  match Mode.all.find? fun m => m.typeName = name with
  | some mode => encoded mode
  | none => unsupported name

/-- The value of a field that nobody filled. -/
def initial : DeclaredType → Value
  | encoded mode => mode.initial
  | unsupported _ => .undefined

end DeclaredType

end RowCodec
