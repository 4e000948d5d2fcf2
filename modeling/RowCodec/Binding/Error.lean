import RowCodec.Binding.Mode

/-!
# Failures of bindings

Why a type cannot be bound to a group of columns, and which field a row could not be written from or
read into.

`BindingError.serialization` names the field and its column, or, where names must not be shown, the
column's index only.
-/

namespace RowCodec

/-- What was done to a field when it failed. -/
inductive Operation where
  | read | write
deriving DecidableEq, Repr

/-- The verb in a message. -/
def Operation.text : Operation → String
  | read => "read"
  | write => "write"

/-- The code of a failed operation. -/
def Operation.code : Operation → String
  | write => "MARSHAL_010"
  | read => "MARSHAL_011"

/-- How a failure names a field. -/
inductive FieldTarget where
  | named (name : String)
  | numbered (index : Nat)
deriving DecidableEq, Repr

/-- The field in a message. -/
def FieldTarget.text : FieldTarget → String
  | named name => "name=" ++ name
  | numbered index => "id=" ++ toString index

/-- Why a type was not bound, or a field not written or read. -/
inductive BindingError where
  /-- A column without a field of its name. -/
  | unknownField (column : String)
  /-- A field whose type has no binary form. -/
  | unsupportedType (field : String) (declared : DeclaredType)
  /-- A number that is always there, for a column that may hold a null. -/
  | primitiveNullableColumn (field : String) (declared : DeclaredType) (column : String)
  /-- A number that is always there, as a whole key or value. -/
  | primitiveIdentity (column : String) (declared : DeclaredType)
  | columnTypeMismatch (field : String) (mode : Mode) (column : String) (columnType : ColumnType)
  /-- A whole key or value for a group of more or fewer columns than one. -/
  | identityColumnCount (side : String) (count : Nat)
  | serialization (operation : Operation) (target : FieldTarget) (column : Option ReportColumn)
      (cause : Diagnostic)
deriving DecidableEq, Repr

namespace BindingError

/-- The cause in words. -/
def message : BindingError → String
  | unknownField column => s!"no field for column `{column}`"
  | unsupportedType field declared => s!"field `{field}` has unsupported type {declared.text}"
  | primitiveNullableColumn field declared column =>
      s!"primitive field `{field}` of type {declared.text} cannot be bound to nullable column `{column}`"
  | primitiveIdentity column declared =>
      s!"primitive type {declared.text} cannot be bound to column `{column}` as a whole key or value"
  | columnTypeMismatch field mode column columnType =>
      s!"field `{field}` of mode {mode.text} cannot be stored in column `{column}` of type {columnType.text}"
  | identityColumnCount side count =>
      s!"scalar {side} type needs exactly one {side} column, schema has {count}"
  | serialization operation target _ _ => s!"failed to {operation.text} field [{target.text}]"

/-- The stable code of the cause. -/
def code : BindingError → String
  | unknownField _ => "MARSHAL_001"
  | unsupportedType _ _ => "MARSHAL_002"
  | primitiveNullableColumn _ _ _ => "MARSHAL_003"
  | primitiveIdentity _ _ => "MARSHAL_004"
  | columnTypeMismatch _ _ _ _ => "MARSHAL_005"
  | identityColumnCount _ _ => "MARSHAL_006"
  | serialization operation _ _ _ => operation.code

/-- The report with the advice that belongs to the cause. -/
def diagnostic (e : BindingError) : Diagnostic :=
  let report := Diagnostic.new e.code e.message
  match e with
  | unknownField _ => report.withHelp "add a field named after the column to the record"
  | unsupportedType _ _ => report.withHelp
      "use one of i8, i16, i32, i64, f32, f64, their Option forms, Option<String>, Option<Uuid>, Option<Vec<u8>> or Option<BitSet>"
  | primitiveNullableColumn _ _ _ =>
      report.withHelp "declare the field as an Option so it can hold null"
  | primitiveIdentity _ _ =>
      (report.withHelp "use the Option form of the type").withNote
        "a whole key or value must be able to report null"
  | columnTypeMismatch _ _ _ _ => report.withLabel "field type does not match the column type"
  | identityColumnCount _ _ =>
      report.withHelp "bind a record type with one field per column instead"
  | serialization _ _ column cause =>
      let report := report.withCause cause
      match column with
      | some column => report.withColumn column
      | none => report

end BindingError

end RowCodec
