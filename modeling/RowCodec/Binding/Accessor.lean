import RowCodec.Binding.Error
import RowCodec.Binding.Shape
import RowCodec.Tuple.Builder
import RowCodec.Tuple.View

/-!
# Bound columns

An accessor ties one column of a schema to one field of an object, or to the object as a whole.

* `Accessor.ofField` and `Accessor.ofWhole` check the tie once, when it is made.
* `Accessor.write` appends the bound value to a tuple being written; `Accessor.read` gives the object
  with the bound field read from a tuple; `Accessor.readWhole` reads a whole object.
* `Accessor.fill` is `Accessor.read` in place: it goes through the reading step by step and says what
  the object is afterwards, whether the column could be read or not (`Filling`).
* A failed write or read is reported with the field's name and column, or, under redaction, with the
  column's index only (`Accessor.failure`).
-/

namespace RowCodec

/-- What a column is bound to. -/
inductive Target where
  | field (binding : FieldBinding)
  | whole (codec : Mode)
deriving DecidableEq, Repr

/-- A bound column. -/
structure Accessor where
  /-- The column's index in the row. -/
  index : Nat
  /-- The name of the field, or of the column of a whole object. -/
  name : String
  column : ReportColumn
  mode : Mode
  /-- Whether failures must not show names. -/
  redact : Bool
  target : Target
deriving DecidableEq, Repr

/-- What filling a field leaves behind: the object afterwards, and how the filling ended. -/
structure Filling where
  object : Object
  outcome : Outcome Diagnostic Unit

namespace Filling

/-- The same filling with its cause told in other words. -/
def mapCause (f : Diagnostic → Diagnostic) (filling : Filling) : Filling :=
  ⟨filling.object, filling.outcome.mapCause f⟩

/-- Goes on with an answer; a fault ends the filling and leaves `o`. -/
def onward {α : Type} (o : Object) (outcome : Outcome Diagnostic α) (next : α → Filling) : Filling :=
  match outcome with
  | .ok a => next a
  | .error fault => ⟨o, .error fault⟩

end Filling

/-- The field set in place. A content that is no value of the field's type is refused before anything is
    stored. -/
def FieldBinding.assign (f : FieldBinding) (o : Object) (v : Value) : Filling :=
  .onward o (Outcome.ofExcept ((f.mode.convert v).mapError ValueMismatch.diagnostic)) fun v =>
  ⟨o.set f.slot v, .ok ()⟩

namespace Accessor

/-! ## 1. Binding -/

/-- A column as reports show it. -/
def describe (c : Column) : ReportColumn := ⟨c.name, c.type⟩

/-- Refuses a mode that the column cannot store. -/
def checkColumnType (field : String) (mode : Mode) (column : Column) : Except BindingError Unit :=
  if mode.accepts column.type then .ok ()
  else .error (.columnTypeMismatch field mode column.name column.type)

/-- Binds a column to a field. -/
def ofField (field : FieldDef) (column : Column) (index : Nat) (redact : Bool) :
    Except BindingError Accessor :=
  match field.declared.mode?, field.binding with
  | some mode, some binding =>
    if mode.isPrimitive && column.nullable then
      .error (.primitiveNullableColumn field.name field.declared column.name)
    else do
      checkColumnType field.name mode column
      return { index, name := field.name, column := describe column, mode, redact,
               target := .field binding }
  | _, _ => .error (.unsupportedType field.name field.declared)

/-- Binds a group's only column to a whole object. -/
def ofWhole (column : Column) (index : Nat) (shape : ScalarShape) (redact : Bool) :
    Except BindingError Accessor :=
  match shape.declared.mode? with
  | none => .error (.unsupportedType column.name shape.declared)
  | some mode =>
    if mode.isPrimitive then .error (.primitiveIdentity column.name shape.declared)
    else do
      checkColumnType column.name mode column
      return { index, name := column.name, column := describe column, mode, redact,
               target := .whole shape.codec }

/-- Whether the column is bound to a whole object. -/
def isWhole (a : Accessor) : Bool :=
  match a.target with
  | .field _ => false
  | .whole _ => true

/-! ## 2. Failures -/

/-- The report of a failed operation. -/
def failure (a : Accessor) (operation : Operation) (cause : Diagnostic) : Diagnostic :=
  BindingError.diagnostic <|
    if a.redact then .serialization operation (.numbered a.index) none cause
    else .serialization operation (.named a.name) (some a.column) cause

/-! ## 3. Writing and reading -/

/-- The bound value. -/
def value (a : Accessor) (o : Object) : Value :=
  match a.target with
  | .field binding => binding.read o
  | .whole _ => o.get 0

/-- Appends the bound value. A whole object that holds nothing panics. -/
def write (a : Accessor) (o : Object) (b : Builder) : Step Diagnostic :=
  if a.isWhole && (a.value o).isUndefined then ⟨b, Outcome.abort .nullValue⟩
  else (b.append (a.value o)).mapCause fun e => a.failure .write e.diagnostic

/-- The column's content as the accessor's mode reads it: each mode has its own getter, whatever the
    column's type is. -/
def readValue (a : Accessor) (t : View) : Outcome Diagnostic Value :=
  Outcome.mapCause TupleError.diagnostic do
    let value : Option Value ← match a.mode with
      | .required kind | .nullable kind => Option.map (.number kind) <$> t.number? kind a.index
      | .utf8 => Option.map .utf8 <$> t.utf8? a.index
      | .uuid => Option.map .uuid <$> t.uuid? a.index
      | .blob => Option.map .blob <$> t.blob? a.index
      | .bitmask => Option.map .bitSet <$> t.bitSet? a.index
    return value.getD .undefined

/-- The column's content as a value of a type; a number that is always there refuses a null. -/
def readAs (a : Accessor) (t : View) : Mode → Outcome Diagnostic Value
  | .required kind => do
    return .number kind (← (t.number kind a.index).mapCause TupleError.diagnostic)
  | mode => do
    let v ← a.readValue t
    Outcome.ofExcept ((mode.convert v).mapError ValueMismatch.diagnostic)

/-- The object with the bound field read from a tuple. A column bound to a whole object has no field
    to fill and panics. -/
def read (a : Accessor) (o : Object) (t : View) : Outcome Diagnostic Object :=
  match a.target with
  | .field binding =>
    Outcome.mapCause (a.failure .read) do return o.set binding.slot (← a.readAs t binding.mode)
  | .whole _ => Outcome.abort (.noFieldToPopulate a.index)

/-- The bound field of an object read from a tuple, in place. A number that is always there is stored as
    it is read; any other value is read first and then assigned. -/
def fill (a : Accessor) (o : Object) (t : View) : Filling :=
  match a.target with
  | .field binding => Filling.mapCause (a.failure .read) <|
    match binding.mode with
    | .required kind =>
      .onward o ((t.number kind a.index).mapCause TupleError.diagnostic) fun word =>
      ⟨o.set binding.slot (.number kind word), .ok ()⟩
    | _ => .onward o (a.readValue t) fun v => binding.assign o v
  | .whole _ => ⟨o, Outcome.abort (.noFieldToPopulate a.index)⟩

/-- The whole object read from a tuple. A column bound to a field panics. -/
def readWhole (a : Accessor) (t : View) : Outcome Diagnostic Object :=
  match a.target with
  | .field _ => Outcome.abort (.noWholeObject a.index)
  | .whole codec =>
    Outcome.mapCause (a.failure .read) do
      let v ← a.readValue t
      return .whole (← Outcome.ofExcept ((codec.convert v).mapError ValueMismatch.diagnostic))

end Accessor

end RowCodec
