import RowCodec.Binding.Accessor

/-!
# Bound column groups

All accessors of one column group: the key's or the value's.

* `GroupBinding.ofOffer` binds a type to a group, and `GroupBinding.ofShape` a shape. A scalar needs the
  group to be one column; a record needs, for each column in stored order, a field of its name, the
  first such field that no earlier column took. Fields that no column names are left unbound.
* `GroupBinding.write` and `GroupBinding.read` take a whole object to a tuple and back, column by
  column.
* `GroupBinding.statistic` is what the size of the group's chunk depends on.
-/

namespace RowCodec

/-- The accessors of one column group. -/
inductive GroupBinding where
  /-- The object is the group's only column. -/
  | whole (accessor : Accessor)
  /-- One accessor a column, filling a fresh object when read. -/
  | record (fresh : Object) (accessors : List Accessor)
deriving DecidableEq

namespace GroupBinding

/-! ## 1. Binding -/

/-- Binds columns, the first of which has the given index, to fields. -/
def bindColumns (redact : Bool) : Nat → List Column → List FieldDef →
    Except BindingError (List Accessor)
  | _, [], _ => .ok []
  | index, column :: rest, fields =>
    match FieldDef.take column.name fields with
    | none => .error (.unknownField column.name)
    | some (field, others) => do
      let accessor ← Accessor.ofField field column index redact
      return accessor :: (← bindColumns redact (index + 1) rest others)

/-- Binds a type to a column group whose first column has the index `offset`. -/
def ofOffer (offer : Offer) (columns : Columns) (offset : Nat) (side : String) (redact : Bool) :
    Except BindingError GroupBinding :=
  match offer with
  | .whole scalar =>
    match columns.columns with
    | [column] => do return .whole (← Accessor.ofWhole column offset scalar redact)
    | _ => .error (.identityColumnCount side columns.length)
  | .record fresh fields => do
    let accessors ← bindColumns redact offset columns.columns fields
    return .record fresh accessors

/-- Binds a shape to a column group. -/
def ofShape (shape : Shape) (columns : Columns) (offset : Nat) (side : String) (redact : Bool) :
    Except BindingError GroupBinding :=
  ofOffer shape.offer columns offset side redact

/-- The accessors in column order. -/
def accessors : GroupBinding → List Accessor
  | whole accessor => [accessor]
  | record _ accessors => accessors

/-- Whether the group is bound to a whole object. -/
def isWhole : GroupBinding → Bool
  | whole _ => true
  | record _ _ => false

/-- Whether the object is a whole one that holds nothing. -/
def isNull (g : GroupBinding) (o : Object) : Bool :=
  match g with
  | whole accessor => (accessor.value o).isUndefined
  | record _ _ => false

/-! ## 2. Objects and tuples -/

/-- The bound value of the column at a position of the group. -/
def value {ε : Type} (g : GroupBinding) (o : Object) (position : Nat) : Outcome ε Value :=
  match g.accessors[position]? with
  | some accessor => .ok (accessor.value o)
  | none => Outcome.abort .outOfBounds

/-- Appends the bound values of some columns in order, as far as the first that faults. -/
def writeAll (o : Object) : List Accessor → Builder → Step Diagnostic
  | [], b => ⟨b, .ok ()⟩
  | accessor :: rest, b =>
    let step := accessor.write o b
    match step.outcome with
    | .ok () => writeAll o rest step.builder
    | .error fault => ⟨step.builder, .error fault⟩

/-- Appends the object's columns. -/
def write (g : GroupBinding) (o : Object) (b : Builder) : Step Diagnostic :=
  writeAll o g.accessors b

/-- The object with the bound fields of some columns read in order. -/
def readAll (t : View) : List Accessor → Object → Outcome Diagnostic Object
  | [], o => .ok o
  | accessor :: rest, o => do readAll t rest (← accessor.read o t)

/-- The object that a tuple holds in the group's columns. -/
def read (g : GroupBinding) (t : View) : Outcome Diagnostic Object :=
  match g with
  | whole accessor => accessor.readWhole t
  | record fresh accessors => readAll t accessors fresh

/-- The statistic with the bound values of columns of variable length added. -/
def recordValues {ε : Type} (g : GroupBinding) (o : Object) :
    List Nat → Statistic → Outcome ε Statistic
  | [], stat => .ok stat
  | position :: rest, stat => do
    match ← g.value o position with
    | .undefined => recordValues g o rest stat
    | .utf8 text => recordValues g o rest (stat.record (Utf8.encode text).length)
    | .blob bytes => recordValues g o rest (stat.record bytes.length)
    | _ => Outcome.abort (.fixedSizeValue position)

/-- The object's non-null texts and byte strings. -/
def statistic {ε : Type} (g : GroupBinding) (columns : Columns) (o : Object) :
    Outcome ε Statistic := do
  (← recordValues g o (columns.varlenBefore columns.length) .empty).checked

end GroupBinding

end RowCodec
