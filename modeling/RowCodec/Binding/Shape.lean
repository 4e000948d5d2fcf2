import RowCodec.Binding.Mode

/-!
# Shapes of keys and values

* `Object` is a key or value in the hands of the program: one whole value, or a record of fields.
  A position in an object is a lens: `Object.get` and `Object.set`.
* `Shape` is the type of such objects as far as columns can be bound to it: the mode of a whole
  value, or the table of a record's fields.
* `FieldDef` is a field as it is offered for binding: its name, its declared type, and, if the type
  has a binary form, the way into the object (`FieldBinding`).
* `Offer` is all that a type offers for binding. A shape offers its fields as its table lists them
  (`Shape.offer`); a type that is no shape may offer others.
-/

namespace RowCodec

/-! ## 1. Objects -/

/-- A key or a value. -/
inductive Object where
  | whole (value : Value)
  | record (fields : List Value)
deriving DecidableEq

namespace Object

/-- The field at a slot. A whole value is its own field, whatever the slot. -/
def get : Object → Nat → Value
  | whole value, _ => value
  | record fields, slot => fields[slot]?.getD .undefined

/-- The object with the field at a slot replaced. -/
def set : Object → Nat → Value → Object
  | whole _, _, v => whole v
  | record fields, slot, v => record (fields.set slot v)

end Object

/-! ## 2. Fields -/

/-- The way to a field: its slot in the object, and how its type is stored. -/
structure FieldBinding where
  slot : Nat
  mode : Mode
deriving DecidableEq, Repr

namespace FieldBinding

/-- The field's value. -/
def read (f : FieldBinding) (o : Object) : Value := o.get f.slot

/-- The object with the field set; a content that is no value of the field's type is refused. -/
def write (f : FieldBinding) (o : Object) (v : Value) : Except ValueMismatch Object := do
  return o.set f.slot (← f.mode.convert v)

end FieldBinding

/-- A field as it is offered for binding. -/
structure FieldDef where
  name : String
  declared : DeclaredType
  /-- The way to the field, none if its type has no binary form. -/
  binding : Option FieldBinding
deriving DecidableEq, Repr

namespace FieldDef

/-- The field of a name and type at a slot. -/
def new (name : String) (type : DeclaredType) (slot : Nat) : FieldDef :=
  { name, declared := type, binding := type.mode?.map fun mode => ⟨slot, mode⟩ }

/-- Takes the first field of a name out of the fields. -/
def take (name : String) : List FieldDef → Option (FieldDef × List FieldDef)
  | [] => none
  | f :: rest =>
    if f.name = name then some (f, rest)
    else (take name rest).map fun (found, others) => (found, f :: others)

end FieldDef

/-! ## 3. Shapes -/

/-- A field in a record's table. -/
structure Field where
  name : String
  type : DeclaredType
  /-- The field's value in a fresh record. -/
  initial : Value
deriving DecidableEq

/-- A type whose values are stored in one column. -/
structure ScalarShape where
  declared : DeclaredType
  /-- How its values become column contents and back. The types of the library declare what they
      do; a type of its own need not. -/
  codec : Mode
deriving DecidableEq, Repr

/-- The type of a key or value. -/
inductive Shape where
  | scalar (s : ScalarShape)
  | record (fields : List Field)
deriving DecidableEq

namespace Shape

/-- The type that a mode stores. -/
def ofMode (mode : Mode) : Shape := scalar ⟨.encoded mode, mode⟩

/-- A fresh object of the type. -/
def fresh : Shape → Object
  | scalar s => .whole s.codec.initial
  | record fields => .record (fields.map (·.initial))

/-- The fields of a record type, offered for binding in the order of its table. -/
def fieldDefs (fields : List Field) : List FieldDef :=
  fields.mapIdx fun slot f => FieldDef.new f.name f.type slot

end Shape

/-! ## 4. Offers -/

/-- A type of keys or values as it is offered for binding. A field's declared type and its binding are
    whatever the type says they are. -/
inductive Offer where
  | whole (s : ScalarShape)
  /-- The fields of a record, and a fresh object with them. -/
  | record (fresh : Object) (fields : List FieldDef)
deriving DecidableEq

/-- What a shape offers. -/
def Shape.offer : Shape → Offer
  | scalar s => .whole s
  | record fields => .record (record fields).fresh (fieldDefs fields)

end RowCodec
