import RowCodec.Tuple.Error

/-!
# Schemas

One version of a table's columns: a key group and a value group, laid out and fingerprinted.

* `Schema.define` refuses a schema without key columns, then one that uses a name twice, naming the
  first column whose name occurred before it, and lays out the rest.
* Columns are addressed by one index over both groups: the key's columns first, then the value's
  (`Schema.column?`, `Schema.locate?`).
-/

namespace RowCodec

/-- A defined schema. -/
structure Schema where
  version : UInt32
  fingerprint : Fingerprint
  key : Columns
  value : Columns
deriving DecidableEq, Repr

namespace Schema

/-- The first name that occurred before, among the names already seen or in the list itself. -/
def firstRepeated (seen : List String) : List String → Option String
  | [] => none
  | name :: rest => if name ∈ seen then some name else firstRepeated (name :: seen) rest

/-- The schema of the given columns, in declared order. -/
def define (version : UInt32) (key value : List Column) : Except TupleError Schema :=
  if key.isEmpty then .error .emptyKey
  else
    match firstRepeated [] ((key ++ value).map (·.name)) with
    | some name => .error (.duplicateColumn name)
    | none =>
      let key := Columns.ofList key
      let value := Columns.ofList value
      .ok { version, fingerprint := Fingerprint.ofColumns key value, key, value }

/-- The number of columns, key and value. -/
def length (s : Schema) : Nat := s.key.length + s.value.length

/-- Whether an index is one of the key's. -/
def isKeyColumn (s : Schema) (index : Nat) : Bool := index < s.key.length

/-- The group an index belongs to, and the position in it. -/
def group (s : Schema) (index : Nat) : Columns × Nat :=
  if index < s.key.length then (s.key, index) else (s.value, index - s.key.length)

/-- The column at an index. -/
def column? (s : Schema) (index : Nat) : Option Column :=
  let (columns, position) := s.group index
  columns.column? position

/-- The group of an index, the position in it, and the column there. -/
def locate (s : Schema) (index : Nat) : Except TupleError (Columns × Nat × Column) :=
  let (columns, position) := s.group index
  match columns.column? position with
  | some column => .ok (columns, position, column)
  | none => .error (.columnOutOfRange index s.length)

end Schema

end RowCodec
