import RowCodec.Bytes.Slice
import RowCodec.Tuple.Size
import RowCodec.Value

/-!
# Reading a tuple

* `View.new` checks bytes against a schema: long enough, the right fingerprint, two chunks whose
  lengths end exactly where the bytes do, each long enough for its own null map and table.
* A `View` keeps the tuple's bytes as they are, and of each chunk the positions of its parts
  (`ChunkView`). Every read goes to the one list of bytes, at a position computed from these.
* The columns themselves are checked only when they are read: `View.value` and the typed getters
  refuse a range outside the chunk's data and bytes that are no UTF-8.
* An access past the end of the bytes panics (`slice`, `byteAt`). That none does, and that none
  reaches into the other chunk, is a theorem about `View.new`, not a run-time check.
* Positions are natural numbers. That no sum of them leaves the 64-bit words, for bytes that fit in
  memory, is a theorem too.
-/

namespace RowCodec

/-! ## 1. Chunks -/

/-- Bytes of a required number. -/
def exactly {ε : Type} (n : Nat) (bytes : List UInt8) :
    Outcome ε { b : List UInt8 // b.length = n } :=
  if h : bytes.length = n then .ok ⟨bytes, h⟩ else Outcome.abort .outOfBounds

/-- Whether a column is non-null according to a null map. -/
def definedIn {ε : Type} (nullMap : List UInt8) (position : Nat) : Outcome ε Bool := do
  return hasBit (← byteAt nullMap (position / 8)) position

/-- How many of the given columns are non-null according to a null map. -/
def countDefined {ε : Type} (nullMap : List UInt8) : List Nat → Outcome ε Nat
  | [] => .ok 0
  | position :: rest => do
    let defined ← definedIn nullMap position
    let count ← countDefined nullMap rest
    return if defined then count + 1 else count

/-- The positions from the group's first column of variable length up to `stop`; none if the group
    has no such column. -/
def Columns.varlenBefore (columns : Columns) (stop : Nat) : List Nat :=
  let first := columns.firstVarlen.getD stop
  List.range' first (stop - first)

/-- One chunk of a tuple, as positions in the tuple's bytes. -/
structure ChunkView where
  start : Nat
  /-- The chunk's length, as its first word says. -/
  length : Nat
  /-- Where the table starts. -/
  table : Nat
  /-- Where the fixed section starts. -/
  fixed : Nat
  /-- The number of table entries. -/
  entries : Nat
deriving DecidableEq

/-- The chunk of a column group that starts at a position. -/
def ChunkView.read (bytes : List UInt8) (start : Nat) (columns : Columns) :
    Outcome TupleError ChunkView := do
  let headerEnd := start + chunkHeaderSize + columns.nullMapSize
  if bytes.length < headerEnd then Outcome.refuse (.truncated headerEnd bytes.length)
  else
    let length := LittleEndian.decode (← slice bytes start (start + chunkHeaderSize))
    if bytes.length < start + length then
      Outcome.refuse (.truncated (start + length) bytes.length)
    else
      let nullMap ← slice bytes (start + chunkHeaderSize) headerEnd
      let entries ← countDefined nullMap (columns.varlenBefore columns.length)
      let fixed := headerEnd + entries * entrySize
      let required := (← checkedSub fixed start) + columns.fixedSize
      if length < required then
        Outcome.refuse (.corrupted (.shortChunk start length required))
      else return { start, length, table := headerEnd, fixed, entries }

/-! ## 2. Views -/

/-- A tuple checked against a schema. -/
structure View where
  schema : Schema
  /-- The whole tuple; both chunks are positions in it. -/
  bytes : List UInt8
  keyView : ChunkView
  valueView : ChunkView
deriving DecidableEq

namespace View

/-- The given bytes as a tuple of the schema. -/
def new (schema : Schema) (bytes : List UInt8) : Outcome TupleError View := do
  if bytes.length < Fingerprint.size then
    Outcome.refuse (.truncated Fingerprint.size bytes.length)
  else
    let actual := Fingerprint.ofBytes (bytes.take Fingerprint.size)
    if actual ≠ schema.fingerprint then
      Outcome.refuse (.fingerprintMismatch schema.fingerprint actual)
    else
      let keyView ← ChunkView.read bytes Fingerprint.size schema.key
      let valueView ← ChunkView.read bytes (keyView.start + keyView.length) schema.value
      let stop := valueView.start + valueView.length
      if stop ≠ bytes.length then
        Outcome.refuse (.corrupted (.trailing (← checkedSub bytes.length stop)))
      else return { schema, bytes, keyView, valueView }

/-- The chunk of an index and its columns, the position among these, and the column there. -/
def locate (t : View) (index : Nat) : Outcome TupleError (ChunkView × Columns × Nat × Column) := do
  let located ← Outcome.ofExcept (t.schema.locate index)
  return (if t.schema.isKeyColumn index then t.keyView else t.valueView, located)

/-- The same, if the column holds values of the given kind. -/
def locateOf (t : View) (index : Nat) (requested : ColumnType) :
    Outcome TupleError (ChunkView × Columns × Nat × Column) := do
  let located ← t.locate index
  let expected := located.2.2.2.type
  if expected.sameKind requested then return located
  else Outcome.refuse (.typeMismatch index expected requested)

/-- Whether the column at a position of a chunk is non-null. -/
def isDefined (t : View) (chunk : ChunkView) (position : Nat) : Outcome TupleError Bool := do
  return hasBit (← byteAt t.bytes (chunk.start + chunkHeaderSize + position / 8)) position

/-- How many of the given columns are non-null. -/
def rank (t : View) (chunk : ChunkView) : List Nat → Outcome TupleError Nat
  | [] => .ok 0
  | position :: rest => do
    let defined ← t.isDefined chunk position
    let count ← t.rank chunk rest
    return if defined then count + 1 else count

/-- The table entry of a slot: an offset from the start of the chunk. -/
def entry (t : View) (chunk : ChunkView) (slot : Nat) : Outcome TupleError Nat := do
  let offset := chunk.table + slot * entrySize
  return LittleEndian.decode (← slice t.bytes offset (offset + entrySize))

/-- The bytes of a column in the fixed section. -/
def fixedBytes (t : View) (chunk : ChunkView) (columns : Columns) (position : Nat)
    (column : Column) : Outcome TupleError (List UInt8) := do
  let offset := chunk.fixed + (← columns.fixedOffset position)
  slice t.bytes offset (offset + column.type.size)

/-- The range of a text or byte string in its chunk: from its table entry to the next, the last
    one's to the end of the chunk. Its slot is the number of non-null ones before it. -/
def varlenRange (t : View) (chunk : ChunkView) (columns : Columns) (position : Nat) :
    Outcome TupleError (Nat × Nat) := do
  let slot ← t.rank chunk (columns.varlenBefore position)
  let start ← t.entry chunk slot
  let stop ← if slot + 1 < chunk.entries then t.entry chunk (slot + 1) else .ok chunk.length
  return (start, stop)

/-- The bytes of a text or byte string, whose column has the given index in the row. -/
def varlenBytes (t : View) (chunk : ChunkView) (columns : Columns) (position index : Nat) :
    Outcome TupleError (List UInt8) := do
  let (start, stop) ← t.varlenRange chunk columns position
  let data := (← checkedSub chunk.fixed chunk.start) + columns.fixedSize
  if start < data ∨ stop < start ∨ chunk.length < stop then
    Outcome.refuse (.corrupted (.varlenOffsets start stop index))
  else slice t.bytes (chunk.start + start) (chunk.start + stop)

/-- Whether a column is null. -/
def isNull (t : View) (index : Nat) : Outcome TupleError Bool := do
  let (chunk, _, position, _) ← t.locate index
  return !(← t.isDefined chunk position)

/-- The bytes of a fixed-size column, none for a null. -/
def fixedBytes? (t : View) (index : Nat) (requested : ColumnType) :
    Outcome TupleError (Option (List UInt8)) := do
  let (chunk, columns, position, column) ← t.locateOf index requested
  if ← t.isDefined chunk position then return some (← t.fixedBytes chunk columns position column)
  else return none

/-- The bytes of a text or byte string, none for a null. -/
def varlenBytes? (t : View) (index : Nat) (requested : ColumnType) :
    Outcome TupleError (Option (List UInt8)) := do
  let (chunk, columns, position, _) ← t.locateOf index requested
  if ← t.isDefined chunk position then return some (← t.varlenBytes chunk columns position index)
  else return none

/-! ## 3. Getters -/

/-- A number, none for a null. -/
def number? (t : View) (kind : NumberKind) (index : Nat) : Outcome TupleError (Option kind.Word) := do
  match ← t.fixedBytes? index (.number kind) with
  | none => return none
  | some bytes =>
    let ⟨bytes, _⟩ ← exactly kind.size bytes
    return some (BitVec.ofNat _ (LittleEndian.decode bytes))

/-- A number; a null is refused. -/
def number (t : View) (kind : NumberKind) (index : Nat) : Outcome TupleError kind.Word := do
  match ← t.number? kind index with
  | some word => return word
  | none => Outcome.refuse (.nullValue index)

/-- A UUID, none for a null. -/
def uuid? (t : View) (index : Nat) : Outcome TupleError (Option Uuid) := do
  match ← t.fixedBytes? index .uuid with
  | none => return none
  | some bytes =>
    let ⟨bytes, length_bytes⟩ ← exactly 16 bytes
    return some ⟨bytes, length_bytes⟩

/-- A bit set, none for a null. Columns of every bit mask width are asked for alike. -/
def bitSet? (t : View) (index : Nat) : Outcome TupleError (Option BitSet) := do
  return (← t.fixedBytes? index (.bitmask 0)).map BitSet.ofBytes

/-- A text, none for a null. -/
def utf8? (t : View) (index : Nat) : Outcome TupleError (Option String) := do
  match ← t.varlenBytes? index .utf8 with
  | none => return none
  | some bytes =>
    match Utf8.decode? bytes with
    | some text => return some text
    | none => Outcome.refuse (.invalidUtf8 index)

/-- A byte string, none for a null. -/
def blob? (t : View) (index : Nat) : Outcome TupleError (Option (List UInt8)) :=
  t.varlenBytes? index .blob

/-- The content of a column as a column of the given type holds it. -/
def valueAs (t : View) (type : ColumnType) (index : Nat) : Outcome TupleError Value := do
  match type with
  | .number kind => return ((← t.number? kind index).map (Value.number kind)).getD .undefined
  | .uuid => return ((← t.uuid? index).map Value.uuid).getD .undefined
  | .bitmask _ => return ((← t.bitSet? index).map Value.bitSet).getD .undefined
  | .utf8 => return ((← t.utf8? index).map Value.utf8).getD .undefined
  | .blob => return ((← t.blob? index).map Value.blob).getD .undefined

/-- The content of a column, whatever its type. -/
def value (t : View) (index : Nat) : Outcome TupleError Value := do
  let (_, _, _, column) ← t.locate index
  t.valueAs column.type index

end View

end RowCodec
