import RowCodec.Bytes.Slice
import RowCodec.Tuple.Encoded
import RowCodec.Tuple.Size
import RowCodec.Value

/-!
# Writing a tuple

A builder holds the bytes of a tuple whose size, and whose numbers of non-null texts and byte
strings, were fixed beforehand. Columns are appended in index order.

* `Chunk` says where the parts of the chunk being written lie in the buffer: its length and null map
  from `start` on, the table from `table` on, the fixed section from `fixed` on, and the texts and
  byte strings up to `varlen`, where the next one goes.
* `Builder.append` writes one column. Every write is checked against the reserved bytes, except the
  null map's, which lies inside them as long as the chunk is the column's own.
* An append that faults leaves a builder behind (`Step`), and that builder can be used on: the index
  is moved before a finished group is closed, so a group that cannot be closed leaves the index
  beyond it.
* `Builder.build` hands out the bytes when every column was appended and every byte accounted for.
-/

namespace RowCodec

/-! ## 1. Chunks -/

/-- Where the parts of a chunk lie in the buffer. -/
structure Chunk where
  /-- The chunk's first byte. -/
  start : Nat
  /-- The first table entry. -/
  table : Nat
  /-- The first byte of the fixed section. -/
  fixed : Nat
  /-- Where the next text or byte string goes. -/
  varlen : Nat
  /-- The number of table entries. -/
  declared : Nat
  /-- The number of table entries in use. -/
  written : Nat
deriving DecidableEq, Repr

namespace Chunk

/-- The first bytes of a chunk's parts, with nothing written yet. -/
def layOut (start : Nat) (columns : Columns) (declared : Nat) : Chunk :=
  let table := start + chunkHeaderSize + columns.nullMapSize
  let fixed := table + declared * entrySize
  { start, table, fixed, varlen := fixed + columns.fixedSize, declared, written := 0 }

/-- A chunk whose last position is a 64-bit word; the other positions are no greater. -/
def begin (start : Nat) (columns : Columns) (declared : Nat) : Outcome TupleError Chunk :=
  let chunk := layOut start columns declared
  if chunk.varlen < wordLimit then .ok chunk else Outcome.abort .overflow

end Chunk

/-- The greatest chunk length and table entry: both are 32-bit words. -/
def maxChunkOffset : Nat := 0xffffffff

/-- A position relative to its chunk, as a 32-bit word in the tuple. -/
def chunkOffset (index relative : Nat) : Outcome TupleError (List UInt8) :=
  if relative ≤ maxChunkOffset then .ok (LittleEndian.encode 4 relative)
  else Outcome.refuse (.capacityExceeded index relative maxChunkOffset)

/-! ## 2. Builders -/

/-- A tuple being written. -/
structure Builder where
  schema : Schema
  /-- The reserved bytes; what is not written yet is zero. -/
  buffer : List UInt8
  /-- The index of the next column. -/
  index : Nat
  chunk : Chunk
  /-- The number of table entries that the value chunk will have. -/
  valueDeclared : Nat
deriving DecidableEq

/-- What an append leaves behind: the builder afterwards, and how the append ended. -/
structure Step (ε : Type) where
  builder : Builder
  outcome : Outcome ε Unit

/-- The same step with its cause told in other words. -/
def Step.mapCause {ε δ : Type} (f : ε → δ) (step : Step ε) : Step δ :=
  ⟨step.builder, step.outcome.mapCause f⟩

/-- The largest buffer that can be reserved. -/
def maxBufferSize : Nat := 0x7fffffffffffffff

namespace Builder

/-- A builder for a tuple of `size` bytes, with the given numbers of non-null texts and byte strings
    in the key and in the value. -/
def new (schema : Schema) (size keyDeclared valueDeclared : Nat) : Outcome TupleError Builder := do
  let chunk ← Chunk.begin Fingerprint.size schema.key keyDeclared
  if size < chunk.varlen then Outcome.refuse (.capacityExceeded 0 chunk.varlen size)
  else if maxBufferSize < size then Outcome.abort .allocation
  else
    let buffer := schema.fingerprint.toBytes ++ List.replicate (size - Fingerprint.size) 0
    return { schema, buffer, index := 0, chunk, valueDeclared }

/-- Goes on with an answer; a fault ends the append and leaves `b`. -/
def onward {α : Type} (b : Builder) (outcome : Outcome TupleError α) (next : α → Step TupleError) :
    Step TupleError :=
  match outcome with
  | .ok a => next a
  | .error fault => ⟨b, .error fault⟩

/-- The group of the next column, its position in it, and the column itself. -/
def column (b : Builder) : Outcome TupleError (Columns × Nat × Column) :=
  Outcome.ofExcept (b.schema.locate b.index)

/-- The next column, if it holds values of the given kind. -/
def columnOf (b : Builder) (actual : ColumnType) : Outcome TupleError (Columns × Nat × Column) := do
  let located ← b.column
  let expected := located.2.2.type
  if expected.sameKind actual then return located
  else Outcome.refuse (.typeMismatch b.index expected actual)

/-- The builder with bytes written at a position. -/
def write (b : Builder) (offset : Nat) (bytes : List UInt8) : Outcome TupleError Builder :=
  let stop := offset + bytes.length
  if b.buffer.length < stop then
    Outcome.refuse (.capacityExceeded b.index stop b.buffer.length)
  else .ok { b with buffer := overwrite b.buffer offset bytes }

/-- The builder with the null map bit of a column set in the chunk being written. -/
def setDefined (b : Builder) (position : Nat) : Outcome TupleError Builder :=
  let byte := b.chunk.start + chunkHeaderSize + position / 8
  if byte < b.buffer.length then
    .ok { b with buffer := b.buffer.modify byte (· ||| bitOf position) }
  else Outcome.abort .outOfBounds

/-- The builder with the length of the chunk being written filled in. Its declared table entries
    must all be in use. -/
def finishChunk (b : Builder) : Outcome TupleError Builder :=
  let last := b.index - 1
  if b.chunk.written ≠ b.chunk.declared then
    Outcome.refuse (.varlenCountMismatch last b.chunk.declared b.chunk.written)
  else do
    let length ← chunkOffset last (b.chunk.varlen - b.chunk.start)
    b.write b.chunk.start length

/-- Closes the last chunk when no column is left. -/
def closeLast (b : Builder) : Step TupleError :=
  if b.index = b.schema.length then b.onward b.finishChunk fun b => ⟨b, .ok ()⟩ else ⟨b, .ok ()⟩

/-- Moves on to the next column: behind the key's last column its chunk is closed and the value's
    begun, behind the row's last column its chunk is closed. -/
def advance (b : Builder) : Step TupleError :=
  let b := { b with index := b.index + 1 }
  if b.index = b.schema.key.length then
    b.onward b.finishChunk fun b =>
    b.onward (Chunk.begin b.chunk.varlen b.schema.value b.valueDeclared) fun chunk =>
    let b := { b with chunk }
    if b.buffer.length < chunk.varlen then
      ⟨b, Outcome.refuse (.capacityExceeded b.index chunk.varlen b.buffer.length)⟩
    else b.closeLast
  else b.closeLast

/-! ## 3. Appending -/

/-- Appends a null. -/
def appendNull (b : Builder) : Step TupleError :=
  b.onward b.column fun (_, _, column) =>
  if column.nullable then b.advance
  else ⟨b, Outcome.refuse (.nullNotAllowed b.index)⟩

/-- Appends a value of fixed size. -/
def appendFixed (b : Builder) (actual : ColumnType) (bytes : List UInt8) : Step TupleError :=
  b.onward (b.columnOf actual) fun (columns, position, _) =>
  b.onward (columns.fixedOffset position) fun offset =>
  b.onward (b.write (b.chunk.fixed + offset) bytes) fun b =>
  b.onward (b.setDefined position) advance

/-- Appends a text or a byte string: first its table entry, then its bytes. -/
def appendVarlen (b : Builder) (actual : ColumnType) (bytes : List UInt8) : Step TupleError :=
  b.onward (b.columnOf actual) fun (_, position, _) =>
  if b.chunk.declared ≤ b.chunk.written then
    ⟨b, Outcome.refuse (.varlenCountMismatch b.index b.chunk.declared (b.chunk.written + 1))⟩
  else
    let entry := b.chunk.table + b.chunk.written * entrySize
    b.onward (chunkOffset b.index (b.chunk.varlen - b.chunk.start)) fun relative =>
    b.onward (b.write entry relative) fun b =>
    b.onward (b.write b.chunk.varlen bytes) fun b =>
    let chunk := { b.chunk with
      varlen := b.chunk.varlen + bytes.length, written := b.chunk.written + 1 }
    let b := { b with chunk }
    b.onward (b.setDefined position) advance

/-- Appends a bit set. It must fit the width of the column's bit mask. -/
def appendBitSet (b : Builder) (bits : BitSet) : Step TupleError :=
  let append := b.appendFixed (.bitmask (UInt32.ofNat bits.length)) bits.bytes
  b.onward b.column fun (_, _, column) =>
  match column.type with
  | .bitmask width =>
    if width.toNat < bits.length then
      ⟨b, Outcome.refuse (.bitmaskTooLong b.index bits.length width)⟩
    else append
  | _ => append

/-- Appends a column's content. -/
def append (b : Builder) : Value → Step TupleError
  | .undefined => b.appendNull
  | .number kind word => b.appendFixed (.number kind) (LittleEndian.encode kind.size word.toNat)
  | .uuid id => b.appendFixed .uuid id.bytes
  | .bitSet bits => b.appendBitSet bits
  | .utf8 text => b.appendVarlen .utf8 (Utf8.encode text)
  | .blob bytes => b.appendVarlen .blob bytes

/-- Appends contents in order, as far as the first that faults. -/
def appendAll (b : Builder) : List Value → Step TupleError
  | [] => ⟨b, .ok ()⟩
  | v :: rest =>
    let step := b.append v
    match step.outcome with
    | .ok () => step.builder.appendAll rest
    | .error fault => ⟨step.builder, .error fault⟩

/-- The finished tuple. -/
def build (b : Builder) : Except TupleError EncodedTuple :=
  if b.index ≠ b.schema.length then .error (.incomplete b.index b.schema.length)
  else if b.chunk.varlen ≠ b.buffer.length then
    .error (.sizeMismatch b.buffer.length b.chunk.varlen)
  else .ok ⟨b.buffer⟩

end Builder

end RowCodec
