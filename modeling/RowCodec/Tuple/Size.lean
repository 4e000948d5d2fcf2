import RowCodec.Schema

/-!
# Sizes of tuples

A tuple is its fingerprint, a key chunk and a value chunk. A chunk is its length, a null map, one
table entry for each non-null text or byte string, the fixed section, and the texts and byte strings
themselves. Its size depends on the values through `Statistic` only.
-/

namespace RowCodec

/-- The bytes of a chunk's own length. -/
def chunkHeaderSize : Nat := 4

/-- The bytes of one table entry. -/
def entrySize : Nat := 4

/-- The non-null texts and byte strings of one group: how many, and how many bytes in all. -/
structure Statistic where
  nonNull : Nat
  size : Nat
deriving DecidableEq, Repr, Inhabited

namespace Statistic

/-- Nothing recorded. -/
def empty : Statistic := ⟨0, 0⟩

/-- One more text or byte string, of the given length. -/
def record (s : Statistic) (length : Nat) : Statistic := ⟨s.nonNull + 1, s.size + length⟩

/-- The statistic as a pair of 64-bit words. -/
def checked {ε : Type} (s : Statistic) : Outcome ε Statistic := do
  return ⟨← RowCodec.checked s.nonNull, ← RowCodec.checked s.size⟩

/-- The statistic of texts and byte strings of the given lengths. -/
def ofLengths {ε : Type} (lengths : List Nat) : Outcome ε Statistic :=
  (lengths.foldl record empty).checked

end Statistic

/-- The size of a chunk of the given columns. -/
def Columns.chunkBytes (columns : Columns) (s : Statistic) : Nat :=
  chunkHeaderSize + columns.nullMapSize + s.nonNull * entrySize + columns.fixedSize + s.size

/-- The size of a whole tuple. -/
def Schema.tupleBytes (schema : Schema) (key value : Statistic) : Nat :=
  Fingerprint.size + schema.key.chunkBytes key + schema.value.chunkBytes value

/-- The size of a chunk as a 64-bit word. -/
def Columns.chunkSize {ε : Type} (columns : Columns) (s : Statistic) : Outcome ε Nat :=
  checked (columns.chunkBytes s)

/-- The size of a tuple as a 64-bit word. -/
def Schema.tupleSize {ε : Type} (schema : Schema) (key value : Statistic) : Outcome ε Nat :=
  checked (schema.tupleBytes key value)

end RowCodec
