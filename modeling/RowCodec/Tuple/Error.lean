import RowCodec.Diagnostic
import RowCodec.Schema.Fingerprint

/-!
# Failures of schemas and tuples

Why a schema is refused, why a column cannot be written, and why bytes are no tuple of a schema or a
column of one cannot be read.

* `TupleError` has one constructor a cause, with what the caller needs to find the place.
* `TupleError.message` is the cause in words, `TupleError.code` its stable code, and
  `TupleError.diagnostic` the report with its advice.
-/

namespace RowCodec

/-- What makes bytes no tuple, once their lengths and fingerprint are right. -/
inductive Corruption where
  /-- Bytes after the value chunk. -/
  | trailing (count : Nat)
  /-- A chunk shorter than its own null map says it must be. -/
  | shortChunk (start length required : Nat)
  /-- A text or byte range outside its chunk's data. -/
  | varlenOffsets (start stop index : Nat)
  /-- Damage described by someone else. -/
  | other (reason : String)
deriving DecidableEq, Repr

/-- The corruption in words. -/
def Corruption.reason : Corruption → String
  | trailing count => s!"{count} trailing bytes after value chunk"
  | shortChunk start length required =>
      s!"chunk at {start} is {length} bytes, its static section needs {required}"
  | varlenOffsets start stop index => s!"invalid varlen offsets {start}..{stop} for column {index}"
  | other reason => reason

/-- Why a schema was refused, or a tuple could not be written or read. Columns are given by their
    index in the row, key columns first. -/
inductive TupleError where
  /-- A schema without key columns. -/
  | emptyKey
  /-- A schema that uses a column name twice. -/
  | duplicateColumn (name : String)
  /-- A value of another type than the column's, or a read of one. -/
  | typeMismatch (index : Nat) (expected actual : ColumnType)
  /-- A null for a column that must not hold one. -/
  | nullNotAllowed (index : Nat)
  /-- A null read as a value. -/
  | nullValue (index : Nat)
  | columnOutOfRange (index length : Nat)
  /-- A write past the end of the reserved bytes. -/
  | capacityExceeded (index required capacity : Nat)
  /-- Another number of texts and byte strings than was declared. -/
  | varlenCountMismatch (index declared actual : Nat)
  | bitmaskTooLong (index length : Nat) (bits : UInt32)
  /-- A tuple finished before its last column. -/
  | incomplete (appended expected : Nat)
  /-- A tuple finished with bytes left over. -/
  | sizeMismatch (expected actual : Nat)
  | fingerprintMismatch (expected actual : Fingerprint)
  /-- Bytes that end too early. -/
  | truncated (required length : Nat)
  | corrupted (corruption : Corruption)
  | invalidUtf8 (index : Nat)
deriving DecidableEq, Repr

namespace TupleError

/-- The cause in words. -/
def message : TupleError → String
  | emptyKey => "schema must contain at least one key column"
  | duplicateColumn name => s!"duplicate column `{name}`"
  | typeMismatch index expected actual => s!"column {index} is {expected.text}, not {actual.text}"
  | nullNotAllowed index => s!"column {index} is not nullable"
  | nullValue index => s!"column {index} is null"
  | columnOutOfRange index length =>
      s!"column index {index} out of range, schema has {length} columns"
  | capacityExceeded index required capacity =>
      s!"column {index} needs the tuple to span {required} bytes, only {capacity} reserved"
  | varlenCountMismatch index declared actual =>
      s!"chunk reserved {declared} variable-length entries, column {index} brings the count to {actual}"
  | bitmaskTooLong index length bits =>
      s!"bit set of length {length} does not fit column {index} of {bits.toNat} bits"
  | incomplete appended expected => s!"tuple has {appended} of {expected} columns"
  | sizeMismatch expected actual => s!"tuple reserved {expected} bytes but wrote {actual}"
  | fingerprintMismatch expected actual =>
      s!"tuple fingerprint {actual.text} does not match schema fingerprint {expected.text}"
  | truncated required length =>
      s!"tuple of {length} bytes truncated, expected at least {required}"
  | corrupted corruption => "corrupted tuple: " ++ corruption.reason
  | invalidUtf8 index => s!"column {index} is not valid UTF-8"

/-- The stable code of the cause. -/
def code : TupleError → String
  | emptyKey => "TUPLE_001"
  | duplicateColumn _ => "TUPLE_002"
  | typeMismatch _ _ _ => "TUPLE_003"
  | nullNotAllowed _ => "TUPLE_004"
  | nullValue _ => "TUPLE_005"
  | columnOutOfRange _ _ => "TUPLE_006"
  | capacityExceeded _ _ _ => "TUPLE_007"
  | varlenCountMismatch _ _ _ => "TUPLE_008"
  | bitmaskTooLong _ _ _ => "TUPLE_009"
  | incomplete _ _ => "TUPLE_010"
  | sizeMismatch _ _ => "TUPLE_011"
  | fingerprintMismatch _ _ => "TUPLE_012"
  | truncated _ _ => "TUPLE_013"
  | corrupted _ => "TUPLE_014"
  | invalidUtf8 _ => "TUPLE_015"

/-- The report with the advice that belongs to the cause. -/
def diagnostic (e : TupleError) : Diagnostic :=
  let report := Diagnostic.new e.code e.message
  match e with
  | emptyKey => report.withHelp "declare at least one key column; the key identifies the row"
  | duplicateColumn _ => report.withNote "column names are unique across key and value columns"
  | typeMismatch _ _ _ => report.withLabel "type does not match the schema column"
  | nullNotAllowed _ => report.withHelp "provide a value or declare the column nullable"
  | nullValue _ => report.withHelp "read the column through its nullable accessor"
  | capacityExceeded _ _ _ =>
      (report.withNote "the tuple size is computed before any column is written").withNote
        "a field changed between the size computation and the write"
  | varlenCountMismatch _ _ _ => report.withNote
      "the number of non-null variable-length values is fixed before any column is written"
  | bitmaskTooLong _ _ _ => report.withHelp "clear bits beyond the column width"
  | sizeMismatch _ _ =>
      report.withNote "the computed tuple size must match the written bytes exactly"
  | fingerprintMismatch _ _ =>
      report.withHelp "decode the tuple with the schema version it was written with"
  | columnOutOfRange _ _ | incomplete _ _ | truncated _ _ | corrupted _ | invalidUtf8 _ => report

end TupleError

end RowCodec
