import RowCodec.Proofs.BitSet.Indices
import RowCodec.Proofs.Bytes.LittleEndian
import RowCodec.Proofs.Bytes.Segments
import RowCodec.Proofs.Outcome
import RowCodec.Proofs.Schema.Layout
import RowCodec.Tuple.View

/-!
# A chunk on its own

The bytes of one chunk, cut out of a tuple, and what can be read of them with no other bytes at hand.
Positions count from the start of the chunk.

* `ChunkBytes` -- the chunk; `isDefined`, `entry`, `fixedBytes`, `varlenRange` and `varlenBytes` read it.
* `ChunkBytes.Sound` -- the chunk is as long as its first word says, it counts its table entries by its
  null map, and its header, null map, table and fixed section lie inside it.
* `isDefined_eq`, `rank_eq`, `fixedBytes_eq`, `entry_eq`, `varlenBytes_eq` -- what is found in a sound
  chunk, as a value and not as an outcome: none of the positions is outside.
-/

namespace RowCodec

/-! ## 1. Positions of variable length -/

namespace Columns

variable {g : Columns} {p stop : Nat}

theorem lt_of_mem_varlenBefore (h : p ∈ g.varlenBefore stop) : p < stop := by
  have := List.mem_range'_1.mp h
  omega

theorem length_varlenBefore_le (g : Columns) (stop : Nat) : (g.varlenBefore stop).length ≤ stop := by
  unfold varlenBefore
  rw [List.length_range']
  exact Nat.sub_le _ _

/-- The positions that the reader counts over start where the fixed-size columns end. -/
theorem varlenBefore_eq (hg : g.LaidOut) (h : g.fixedCount ≤ stop)
    (hs : stop ≤ g.length) :
    g.varlenBefore stop = List.range' g.fixedCount (stop - g.fixedCount) := by
  have hlen := hg.length_eq
  unfold varlenBefore
  rw [hg.firstVarlen_eq]
  split
  · rename_i hnone
    rw [List.isEmpty_iff.mp hnone, List.length_nil] at hlen
    have he : stop = g.fixedCount := by omega
    rw [he]
    rfl
  · rfl

/-- The position of a column of variable length is counted behind the ones before it. -/
theorem varlenBefore_length (hg : g.LaidOut) (h : g.fixedCount ≤ p) (hp : p < g.length) :
    ∃ rest, g.varlenBefore g.length = g.varlenBefore p ++ p :: rest := by
  have hsplit : g.length - g.fixedCount = (p - g.fixedCount) + ((g.length - p - 1) + 1) := by omega
  refine ⟨List.range' (p + 1) (g.length - p - 1), ?_⟩
  rw [varlenBefore_eq hg hg.fixedCount_le (Nat.le_refl _), varlenBefore_eq hg h (Nat.le_of_lt hp),
    hsplit, ← List.range'_append, Nat.one_mul, Nat.add_sub_cancel' h, List.range'_succ]

/-- The null map has a byte for the bit of every column. -/
theorem div_lt_nullMapSize (h : p < g.length) : p / 8 < g.nullMapSize := by
  unfold nullMapSize
  omega

end Columns

/-! ## 2. Chunks -/

/-- **The bytes of one chunk.** -/
structure ChunkBytes where
  columns : Columns
  /-- The chunk, from its length on. -/
  bytes : List UInt8
  /-- The number of table entries. -/
  entries : Nat
deriving DecidableEq

namespace ChunkBytes

/-- Where the table starts. -/
def table (columns : Columns) : Nat := chunkHeaderSize + columns.nullMapSize

/-- Where the fixed section starts. -/
def fixed (c : ChunkBytes) : Nat := table c.columns + c.entries * entrySize

/-- Where the texts and byte strings start at the earliest. -/
def data (c : ChunkBytes) : Nat := c.fixed + c.columns.fixedSize

/-- Whether the column at a position is non-null. -/
def isDefined (c : ChunkBytes) (position : Nat) : Outcome TupleError Bool := do
  return hasBit (← byteAt c.bytes (chunkHeaderSize + position / 8)) position

/-- How many of the given columns are non-null. -/
def rank (c : ChunkBytes) : List Nat → Outcome TupleError Nat
  | [] => .ok 0
  | position :: rest => do
    let defined ← c.isDefined position
    let count ← c.rank rest
    return if defined then count + 1 else count

/-- The table entry of a slot. -/
def entry (c : ChunkBytes) (slot : Nat) : Outcome TupleError Nat := do
  let offset := table c.columns + slot * entrySize
  return LittleEndian.decode (← slice c.bytes offset (offset + entrySize))

/-- The bytes of a column in the fixed section. -/
def fixedBytes (c : ChunkBytes) (position : Nat) (column : Column) :
    Outcome TupleError (List UInt8) := do
  let offset := c.fixed + (← c.columns.fixedOffset position)
  slice c.bytes offset (offset + column.type.size)

/-- The range of a text or byte string: from its table entry to the next, the last one's to the end
    of the chunk. Its slot is the number of non-null ones before it. -/
def varlenRange (c : ChunkBytes) (position : Nat) : Outcome TupleError (Nat × Nat) := do
  let slot ← c.rank (c.columns.varlenBefore position)
  let start ← c.entry slot
  let stop ← if slot + 1 < c.entries then c.entry (slot + 1) else .ok c.bytes.length
  return (start, stop)

/-- The bytes of a text or byte string, whose column has the given index in the row. -/
def varlenBytes (c : ChunkBytes) (position index : Nat) : Outcome TupleError (List UInt8) := do
  let (start, stop) ← c.varlenRange position
  if start < c.data ∨ stop < start ∨ c.bytes.length < stop then
    Outcome.refuse (.corrupted (.varlenOffsets start stop index))
  else slice c.bytes start stop

/-- The bytes of the null map. -/
def marks (c : ChunkBytes) : List UInt8 := segment c.bytes chunkHeaderSize (table c.columns)

/-- Whether the column at a position is non-null according to the null map. -/
def marked (c : ChunkBytes) (p : Nat) : Bool := bitAt c.marks p

/-- The number of non-null columns of variable length before a position. -/
def slot (c : ChunkBytes) (p : Nat) : Nat := (c.columns.varlenBefore p).countP c.marked

/-- Where the text or byte string of a slot starts: the number in the table, and the end of the chunk
    behind the last slot. -/
def bound (c : ChunkBytes) (k : Nat) : Nat :=
  if k < c.entries then
    LittleEndian.decode (segment c.bytes (table c.columns + k * entrySize)
      (table c.columns + k * entrySize + entrySize))
  else c.bytes.length

theorem bound_entries (c : ChunkBytes) : c.bound c.entries = c.bytes.length :=
  if_neg (Nat.lt_irrefl _)

/-- The part of the fixed section that belongs to the column at a position. -/
def field (c : ChunkBytes) (p : Nat) (column : Column) : List UInt8 :=
  segment c.bytes (c.fixed + Columns.widths (c.columns.columns.take p))
    (c.fixed + Columns.widths (c.columns.columns.take p) + column.type.size)

/-- The bytes from the start of a slot's text or byte string to the next. -/
def text (c : ChunkBytes) (k : Nat) : List UInt8 := segment c.bytes (c.bound k) (c.bound (k + 1))

/-- **What the reader has checked of a chunk.** -/
structure Sound (c : ChunkBytes) : Prop where
  laidOut : c.columns.LaidOut
  header : LittleEndian.decode (segment c.bytes 0 chunkHeaderSize) = c.bytes.length
  entries_eq : c.entries = c.slot c.columns.length
  data_le : c.data ≤ c.bytes.length

/-! ## 3. Sound chunks -/

namespace Sound

variable {c : ChunkBytes} {p k : Nat} {column : Column}

/-- **A sound chunk is decided by its columns and bytes**: the number of entries is counted. -/
theorem ext {c' : ChunkBytes} (h : c.Sound) (h' : c'.Sound) (hcolumns : c'.columns = c.columns)
    (hbytes : c'.bytes = c.bytes) : c' = c := by
  have hentries := h.entries_eq
  have hentries' := h'.entries_eq
  obtain ⟨columns, bytes, entries⟩ := c
  obtain ⟨columns', bytes', entries'⟩ := c'
  cases hcolumns
  cases hbytes
  exact congrArg _ (hentries'.trans hentries.symm)

theorem table_le (h : c.Sound) : table c.columns ≤ c.bytes.length :=
  Nat.le_trans (Nat.le_trans (Nat.le_add_right _ _) (Nat.le_add_right _ _)) h.data_le

theorem length_marks (h : c.Sound) : c.marks.length = c.columns.nullMapSize := by
  unfold marks
  rw [length_segment h.table_le]
  exact Nat.add_sub_cancel_left _ _

theorem mark_lt (h : c.Sound) (hp : p / 8 < c.columns.nullMapSize) :
    chunkHeaderSize + p / 8 < c.bytes.length := by
  have htable : chunkHeaderSize + c.columns.nullMapSize ≤ c.bytes.length := h.table_le
  omega

/-- Every bit of the null map can be asked for, also those behind the last column's. -/
theorem isDefined_of_byte (h : c.Sound) (hp : p / 8 < c.columns.nullMapSize) :
    c.isDefined p = .ok (c.marked p) := by
  have hlt : p / 8 < c.marks.length := by
    rw [h.length_marks]
    exact hp
  have hbyte : c.marks[p / 8]? = c.bytes[chunkHeaderSize + p / 8]? := by
    have hsize := h.length_marks
    unfold marks at hlt hsize ⊢
    rw [length_segment h.table_le] at hlt
    rw [getElem?_segment, if_pos hlt]
  have hb := List.getElem?_eq_getElem hlt
  unfold isDefined byteAt marked bitAt
  rw [← hbyte, hb]
  rfl

theorem isDefined_eq (h : c.Sound) (hp : p < c.columns.length) :
    c.isDefined p = .ok (c.marked p) :=
  h.isDefined_of_byte (Columns.div_lt_nullMapSize hp)

theorem rank_eq (h : c.Sound) : ∀ {positions : List Nat},
    (∀ p ∈ positions, p < c.columns.length) → c.rank positions = .ok (positions.countP c.marked)
  | [], _ => rfl
  | p :: rest, hp => by
      have ih := h.rank_eq fun q hq => hp q (List.mem_cons_of_mem p hq)
      unfold rank
      rw [h.isDefined_eq (hp p List.mem_cons_self), ih, List.countP_cons]
      cases c.marked p <;> rfl

/-! ### The fixed section -/

/-- Each column has its part of the fixed section inside the chunk. -/
theorem field_le (h : c.Sound) (hc : c.columns.columns[p]? = some column) :
    c.fixed + Columns.widths (c.columns.columns.take p) + column.type.size ≤ c.bytes.length := by
  have hdata : c.fixed + c.columns.fixedSize ≤ c.bytes.length := h.data_le
  have hle := Columns.widths_take_le hc
  rw [h.laidOut.fixedSize_eq] at hdata
  omega

theorem length_field (h : c.Sound) (hc : c.columns.columns[p]? = some column) :
    (c.field p column).length = column.type.size := by
  unfold field
  rw [length_segment (h.field_le hc), Nat.add_sub_cancel_left]

theorem fixedBytes_eq (h : c.Sound) (hc : c.columns.columns[p]? = some column)
    (hf : column.isFixedSize = true) : c.fixedBytes p column = .ok (c.field p column) := by
  unfold fixedBytes
  rw [h.laidOut.fixedOffset_eq hc hf, Outcome.ok_bind]
  exact slice_eq_segment (Nat.le_add_right _ _) (h.field_le hc)

/-! ### Texts and byte strings -/

/-- Every table entry lies inside the chunk. -/
theorem entry_le (h : c.Sound) (hk : k < c.entries) :
    table c.columns + k * entrySize + entrySize ≤ c.bytes.length := by
  have hmul : (k + 1) * entrySize ≤ c.entries * entrySize := Nat.mul_le_mul_right _ hk
  have hdata : table c.columns + c.entries * entrySize + c.columns.fixedSize ≤ c.bytes.length :=
    h.data_le
  rw [Nat.succ_mul] at hmul
  omega

theorem entry_eq (h : c.Sound) (hk : k < c.entries) : c.entry k = .ok (c.bound k) := by
  unfold entry bound
  dsimp only
  rw [slice_eq_segment (Nat.le_add_right _ _) (h.entry_le hk), if_pos hk]
  rfl

/-- The slot of a non-null column of variable length is one of the table's. -/
theorem slot_lt (h : c.Sound) (hc : c.columns.columns[p]? = some column)
    (hf : column.isFixedSize = false) (hm : c.marked p = true) : c.slot p < c.entries := by
  have hp : p < c.columns.length := (List.getElem?_eq_some_iff.mp hc).1
  have hfixed := h.laidOut.fixedCount_le_of_varlen hc hf
  obtain ⟨rest, hrest⟩ := Columns.varlenBefore_length h.laidOut hfixed hp
  rw [h.entries_eq]
  unfold slot
  rw [hrest, List.countP_append, List.countP_cons, if_pos hm]
  omega

theorem varlenRange_eq (h : c.Sound) (hc : c.columns.columns[p]? = some column)
    (hf : column.isFixedSize = false) (hm : c.marked p = true) :
    c.varlenRange p = .ok (c.bound (c.slot p), c.bound (c.slot p + 1)) := by
  have hp : p < c.columns.length := (List.getElem?_eq_some_iff.mp hc).1
  have hrank : c.rank (c.columns.varlenBefore p) = .ok (c.slot p) :=
    h.rank_eq fun q hq => Nat.lt_trans (Columns.lt_of_mem_varlenBefore hq) hp
  unfold varlenRange
  rw [hrank, Outcome.ok_bind, h.entry_eq (h.slot_lt hc hf hm), Outcome.ok_bind]
  by_cases hnext : c.slot p + 1 < c.entries
  · rw [if_pos hnext, h.entry_eq hnext]
    rfl
  · have hend : c.bound (c.slot p + 1) = c.bytes.length := if_neg hnext
    rw [if_neg hnext, hend]
    rfl

/-- The bytes of a text or byte string, if the table does not lead outside the chunk's data. -/
theorem varlenBytes_eq (h : c.Sound) (hc : c.columns.columns[p]? = some column)
    (hf : column.isFixedSize = false) (hm : c.marked p = true) (index : Nat) :
    c.varlenBytes p index =
      if c.bound (c.slot p) < c.data ∨ c.bound (c.slot p + 1) < c.bound (c.slot p) ∨
          c.bytes.length < c.bound (c.slot p + 1) then
        Outcome.refuse (.corrupted
          (.varlenOffsets (c.bound (c.slot p)) (c.bound (c.slot p + 1)) index))
      else .ok (c.text (c.slot p)) := by
  unfold varlenBytes
  rw [h.varlenRange_eq hc hf hm, Outcome.ok_bind]
  dsimp only
  split
  · rfl
  · rename_i hrange
    exact slice_eq_segment (by omega) (by omega)

end Sound

end ChunkBytes

end RowCodec
