import RowCodec.Proofs.Tuple.Accepted

/-!
# The grammar of tuples

Which bytes `View.new` takes for a tuple, said without the reader: the fingerprint and two chunks, each
a list of bytes that can be judged on its own.

* `Columns.IsChunk` -- a chunk of a group: its first word is its length, and it has room for its null
  map, one table entry for each non-null column of variable length, and the fixed section. What lies in
  the table and behind the fixed section is not looked at.
* `Schema.Splits` -- bytes as a fingerprint, a key chunk and a value chunk; there is no second way to
  split them (`Splits.unique`).
* `Sound.isChunk`, `IsChunk.read_eq` -- what the reader takes for a chunk is one, and it takes every
  chunk, wherever it stands.
* `View.new_ok_iff` -- **the accepted bytes are those of the grammar.**
-/

namespace RowCodec

/-! ## 1. Chunks -/

namespace Columns

variable {g : Columns} {chunk : List UInt8}

/-- The number of columns of variable length whose bit is set in a null map. -/
def entriesIn (g : Columns) (marks : List UInt8) : Nat :=
  (List.range g.length).countP fun p =>
    (g.columns[p]?.any fun c => !c.isFixedSize) && bitAt marks p

/-- **A chunk of the group.** -/
structure IsChunk (g : Columns) (chunk : List UInt8) : Prop where
  /-- The first word is the chunk's length. -/
  header : LittleEndian.decode (chunk.take chunkHeaderSize) = chunk.length
  /-- The chunk is long enough for its parts of known size. -/
  static_le : chunkHeaderSize + g.nullMapSize
    + g.entriesIn (chunk.drop chunkHeaderSize) * entrySize + g.fixedSize ≤ chunk.length

instance (g : Columns) (chunk : List UInt8) : Decidable (g.IsChunk chunk) :=
  decidable_of_iff (LittleEndian.decode (chunk.take chunkHeaderSize) = chunk.length ∧
      chunkHeaderSize + g.nullMapSize + g.entriesIn (chunk.drop chunkHeaderSize) * entrySize
        + g.fixedSize ≤ chunk.length)
    ⟨fun h => ⟨h.1, h.2⟩, fun h => ⟨h.header, h.static_le⟩⟩

/-- Only the columns behind the fixed-size ones have table entries, so counting over those is enough. -/
theorem entriesIn_eq (hg : g.LaidOut) (marks : List UInt8) :
    g.entriesIn marks = (g.varlenBefore g.length).countP (bitAt marks) := by
  have hle := hg.fixedCount_le
  have hsplit : List.range g.length =
      List.range' 0 g.fixedCount ++ List.range' g.fixedCount (g.length - g.fixedCount) := by
    rw [List.range_eq_range', ← Nat.add_sub_cancel' hle, ← List.range'_append]
    simp
  have hfixed : (List.range' 0 g.fixedCount).countP (fun p =>
      (g.columns[p]?.any fun c => !c.isFixedSize) && bitAt marks p) = 0 := by
    apply List.countP_eq_zero.mpr
    intro p hp
    obtain ⟨c, hc⟩ := exists_column (g := g) (p := p) (by have := List.mem_range'_1.mp hp; omega)
    have hf : c.isFixedSize = true :=
      (hg.isFixedSize_iff hc).mpr (by have := List.mem_range'_1.mp hp; omega)
    simp [hc, hf]
  unfold entriesIn
  rw [hsplit, List.countP_append, hfixed, Nat.zero_add, varlenBefore_eq hg hle (Nat.le_refl _)]
  apply List.countP_congr
  intro p hp
  obtain ⟨c, hc⟩ := exists_column (g := g) (p := p) (by have := List.mem_range'_1.mp hp; omega)
  have hv : c.isFixedSize = false := by
    apply Bool.eq_false_iff.mpr
    intro hf
    have := (hg.isFixedSize_iff hc).mp hf
    have := List.mem_range'_1.mp hp
    omega
  simp [hc, hv]

theorem bitAt_segment {bytes : List UInt8} {start stop p : Nat} (h : p / 8 < stop - start) :
    bitAt (segment bytes start stop) p = bitAt (bytes.drop start) p := by
  unfold bitAt
  rw [getElem?_segment, if_pos h, List.getElem?_drop]

/-- The bits that the reader counts in the null map of a chunk are the entries that the chunk needs. -/
theorem countP_marks (hg : g.LaidOut) (chunk : List UInt8) :
    (g.varlenBefore g.length).countP
        (bitAt (segment chunk chunkHeaderSize (ChunkBytes.table g))) =
      g.entriesIn (chunk.drop chunkHeaderSize) := by
  rw [entriesIn_eq hg]
  apply List.countP_congr
  intro p hp
  have hsize : p / 8 < ChunkBytes.table g - chunkHeaderSize := by
    have := div_lt_nullMapSize (lt_of_mem_varlenBefore hp)
    unfold ChunkBytes.table
    omega
  rw [bitAt_segment hsize]

/-- A chunk of the group, with the entries that its null map asks for. -/
def chunkOf (g : Columns) (chunk : List UInt8) : ChunkBytes :=
  ⟨g, chunk, g.entriesIn (chunk.drop chunkHeaderSize)⟩

namespace IsChunk

theorem table_le (h : g.IsChunk chunk) : ChunkBytes.table g ≤ chunk.length := by
  have := h.static_le
  unfold ChunkBytes.table
  omega

theorem header_le (h : g.IsChunk chunk) : chunkHeaderSize ≤ chunk.length :=
  Nat.le_trans (Nat.le_add_right _ _) h.table_le

theorem sound (hg : g.LaidOut) (h : g.IsChunk chunk) : (g.chunkOf chunk).Sound where
  laidOut := hg
  header := h.header
  entries_eq := (countP_marks hg chunk).symm
  data_le := h.static_le

/-- **The reader takes every chunk**, wherever it stands. -/
theorem read_eq (hg : g.LaidOut) (h : g.IsChunk chunk) (before after : List UInt8) :
    ChunkView.read (before ++ chunk ++ after) before.length g =
      .ok ((g.chunkOf chunk).viewAt before.length) := (h.sound hg).read_eq before after

end IsChunk

end Columns

/-- **What the reader takes for a chunk is one.** -/
theorem ChunkBytes.Sound.isChunk {c : ChunkBytes} (h : c.Sound) : c.columns.IsChunk c.bytes := by
  refine ⟨h.header, ?_⟩
  have hdata := h.data_le
  unfold data fixed at hdata
  rwa [h.entries_eq, slot, funext (fun p => show c.marked p = bitAt c.marks p from rfl), marks,
    Columns.countP_marks h.laidOut] at hdata

/-! ## 2. Tuples -/

/-- **Bytes as a tuple of the schema**: the fingerprint, a key chunk and a value chunk. -/
structure Schema.Splits (s : Schema) (bytes key value : List UInt8) : Prop where
  bytes_eq : bytes = s.fingerprint.toBytes ++ key ++ value
  key : s.key.IsChunk key
  value : s.value.IsChunk value

namespace Schema.Splits

variable {s : Schema} {bytes key value key' value' : List UInt8}

/-- **There is no second way to split bytes**: where the key chunk ends, its first word says. -/
theorem unique (h : s.Splits bytes key value) (h' : s.Splits bytes key' value') :
    key = key' ∧ value = value' := by
  have hchunks : key ++ value = key' ++ value' := by
    have hbytes := h.bytes_eq.symm.trans h'.bytes_eq
    rw [List.append_assoc, List.append_assoc] at hbytes
    exact List.append_cancel_left hbytes
  have hword : key.take chunkHeaderSize = key'.take chunkHeaderSize := by
    have hfront := congrArg (List.take chunkHeaderSize) hchunks
    rwa [List.take_append_of_le_length h.key.header_le,
      List.take_append_of_le_length h'.key.header_le] at hfront
  have hlen : key.length = key'.length := by
    rw [← h.key.header, ← h'.key.header, hword]
  exact List.append_inj hchunks hlen

/-- The reader takes the two chunks, and nothing behind them. -/
theorem new_append_eq (hs : s.Sound) (h : s.Splits bytes key value) (rest : List UInt8) :
    View.new s (bytes ++ rest) =
      if rest = [] then .ok (View.ofChunks s (s.key.chunkOf key) (s.value.chunkOf value))
      else Outcome.refuse (.corrupted (.trailing rest.length)) := by
  rw [h.bytes_eq]
  exact View.new_append s (s.key.chunkOf key) (s.value.chunkOf value) (h.key.read_eq hs.key)
    (h.value.read_eq hs.value) rest

/-- The reader takes the bytes, and its positions are those of the two chunks. -/
theorem new_eq (hs : s.Sound) (h : s.Splits bytes key value) : View.new s bytes =
    .ok (View.ofChunks s (s.key.chunkOf key) (s.value.chunkOf value)) := by
  have hnew := h.new_append_eq hs []
  rwa [List.append_nil] at hnew

end Schema.Splits

namespace View

/-- Accepted bytes split into the chunks that the reader found in them. -/
theorem splits_of_new {s : Schema} (hs : s.Sound) {bytes : List UInt8} {t : View}
    (ht : View.new s bytes = .ok t) : s.Splits bytes t.keyChunk.bytes t.valueChunk.bytes := by
  obtain ⟨hsound, rfl, hbytes⟩ := sound_of_new hs ht
  exact ⟨hbytes, hsound.key.isChunk, hsound.value.isChunk⟩

/-- **The accepted bytes are those of the grammar**, and each has its one fingerprint, key chunk and
    value chunk. -/
theorem new_ok_iff {version : UInt32} {key value : List Column} {s : Schema}
    (hdef : Schema.define version key value = .ok s) (bytes : List UInt8) :
    ((∃ t, View.new s bytes = .ok t) ↔ ∃ k v, s.Splits bytes k v) ∧
    ∀ k v k' v', s.Splits bytes k v → s.Splits bytes k' v' → k = k' ∧ v = v' := by
  have hs := Schema.sound_of_define hdef
  refine ⟨⟨?_, ?_⟩, fun k v k' v' h h' => h.unique h'⟩
  · rintro ⟨t, ht⟩
    exact ⟨_, _, splits_of_new hs ht⟩
  · rintro ⟨k, v, h⟩
    exact ⟨_, h.new_eq hs⟩

/-- A number, and a name that may be missing. -/
def nameSchema : Schema :=
  let key := Columns.ofList [⟨"id", .number .int4, false⟩]
  let value := Columns.ofList [⟨"name", .utf8, true⟩]
  { version := 1, fingerprint := Fingerprint.ofColumns key value, key, value }

/-- A null map with bits behind its only column. -/
def strayChunk : List UInt8 := [9, 0, 0, 0, 0xf0, 1, 2, 3, 4]

/-- A table entry that leads nowhere, and bytes that belong to nothing. -/
def looseChunk : List UInt8 := [11, 0, 0, 0, 1, 255, 255, 255, 255, 7, 7]

/-- Neither chunk is one that a builder writes, but both are as long as they say, and long enough. With
    one entry less of room the second is none. -/
theorem new_ok_iff_loose :
    Schema.define 1 [⟨"id", .number .int4, false⟩] [⟨"name", .utf8, true⟩] = .ok nameSchema ∧
    (∃ t, View.new nameSchema (nameSchema.fingerprint.toBytes ++ strayChunk ++ looseChunk) = .ok t) ∧
    ¬ nameSchema.value.IsChunk [8, 0, 0, 0, 1, 255, 255, 255] := by
  have hdef : Schema.define 1 [⟨"id", .number .int4, false⟩] [⟨"name", .utf8, true⟩] =
      .ok nameSchema := rfl
  refine ⟨hdef, (new_ok_iff hdef _).1.mpr ⟨strayChunk, looseChunk, rfl, ?_, ?_⟩, ?_⟩
  · decide
  · decide
  · decide

end View

end RowCodec
