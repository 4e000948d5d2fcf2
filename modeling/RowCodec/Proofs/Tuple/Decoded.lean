import RowCodec.Proofs.Tuple.ChunkReading
import RowCodec.Proofs.Tuple.Getters
import RowCodec.Proofs.Tuple.Measured

/-!
# What the columns of a chunk say about its bytes

The converse of reading a row back: bytes that nobody needs to have written as this library writes
them, and the values that they read as.

* `ChunkBytes.Holds` -- what a chunk has for a column that reads as a value; `Leads.holds` says that a
  column that reads as a value has that.
* `ChunkBytes.Reads` -- a chunk all of whose columns read as the values of a row. Its null map is the
  row's (`marked_eq`), it has a table entry for each text and byte string (`entries_eq`), which follow
  each other to the end of the chunk (`flatten_eq`).
* `Reads.bounded` -- the row's own chunk is no longer than the one it was read from.
-/

namespace RowCodec

namespace ChunkBytes

variable {c : ChunkBytes} {p k : Nat} {column : Column} {v : Value} {part : List Value}

/-! ## 1. One column -/

/-- **What a chunk has for a column that reads as a value.** -/
inductive Holds (c : ChunkBytes) (p : Nat) (column : Column) : Value → Prop
  /-- A clear bit in the null map; the column's part of the fixed section can be anything. -/
  | null (hm : c.marked p = false) : Holds c p column .undefined
  /-- The value's slot in the fixed section. -/
  | fixed {v : Value} (hm : c.marked p = true) (hf : column.isFixedSize = true)
      (hs : column.suits v = true) (hd : v.isUndefined = false)
      (hslot : c.field p column = column.slot v) : Holds c p column v
  /-- A text or byte string in the chunk's data. -/
  | payload {v : Value} (hm : c.marked p = true) (hs : column.suits v = true)
      (hp : v.payload? = some (c.text (c.slot p))) (hstart : c.data ≤ c.bound (c.slot p))
      (hstop : c.bound (c.slot p) ≤ c.bound (c.slot p + 1))
      (hend : c.bound (c.slot p + 1) ≤ c.bytes.length) : Holds c p column v

theorem Holds.suits (h : c.Holds p column v) : column.suits v = true := by
  cases h with
  | null hm => rfl
  | fixed hm hf hs hd hslot => exact hs
  | payload hm hs hp hstart hstop hend => exact hs

theorem Holds.marked (h : c.Holds p column v) : c.marked p = !v.isUndefined := by
  cases h with
  | null hm => exact hm
  | fixed hm hf hs hd hslot => rw [hm, hd]; rfl
  | payload hm hs hp hstart hstop hend => rw [hm, Value.isUndefined_of_payload hp]; rfl

/-- A value of fixed size is in its slot of the fixed section, with zero bytes behind it. -/
theorem Holds.field_eq (h : c.Holds p column v) (hf : column.isFixedSize = true)
    (hd : v.isUndefined = false) : c.field p column = column.slot v := by
  cases h with
  | null hm => cases hd
  | fixed hm hf hs hd hslot => exact hslot
  | payload hm hs hp hstart hstop hend =>
      rw [Column.isFixedSize_of_payload hs hp] at hf
      cases hf

end ChunkBytes

namespace View

variable {t : View} {index p : Nat} {c : ChunkBytes} {column : Column} {v : Value}

namespace Leads

theorem value_eq (h : t.Leads index c p column) : t.value index = t.valueAs column.type index := by
  obtain ⟨_, _, hlocate⟩ := h.locate
  unfold value
  rw [hlocate]
  rfl

/-- The bytes of a slot are those of the word read from it. -/
theorem slot_number {kind : NumberKind} (h : t.Leads index c p column)
    (ht : column.type = .number kind) : c.field p column =
      column.slot (.number kind (BitVec.ofNat _ (LittleEndian.decode (c.field p column)))) := by
  have hlen : (c.field p column).length = kind.size := by
    rw [h.sound.length_field h.column, ht]
    rfl
  have hlt : LittleEndian.decode (c.field p column) < 2 ^ (8 * kind.size) := by
    have hlt := LittleEndian.decode_lt (c.field p column)
    rwa [hlen, show (256 : Nat) = 2 ^ 8 from rfl, ← Nat.pow_mul] at hlt
  have hbytes : (Value.number kind
      (BitVec.ofNat _ (LittleEndian.decode (c.field p column)))).fixedBytes = c.field p column := by
    show LittleEndian.encode kind.size (BitVec.ofNat _ _).toNat = _
    rw [BitVec.toNat_ofNat, Nat.mod_eq_of_lt hlt, ← hlen, LittleEndian.encode_decode]
  rw [Column.slot_of_full, hbytes]
  · exact ColumnType.isFixedSize_of_sameKind (ColumnType.sameKind_of_eq ht)
  · rw [hbytes, hlen, ht]
    rfl

/-- The bytes of a slot are those of the set read from it and zero bytes. -/
theorem slot_bitSet {width : UInt32} (h : t.Leads index c p column)
    (ht : column.type = .bitmask width) :
    c.field p column = column.slot (.bitSet (BitSet.ofBytes (c.field p column))) := by
  have hf : column.isFixedSize = true := by
    unfold Column.isFixedSize
    rw [ht]
    rfl
  have hlen := h.sound.length_field h.column
  obtain ⟨n, hn⟩ := exists_padding (c.field p column)
  have hpad : n = column.type.size - (trim (c.field p column)).length := by
    have hsum := congrArg List.length hn
    rw [List.length_append, List.length_replicate, hlen] at hsum
    omega
  unfold Column.slot
  rw [if_pos hf]
  show _ = trim (c.field p column)
    ++ List.replicate (column.type.size - (trim (c.field p column)).length) 0
  rw [← hpad, ← hn]

/-- A column of fixed size reads as the value in its slot, or as a null. -/
theorem holds_fixed {w : Value} (h : t.value index = .ok (if c.marked p then w else .undefined))
    (hk : column.suits w = true) (hf : column.isFixedSize = true) (hd : w.isUndefined = false)
    (hslot : c.field p column = column.slot w) (hv : t.value index = .ok v) :
    c.Holds p column v := by
  rw [h] at hv
  cases hv
  cases hm : c.marked p with
  | false => exact .null hm
  | true => exact .fixed hm hf hk hd hslot

theorem value_number {kind : NumberKind} (h : t.Leads index c p column)
    (ht : column.type = .number kind) : t.value index = .ok (if c.marked p then
      .number kind (BitVec.ofNat _ (LittleEndian.decode (c.field p column))) else .undefined) := by
  rw [h.value_eq, ht]
  unfold valueAs
  simp only [h.number?_eq ht, Outcome.ok_bind]
  cases c.marked p <;> rfl

theorem holds_number {kind : NumberKind} (h : t.Leads index c p column)
    (ht : column.type = .number kind) (hv : t.value index = .ok v) : c.Holds p column v := by
  have hk := ColumnType.sameKind_of_eq ht
  exact holds_fixed (h.value_number ht) hk (ColumnType.isFixedSize_of_sameKind hk) rfl (h.slot_number ht) hv

theorem holds_uuid (h : t.Leads index c p column) (ht : column.type = .uuid)
    (hv : t.value index = .ok v) : c.Holds p column v := by
  have hk := ColumnType.sameKind_of_eq ht
  have hf : column.isFixedSize = true := ColumnType.isFixedSize_of_sameKind hk
  have hslot : c.field p column = column.slot (.uuid ⟨c.field p column, h.length_uuid ht⟩) := by
    rw [Column.slot_of_full hf]
    · rfl
    · rw [ht]
      exact h.length_uuid ht
  have hvalue : t.value index =
      .ok (if c.marked p then .uuid ⟨c.field p column, h.length_uuid ht⟩ else .undefined) := by
    rw [h.value_eq, ht]
    unfold valueAs
    simp only [h.uuid?_eq ht, Outcome.ok_bind]
    cases c.marked p <;> rfl
  exact holds_fixed hvalue hk hf rfl hslot hv

theorem holds_bitSet {width : UInt32} (h : t.Leads index c p column)
    (ht : column.type = .bitmask width) (hv : t.value index = .ok v) : c.Holds p column v := by
  have hk : ∀ n, column.type.sameKind (.bitmask n) = true := fun n =>
    ColumnType.sameKind_iff.mpr (Or.inr ⟨width, n, ht, rfl⟩)
  have hvalue : t.value index =
      .ok (if c.marked p then .bitSet (BitSet.ofBytes (c.field p column)) else .undefined) := by
    rw [h.value_eq, ht]
    unfold valueAs
    simp only [h.bitSet?_eq (hk 0), Outcome.ok_bind]
    cases c.marked p <;> rfl
  exact holds_fixed hvalue (hk _) (ColumnType.isFixedSize_of_sameKind (hk 0)) rfl (h.slot_bitSet ht)
    hv

/-- The bytes of a column of variable length are those of a null, or lie in the chunk's data. -/
theorem varlenBytes?_ok {requested : ColumnType} {found : Option (List UInt8)}
    (h : t.Leads index c p column) (hk : column.type.sameKind requested = true)
    (hf : column.isFixedSize = false) (hb : t.varlenBytes? index requested = .ok found) :
    (c.marked p = false ∧ found = none) ∨
    (found = some (c.text (c.slot p)) ∧
      ∀ v : Value, column.suits v = true → v.payload? = found → c.Holds p column v) := by
  rw [h.varlenBytes?_eq hk hf] at hb
  cases hm : c.marked p with
  | false =>
      rw [hm] at hb
      cases hb
      exact Or.inl ⟨rfl, rfl⟩
  | true =>
      rw [hm, if_pos rfl, h.sound.varlenBytes_eq h.column hf hm] at hb
      split at hb
      · cases hb
      · cases hb
        exact Or.inr ⟨rfl, fun v hs hp => .payload hm hs hp (by omega) (by omega) (by omega)⟩

theorem holds_utf8 (h : t.Leads index c p column) (ht : column.type = .utf8)
    (hv : t.value index = .ok v) : c.Holds p column v := by
  have hk := ColumnType.sameKind_of_eq ht
  rw [h.value_eq, ht] at hv
  obtain ⟨text?, hread, hv⟩ := Outcome.bind_ok hv
  obtain ⟨found, hbytes, hread⟩ := Outcome.bind_ok hread
  rcases h.varlenBytes?_ok hk (ColumnType.isFixedSize_of_sameKind hk) hbytes with
    ⟨hm, rfl⟩ | ⟨rfl, hholds⟩
  · cases hread
    cases hv
    exact .null hm
  · dsimp only at hread
    split at hread
    · rename_i text htext
      cases hread
      cases hv
      exact hholds _ hk (congrArg some (Utf8.encode_of_decode? htext))
    · cases hread

theorem holds_blob (h : t.Leads index c p column) (ht : column.type = .blob)
    (hv : t.value index = .ok v) : c.Holds p column v := by
  have hk := ColumnType.sameKind_of_eq ht
  rw [h.value_eq, ht] at hv
  obtain ⟨found, hbytes, hv⟩ := Outcome.bind_ok hv
  rcases h.varlenBytes?_ok hk (ColumnType.isFixedSize_of_sameKind hk) hbytes with
    ⟨hm, rfl⟩ | ⟨rfl, hholds⟩
  · cases hv
    exact .null hm
  · cases hv
    exact hholds _ hk rfl

/-- **What a column that reads as a value has** in its chunk. -/
theorem holds (h : t.Leads index c p column) (hv : t.value index = .ok v) : c.Holds p column v := by
  cases ht : column.type with
  | number kind => exact h.holds_number ht hv
  | uuid => exact h.holds_uuid ht hv
  | bitmask width => exact h.holds_bitSet ht hv
  | utf8 => exact h.holds_utf8 ht hv
  | blob => exact h.holds_blob ht hv

end Leads

end View

/-! ## 2. One chunk -/

/-- A text or byte string of a row is that of a column. -/
theorem exists_of_payload : ∀ {row : List Value} {k : Nat} {bytes : List UInt8},
    (payloads row)[k]? = some bytes →
      ∃ p v, row[p]? = some v ∧ v.payload? = some bytes ∧ (payloads (row.take p)).length = k
  | [], _, _, h => by cases h
  | v :: rest, k, bytes, h => by
      cases hp : v.payload? with
      | none =>
          rw [payloads, List.filterMap_cons_none hp] at h
          obtain ⟨p, w, hw, hbytes, hlen⟩ := exists_of_payload h
          refine ⟨p + 1, w, hw, hbytes, ?_⟩
          rw [List.take_succ_cons, payloads, List.filterMap_cons_none hp]
          exact hlen
      | some own =>
          rw [payloads, List.filterMap_cons_some hp] at h
          cases k with
          | zero =>
              cases h
              exact ⟨0, v, rfl, hp, rfl⟩
          | succ k =>
              obtain ⟨p, w, hw, hbytes, hlen⟩ := exists_of_payload h
              refine ⟨p + 1, w, hw, hbytes, ?_⟩
              rw [List.take_succ_cons, payloads, List.filterMap_cons_some hp, List.length_cons]
              exact congrArg (· + 1) hlen

namespace ChunkBytes

variable {c : ChunkBytes} {p k : Nat} {column : Column} {v : Value} {part : List Value}

/-- **The columns of a chunk read as a row.** -/
structure Reads (c : ChunkBytes) (part : List Value) : Prop where
  sound : c.Sound
  length_eq : part.length = c.columns.length
  holds : ∀ (p : Nat) (column : Column) (v : Value), c.columns.columns[p]? = some column →
    part[p]? = some v → c.Holds p column v

namespace Reads

theorem suits (h : c.Reads part) : Suits c.columns.columns part :=
  fun p column v hc hv => (h.holds p column v hc hv).suits

/-- The null map is the row's. -/
theorem marked_eq (h : c.Reads part) (hp : p < c.columns.length) :
    c.marked p = isDefinedAt part p := by
  obtain ⟨column, hc⟩ := Columns.exists_column hp
  have hv := List.getElem?_eq_getElem (h.length_eq ▸ hp : p < part.length)
  unfold isDefinedAt
  rw [(h.holds p column _ hc hv).marked, hv]
  rfl

/-- A column's slot in the table is the number of texts and byte strings before it. -/
theorem slot_eq (h : c.Reads part) (hfixed : c.columns.fixedCount ≤ p) (hp : p ≤ c.columns.length) :
    c.slot p = (payloads (part.take p)).length := by
  have hcount := Columns.countP_varlen h.sound.laidOut h.suits h.length_eq
    (p - c.columns.fixedCount) (by omega)
  unfold slot
  rw [Columns.varlenBefore_eq h.sound.laidOut hfixed hp, ← Nat.add_sub_cancel' hfixed,
    Nat.add_sub_cancel_left, ← hcount]
  refine List.countP_congr fun q hq => ?_
  have hlt := (List.mem_range'_1.mp hq).2
  rw [h.marked_eq (by omega)]

theorem entries_eq (h : c.Reads part) : c.entries = (payloads part).length := by
  rw [h.sound.entries_eq, h.slot_eq h.sound.laidOut.fixedCount_le (Nat.le_refl _), ← h.length_eq,
    List.take_length]

/-- Each table entry leads to its text or byte string. -/
theorem payload_eq (h : c.Reads part) {bytes : List UInt8} (hk : (payloads part)[k]? = some bytes) :
    bytes = c.text k ∧ c.data ≤ c.bound k ∧ c.bound k ≤ c.bound (k + 1) ∧
      c.bound (k + 1) ≤ c.bytes.length := by
  obtain ⟨p, v, hv, hbytes, rfl⟩ := exists_of_payload hk
  have hp : p < c.columns.length := h.length_eq ▸ (List.getElem?_eq_some_iff.mp hv).1
  obtain ⟨column, hc⟩ := Columns.exists_column hp
  have hfixed := Columns.fixedCount_le_of_payload h.sound.laidOut h.suits hc hv hbytes
  rw [← h.slot_eq hfixed (Nat.le_of_lt hp)]
  cases h.holds p column v hc hv with
  | null hm => cases hbytes
  | fixed hm hf hs hd hslot =>
      rw [Column.isFixedSize_of_payload hs hbytes] at hf
      cases hf
  | payload hm hs hp hstart hstop hend =>
      rw [hbytes] at hp
      exact ⟨Option.some.inj hp, hstart, hstop, hend⟩

theorem bound_entries (h : c.Reads part) : c.bound (payloads part).length = c.bytes.length := by
  rw [← h.entries_eq]
  exact ChunkBytes.bound_entries c

/-- The texts and byte strings begin behind the fixed section. -/
theorem data_le_bound (h : c.Reads part) : c.data ≤ c.bound 0 := by
  cases hk : (payloads part)[0]? with
  | some bytes => exact (h.payload_eq hk).2.1
  | none =>
      have hzero : (payloads part).length = 0 := Nat.le_zero.mp (List.getElem?_eq_none_iff.mp hk)
      have hend := h.bound_entries
      rw [hzero] at hend
      rw [hend]
      exact h.sound.data_le

/-- The first texts and byte strings follow each other without a gap. -/
theorem take_flatten_eq (h : c.Reads part) : ∀ {k : Nat}, k ≤ (payloads part).length →
    c.bound 0 ≤ c.bound k ∧ ((payloads part).take k).flatten = segment c.bytes (c.bound 0) (c.bound k)
  | 0, _ => ⟨Nat.le_refl _, by rw [segment_self]; rfl⟩
  | k + 1, hk => by
      obtain ⟨hle, ih⟩ := h.take_flatten_eq (Nat.le_of_succ_le hk)
      have hk := List.getElem?_eq_getElem hk
      obtain ⟨hbytes, _, hstop, _⟩ := h.payload_eq hk
      refine ⟨Nat.le_trans hle hstop, ?_⟩
      rw [List.take_add_one, hk, List.flatten_append, ih, Option.toList_some,
        List.flatten_singleton, hbytes]
      exact segment_append hle hstop

/-- **The texts and byte strings of a chunk reach to its end.** -/
theorem flatten_eq (h : c.Reads part) :
    c.bound 0 ≤ c.bytes.length ∧
    (payloads part).flatten = segment c.bytes (c.bound 0) c.bytes.length := by
  have hall := h.take_flatten_eq (Nat.le_refl _)
  rwa [List.take_length, h.bound_entries] at hall

theorem data_eq (h : c.Reads part) : c.data = c.columns.staticSize (payloads part).length := by
  rw [← h.entries_eq]
  rfl

/-- The row's own chunk is as long as this one without the bytes between the fixed section and the
    first text or byte string. -/
theorem chunkBytes_eq (h : c.Reads part) :
    c.columns.chunkBytes (rowStatistic part) + (c.bound 0 - c.data) = c.bytes.length := by
  obtain ⟨hle, hflat⟩ := h.flatten_eq
  have hstart := h.data_le_bound
  have hlen : (payloads part).flatten.length = c.bytes.length - c.bound 0 := by
    rw [hflat, length_segment (Nat.le_refl _)]
  have hsize : c.columns.chunkBytes (rowStatistic part) =
      c.columns.staticSize (payloads part).length + (payloads part).flatten.length := rfl
  rw [hsize, ← h.data_eq, hlen]
  omega

theorem chunkBytes_le (h : c.Reads part) :
    c.columns.chunkBytes (rowStatistic part) ≤ c.bytes.length := by
  rw [← h.chunkBytes_eq]
  exact Nat.le_add_right _ _

/-- A chunk's length is a 32-bit word. -/
theorem length_le (h : c.Sound) : c.bytes.length ≤ maxChunkOffset := by
  have hlt := LittleEndian.decode_lt (segment c.bytes 0 chunkHeaderSize)
  have hlen : (segment c.bytes 0 chunkHeaderSize).length = chunkHeaderSize := by
    rw [length_segment (Nat.le_trans (Nat.le_add_right _ _) h.table_le), Nat.sub_zero]
  rw [h.header, hlen] at hlt
  exact Nat.le_of_lt_succ hlt

/-- **The row fits into a chunk no longer than this one.** -/
theorem bounded (h : c.Reads part) : c.columns.Bounded part :=
  ⟨h.length_eq, Nat.le_trans h.chunkBytes_le (length_le h.sound)⟩

end Reads

end ChunkBytes

end RowCodec
