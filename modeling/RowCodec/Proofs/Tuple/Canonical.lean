import RowCodec.Proofs.Tuple.Decoded

/-!
# Canonical chunks

An accepted chunk leaves some bytes open: the null map's bits behind the last column, the slots of
nulls, and the gap before the texts and byte strings. In a canonical chunk these are as the writer
leaves them.

* `ChunkBytes.Canonical` -- such chunks, by what the reader finds in them.
* `Reads.bytes_eq_iff` -- **a chunk is the encoding of its row exactly when it is canonical.**
-/

namespace RowCodec

namespace ChunkBytes

variable {c : ChunkBytes} {p k : Nat} {column : Column} {part : List Value}

/-- **The chunk has nothing that its values do not say.** -/
structure Canonical (c : ChunkBytes) : Prop where
  /-- The null map's bits behind the last column are 0. -/
  padding : ∀ p, c.columns.length ≤ p → p < 8 * c.columns.nullMapSize → c.isDefined p = .ok false
  /-- The slots of null columns are zero bytes. -/
  nulls : ∀ (p : Nat) (column : Column), c.columns.columns[p]? = some column →
    column.isFixedSize = true → c.isDefined p = .ok false →
    c.fixedBytes p column = .ok (List.replicate column.type.size 0)
  /-- The texts and byte strings start right behind the fixed section; without any, the chunk ends
      there. -/
  start : if c.entries = 0 then c.bytes.length = c.data else c.entry 0 = .ok c.data

namespace Sound

/-- What that says of a sound chunk's bytes. -/
theorem canonical_iff (h : c.Sound) : c.Canonical ↔
    (∀ p, c.columns.length ≤ p → c.marked p = false) ∧
    (∀ (p : Nat) (column : Column), c.columns.columns[p]? = some column →
      column.isFixedSize = true → c.marked p = false →
      c.field p column = List.replicate column.type.size 0) ∧
    c.bound 0 = c.data := by
  have hstart : (if c.entries = 0 then c.bytes.length = c.data else c.entry 0 = .ok c.data) ↔
      c.bound 0 = c.data := by
    by_cases hzero : c.entries = 0
    · have hbound : c.bound 0 = c.bytes.length := if_neg (by omega)
      rw [if_pos hzero, hbound]
    · rw [if_neg hzero, h.entry_eq (Nat.pos_of_ne_zero hzero)]
      exact ⟨Except.ok.inj, congrArg Except.ok⟩
  constructor
  · intro hcanon
    refine ⟨fun p hp => ?_, fun p column hc hf hm => ?_, hstart.mp hcanon.start⟩
    · by_cases hlt : p / 8 < c.columns.nullMapSize
      · have hbit := hcanon.padding p hp (by omega)
        rw [h.isDefined_of_byte hlt] at hbit
        exact Except.ok.inj hbit
      · unfold marked bitAt
        rw [List.getElem?_eq_none (by rw [h.length_marks]; omega)]
        rfl
    · have hp : p < c.columns.length := (List.getElem?_eq_some_iff.mp hc).1
      have hslot := hcanon.nulls p column hc hf (by rw [h.isDefined_eq hp, hm])
      rw [h.fixedBytes_eq hc hf] at hslot
      exact Except.ok.inj hslot
  · rintro ⟨hpad, hnulls, hbound⟩
    refine ⟨fun p hp hlt => ?_, fun p column hc hf hm => ?_, hstart.mpr hbound⟩
    · rw [h.isDefined_of_byte (by omega), hpad p hp]
    · have hp : p < c.columns.length := (List.getElem?_eq_some_iff.mp hc).1
      rw [h.isDefined_eq hp] at hm
      rw [h.fixedBytes_eq hc hf, hnulls p column hc hf (Except.ok.inj hm)]

end Sound

namespace Reads

/-! ## 1. The parts of a chunk -/

theorem header_eq (h : c.Sound) : segment c.bytes 0 chunkHeaderSize =
    LittleEndian.encode chunkHeaderSize c.bytes.length := by
  have hlen : (segment c.bytes 0 chunkHeaderSize).length = chunkHeaderSize := by
    rw [length_segment (Nat.le_trans (Nat.le_add_right _ _) h.table_le), Nat.sub_zero]
  conv => lhs; rw [← LittleEndian.encode_decode (segment c.bytes 0 chunkHeaderSize), hlen, h.header]

/-- With no bit behind the last column the null map is the row's. -/
theorem marks_eq (h : c.Reads part) (hpad : ∀ p, c.columns.length ≤ p → c.marked p = false) :
    c.marks = nullMap part := by
  refine eq_of_bitAt ?_ fun p _ => ?_
  · rw [h.sound.length_marks, length_nullMap, h.length_eq]
    rfl
  · show c.marked p = _
    rw [Columns.bitAt_nullMap]
    by_cases hp : p < c.columns.length
    · exact h.marked_eq hp
    · rw [hpad p (Nat.not_lt.mp hp)]
      unfold isDefinedAt
      rw [List.getElem?_eq_none (by rw [h.length_eq]; omega)]
      rfl

theorem entry_bytes (h : c.Sound) (hk : k < c.entries) : LittleEndian.encode entrySize (c.bound k) =
    segment c.bytes (table c.columns + k * entrySize) (table c.columns + k * entrySize + entrySize) := by
  have hmul : (k + 1) * entrySize ≤ c.entries * entrySize := Nat.mul_le_mul_right _ hk
  have hdata : table c.columns + c.entries * entrySize + c.columns.fixedSize ≤ c.bytes.length :=
    h.data_le
  rw [Nat.succ_mul] at hmul
  have hlen : (segment c.bytes (table c.columns + k * entrySize)
      (table c.columns + k * entrySize + entrySize)).length = entrySize := by
    rw [length_segment (by omega), Nat.add_sub_cancel_left]
  unfold bound
  rw [if_pos hk]
  conv => lhs; lhs; rw [← hlen]
  exact LittleEndian.encode_decode _

/-- With no gap before them, each text and byte string starts where it would be written. -/
theorem start_eq (h : c.Reads part) (hstart : c.bound 0 = c.data) (hk : k < (payloads part).length) :
    (c.columns.starts part)[k]? = some (c.bound k) := by
  obtain ⟨hle, hflat⟩ := h.take_flatten_eq (Nat.le_of_lt hk)
  obtain ⟨_, _, hstop, hend⟩ := h.payload_eq (List.getElem?_eq_getElem hk)
  rw [Columns.getElem?_starts hk, hflat, length_segment (Nat.le_trans hstop hend), ← h.data_eq,
    ← hstart, Nat.add_sub_cancel' hle]

/-- With no gap before the texts and byte strings the table is the row's. -/
theorem table_eq (h : c.Reads part) (hstart : c.bound 0 = c.data) : ∀ {k : Nat},
    k ≤ (payloads part).length →
      tableBytes ((c.columns.starts part).take k) =
        segment c.bytes (table c.columns) (table c.columns + k * entrySize)
  | 0, _ => by
      rw [Nat.zero_mul, Nat.add_zero, segment_self]
      rfl
  | k + 1, hk => by
      have ih := h.table_eq hstart (Nat.le_of_succ_le hk)
      have hentry := entry_bytes h.sound (h.entries_eq ▸ hk : k < c.entries)
      have hone : tableBytes [c.bound k] = LittleEndian.encode entrySize (c.bound k) :=
        List.append_nil _
      rw [List.take_add_one, h.start_eq hstart hk, Option.toList_some, tableBytes_append, ih, hone,
        hentry, segment_append (Nat.le_add_right _ _) (Nat.le_add_right _ _), Nat.succ_mul,
        Nat.add_assoc]

/-- With zero bytes for a null, a column's part of the fixed section is its value's slot. -/
theorem field_eq_slot (h : c.Reads part)
    (hnull : column.isFixedSize = true → c.marked p = false →
      c.field p column = List.replicate column.type.size 0)
    (hc : c.columns.columns[p]? = some column) {v : Value} (hv : part[p]? = some v) :
    c.field p column = column.slot v := by
  have hholds := h.holds p column v hc hv
  cases hf : column.isFixedSize with
  | false =>
      unfold field Column.slot
      rw [ColumnType.size_of_varlen hf, Nat.add_zero, segment_self, if_neg (by rw [hf]; decide)]
  | true =>
      cases hd : v.isUndefined with
      | false => exact hholds.field_eq hf hd
      | true =>
          have hm := hholds.marked
          cases v with
          | undefined => rw [hnull hf hm, Column.slot_undefined]
          | _ => cases hd

/-- With zero bytes for the nulls the fixed section is the row's. -/
theorem slots_eq (h : c.Reads part)
    (hnulls : ∀ (p : Nat) (column : Column), c.columns.columns[p]? = some column →
      column.isFixedSize = true → c.marked p = false →
      c.field p column = List.replicate column.type.size 0) : ∀ {n : Nat}, n ≤ c.columns.length →
      slots (c.columns.columns.take n) (part.take n) =
        segment c.bytes c.fixed (c.fixed + Columns.widths (c.columns.columns.take n))
  | 0, _ => by
      rw [List.take_zero, Columns.widths_nil, Nat.add_zero, segment_self]
      rfl
  | n + 1, hn => by
      have ih := h.slots_eq hnulls (Nat.le_of_succ_le hn)
      obtain ⟨column, hc⟩ := Columns.exists_column hn
      have hrow : n < part.length := h.length_eq ▸ hn
      have hv := List.getElem?_eq_getElem hrow
      have hlen : (c.columns.columns.take n).length = (part.take n).length := by
        rw [List.length_take, List.length_take, h.length_eq]
        rfl
      have hone : slots [column] [part[n]] = c.field n column := by
        rw [h.field_eq_slot (hnulls n column hc) hc hv]
        exact List.append_nil _
      rw [List.take_add_one, hc, List.take_add_one, hv, Option.toList_some, Option.toList_some,
        slots_append hlen, ih, hone, Columns.widths_append, Columns.widths_cons, Columns.widths_nil,
        Nat.add_zero, ← Nat.add_assoc]
      exact segment_append (Nat.le_add_right _ _) (Nat.le_add_right _ _)

end Reads

end ChunkBytes

/-! ## 2. Chunks and rows -/

/-- What a row is written as is canonical. -/
theorem Columns.canonical_view {g : Columns} {row : List Value} (hg : g.LaidOut) (hf : g.Fits row) :
    (g.view row).Canonical := by
  have hlen := hf.length_eq
  refine (sound_view hg hf).canonical_iff.mpr ⟨fun p hp => ?_, fun p column hc hfix hnull => ?_, ?_⟩
  · rw [marked_view hlen]
    unfold isDefinedAt
    rw [List.getElem?_eq_none (by rw [hlen]; exact hp)]
    rfl
  · have hp : p < row.length := by
      rw [hlen]
      exact (List.getElem?_eq_some_iff.mp hc).1
    have hv := List.getElem?_eq_getElem hp
    rw [marked_view hlen] at hnull
    unfold isDefinedAt at hnull
    rw [hv] at hnull
    have hundefined : row[p] = .undefined := by
      cases hw : row[p] with
      | undefined => rfl
      | _ =>
          rw [hw] at hnull
          cases hnull
    rw [field_view hf hc hv, hundefined, Column.slot_undefined]
  · by_cases hpos : 0 < (payloads row).length
    · rw [bound_view hg hf (getElem?_starts hpos), data_view]
      rfl
    · have hnil : payloads row = [] := List.eq_nil_of_length_eq_zero (by omega)
      refine (if_neg hpos).trans ?_
      rw [bytes_view, length_encode_eq hg hf.admits.stores hlen, data_view, hnil]
      rfl

namespace ChunkBytes

variable {c : ChunkBytes} {part : List Value}

namespace Reads

/-- A canonical chunk is what its row is written as. -/
theorem bytes_eq_encode (h : c.Reads part) (hs : Stores c.columns.columns part)
    (hcanon : c.Canonical) : c.bytes = c.columns.encode part := by
  obtain ⟨hpad, hnulls, hstart⟩ := h.sound.canonical_iff.mp hcanon
  have hlen : (c.columns.encode part).length = c.bytes.length := by
    rw [Columns.length_encode h.sound.laidOut hs h.length_eq, ← h.chunkBytes_eq, hstart, Nat.sub_self,
      Nat.add_zero]
  have htable := h.table_eq hstart (Nat.le_refl _)
  rw [← Columns.length_starts (g := c.columns), List.take_length, Columns.length_starts,
    ← h.entries_eq] at htable
  have hslots := h.slots_eq hnulls (Nat.le_refl _)
  rw [Columns.length, List.take_length, ← h.sound.laidOut.fixedSize_eq] at hslots
  rw [← Columns.length, ← h.length_eq, List.take_length] at hslots
  have hdata : c.fixed + c.columns.fixedSize ≤ c.bytes.length := h.sound.data_le
  calc c.bytes
      = segment c.bytes 0 chunkHeaderSize ++ c.marks ++ segment c.bytes (table c.columns) c.fixed
          ++ segment c.bytes c.fixed (c.fixed + c.columns.fixedSize)
          ++ segment c.bytes (c.fixed + c.columns.fixedSize) c.bytes.length := by
        have htable : chunkHeaderSize ≤ table c.columns := Nat.le_add_right _ _
        have hfixed : table c.columns ≤ c.fixed := Nat.le_add_right _ _
        unfold marks
        rw [segment_append (Nat.zero_le _) htable, segment_append (Nat.zero_le _) hfixed,
          segment_append (Nat.zero_le _) (Nat.le_add_right _ _),
          segment_append (Nat.zero_le _) hdata, segment_zero_length]
    _ = LittleEndian.encode chunkHeaderSize (c.columns.encode part).length ++ nullMap part
          ++ tableBytes (c.columns.starts part) ++ slots c.columns.columns part
          ++ (payloads part).flatten := by
        rw [header_eq h.sound, h.marks_eq hpad, htable, hslots, h.flatten_eq.2, hstart, hlen]
        rfl
    _ = c.columns.encode part := (Columns.encode_eq _ _).symm

/-- **A chunk is the encoding of its row exactly when it is canonical.** -/
theorem bytes_eq_iff (h : c.Reads part) (hf : c.columns.Fits part) :
    c.bytes = c.columns.encode part ↔ c.Canonical := by
  refine ⟨fun he => ?_, h.bytes_eq_encode hf.admits.stores⟩
  have hview : c = c.columns.view part := by
    obtain ⟨columns, bytes, entries⟩ := c
    exact congr (congrArg (ChunkBytes.mk columns) he) h.entries_eq
  rw [hview]
  exact Columns.canonical_view h.sound.laidOut hf

end Reads

end ChunkBytes

end RowCodec
