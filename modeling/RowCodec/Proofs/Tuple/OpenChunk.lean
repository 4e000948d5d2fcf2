import RowCodec.Proofs.Bytes.Splice
import RowCodec.Proofs.Tuple.Encoding
import RowCodec.Tuple.Builder

/-!
# A chunk while it is written

In the buffer of a builder the chunk of a group lies behind the bytes that are finished and before
the room that is left. Columns without a value yet look like nulls.

* `Chunk.openBytes` -- the chunk's bytes after some values: its length not filled in, table entries
  that no value uses yet holding anything.
* `Chunk.Open` -- the positions the builder keeps and the buffer agree with that.
* `Open.put_null`, `Open.put_fixed`, `Open.put_payload` -- what a value's writes do to the buffer is
  adding the value to the row; `Open.spoil` is the entry of a value that did not fit.
* `Open.close` -- filling in the length of a full chunk makes it `Columns.encode` of its row.
-/

namespace RowCodec

/-- The values given so far, and nulls for the columns that wait. -/
def padRow (n : Nat) (vs : List Value) : List Value :=
  vs ++ List.replicate (n - vs.length) .undefined

section Rows

variable {n : Nat} {vs : List Value}

theorem length_padRow (h : vs.length ≤ n) : (padRow n vs).length = n := by
  rw [padRow, List.length_append, List.length_replicate]
  omega

theorem padRow_nil (n : Nat) : padRow n [] = List.replicate n .undefined := rfl

theorem padRow_full (h : vs.length = n) : padRow n vs = vs := by
  rw [padRow, h, Nat.sub_self, List.replicate_zero, List.append_nil]

theorem getElem?_padRow (h : vs.length < n) : (padRow n vs)[vs.length]? = some .undefined := by
  rw [padRow, List.getElem?_append_right (Nat.le_refl _), Nat.sub_self,
    List.getElem?_replicate_of_lt (by omega)]

/-- One more value takes the place of the first null that stands for a waiting column. -/
theorem padRow_append (v : Value) (h : vs.length < n) :
    padRow n (vs ++ [v]) = (padRow n vs).set vs.length v := by
  have hr : n - vs.length = (n - (vs ++ [v]).length) + 1 := by
    rw [List.length_append, List.length_singleton]
    omega
  unfold padRow
  rw [hr, List.replicate_succ, List.set_append_right _ _ (Nat.le_refl _), Nat.sub_self,
    List.set_cons_zero, List.append_assoc, List.singleton_append]

theorem padRow_append_undefined (h : vs.length < n) :
    padRow n (vs ++ [.undefined]) = padRow n vs := by
  rw [padRow_append _ h]
  apply List.ext_getElem?
  intro i
  rw [List.getElem?_set]
  split
  · rename_i hi
    rw [← hi, getElem?_padRow h, if_pos (by rw [length_padRow (Nat.le_of_lt h)]; exact h)]
  · rfl

theorem stores_padRow {columns : List Column} (h : Stores columns vs) :
    Stores columns (padRow n vs) := by
  intro p c v hc hv
  unfold padRow at hv
  by_cases hp : p < vs.length
  · rw [List.getElem?_append_left hp] at hv
    exact h p c v hc hv
  · rw [List.getElem?_append_right (by omega), List.getElem?_replicate] at hv
    split at hv
    · cases hv
      rfl
    · cases hv

theorem Admits.append {columns : List Column} {c : Column} {v : Value} (h : Admits columns vs)
    (hc : columns[vs.length]? = some c) (hv : c.admits v = true) : Admits columns (vs ++ [v]) := by
  intro p d w hd hw
  by_cases hp : p < vs.length
  · rw [List.getElem?_append_left hp] at hw
    exact h p d w hd hw
  · rw [List.getElem?_append_right (by omega), List.getElem?_singleton] at hw
    split at hw
    · have he : p = vs.length := by omega
      rw [he, hc] at hd
      cases hd
      cases hw
      exact hv
    · cases hw

end Rows

/-! ## 1. Writes into the parts -/

/-- A buffer whose last chunk lies open: the finished bytes, the chunk's length not filled in, its
    null map, the table entries in use and those that wait, the slots, the texts and byte strings, and
    the room that is left. -/
def openBuffer (before marks entries unused fixed texts : List UInt8) (room : Nat) : List UInt8 :=
  before ++ List.replicate chunkHeaderSize 0 ++ marks ++ entries ++ unused ++ fixed ++ texts
    ++ List.replicate room 0

theorem slots_set {columns : List Column} {row : List Value} {p : Nat} {c : Column} {v : Value}
    (hc : columns[p]? = some c) (hp : p < row.length) :
    slots columns (row.set p v) = slots (columns.take p) (row.take p) ++ c.slot v
      ++ slots (columns.drop (p + 1)) (row.drop (p + 1)) := by
  rw [slots_at hc (List.getElem?_set_self hp), List.take_set_of_le (Nat.le_refl p),
    List.drop_set_of_lt (Nat.lt_succ_self p)]

/-- A value of a column of variable length leaves the slots as they are. -/
theorem slots_set_varlen {columns : List Column} {row : List Value} {p : Nat} {c : Column} {v : Value}
    (hc : columns[p]? = some c) (hf : c.isFixedSize = false) (hr : row[p]? = some .undefined) :
    slots columns (row.set p v) = slots columns row := by
  rw [slots_set hc (List.getElem?_eq_some_iff.mp hr).1, slots_at hc hr]
  unfold Column.slot
  rw [hf]
  rfl

section Parts

variable {before marks entries unused fixed texts : List UInt8} {room offset : Nat}

theorem length_openBuffer : (openBuffer before marks entries unused fixed texts room).length =
    before.length + chunkHeaderSize + marks.length + entries.length + unused.length + fixed.length
      + texts.length + room := by
  unfold openBuffer
  simp only [List.length_append, List.length_replicate]

/-- Marking a value as non-null changes the null map to that of the row with the value. -/
theorem openBuffer_mark {row : List Value} {p : Nat} {v : Value}
    (ho : offset = before.length + chunkHeaderSize + p / 8) (hp : p < row.length)
    (hv : v.isUndefined = false) :
    (openBuffer before (nullMap row) entries unused fixed texts room).modify offset (· ||| bitOf p) =
      openBuffer before (nullMap (row.set p v)) entries unused fixed texts room := by
  have hfront : offset = (before ++ List.replicate chunkHeaderSize 0).length + p / 8 := by
    rw [List.length_append, List.length_replicate]
    exact ho
  have hbyte : p / 8 < (nullMap row).length := by
    rw [length_nullMap]
    omega
  have h := modify_append (f := (· ||| bitOf p)) _
    (entries ++ unused ++ fixed ++ texts ++ List.replicate room 0) hfront hbyte
  rw [← nullMap_set hp hv] at h
  unfold openBuffer
  simp only [List.append_assoc] at h ⊢
  exact h

/-- Writing a value's bytes at its column's offset changes the slots to those of the row with the
    value: the zero bytes of the null's slot are the padding. -/
theorem openBuffer_slot {columns : List Column} {row : List Value} {p : Nat} {c : Column} {v : Value}
    (hs : Stores columns row) (hl : row.length = columns.length) (hc : columns[p]? = some c)
    (hr : row[p]? = some .undefined) (hv : c.stores v = true) (hf : c.isFixedSize = true)
    (ho : offset = before.length + chunkHeaderSize + marks.length + entries.length + unused.length
      + Columns.widths (columns.take p)) :
    overwrite (openBuffer before marks entries unused (slots columns row) texts room) offset
        v.fixedBytes =
      openBuffer before marks entries unused (slots columns (row.set p v)) texts room := by
  have hp := (List.getElem?_eq_some_iff.mp hr).1
  have hle := Column.length_fixedBytes_le hv
  have htake := length_slots_take hs hl p
  have hzero : c.slot .undefined = List.replicate v.fixedBytes.length 0
      ++ List.replicate (c.type.size - v.fixedBytes.length) 0 := by
    rw [Column.slot_undefined, List.replicate_append_replicate, Nat.add_sub_cancel' hle]
  have hslot : c.slot v =
      v.fixedBytes ++ List.replicate (c.type.size - v.fixedBytes.length) 0 := by
    rw [Column.slot, if_pos hf]
  have hfront : offset = (before ++ List.replicate chunkHeaderSize 0 ++ marks ++ entries ++ unused
      ++ slots (columns.take p) (row.take p)).length := by
    simp only [List.length_append, List.length_replicate, htake, ho]
  have hnew : v.fixedBytes.length = (List.replicate v.fixedBytes.length (0 : UInt8)).length :=
    List.length_replicate.symm
  have h := overwrite_append _ (List.replicate (c.type.size - v.fixedBytes.length) 0
    ++ slots (columns.drop (p + 1)) (row.drop (p + 1)) ++ texts ++ List.replicate room 0) _ hfront hnew
  unfold openBuffer
  rw [slots_set hc hp, slots_at hc hr, hzero, hslot]
  simp only [List.append_assoc] at h ⊢
  exact h

/-- Writing a table entry replaces the first entry that waits, whatever it held. -/
theorem openBuffer_entry {new old : List UInt8} (hn : new.length = old.length)
    (ho : offset = before.length + chunkHeaderSize + marks.length + entries.length) :
    overwrite (openBuffer before marks entries (old ++ unused) fixed texts room) offset new =
      openBuffer before marks entries (new ++ unused) fixed texts room := by
  have hfront :
      offset = (before ++ List.replicate chunkHeaderSize 0 ++ marks ++ entries).length := by
    simp only [List.length_append, List.length_replicate, ho]
  have h := overwrite_append _ (unused ++ fixed ++ texts ++ List.replicate room 0) _ hfront hn
  unfold openBuffer
  simp only [List.append_assoc] at h ⊢
  exact h

/-- An entry that is used is one that waits no longer. -/
theorem openBuffer_use (new : List UInt8) :
    openBuffer before marks entries (new ++ unused) fixed texts room =
      openBuffer before marks (entries ++ new) unused fixed texts room := by
  unfold openBuffer
  simp only [List.append_assoc]

/-- Writing a text or byte string behind the others takes its length from the room. -/
theorem openBuffer_text {bytes : List UInt8} (hb : bytes.length ≤ room)
    (ho : offset = before.length + chunkHeaderSize + marks.length + entries.length + unused.length
      + fixed.length + texts.length) :
    overwrite (openBuffer before marks entries unused fixed texts room) offset bytes =
      openBuffer before marks entries unused fixed (texts ++ bytes) (room - bytes.length) := by
  have hfront : offset = (before ++ List.replicate chunkHeaderSize 0 ++ marks ++ entries ++ unused
      ++ fixed ++ texts).length := by
    simp only [List.length_append, List.length_replicate, ho]
  have hnew : bytes.length = (List.replicate bytes.length (0 : UInt8)).length :=
    List.length_replicate.symm
  have h := overwrite_append _ (List.replicate (room - bytes.length) 0) _ hfront hnew
  have hroom : List.replicate room (0 : UInt8) =
      List.replicate bytes.length 0 ++ List.replicate (room - bytes.length) 0 := by
    rw [List.replicate_append_replicate, Nat.add_sub_cancel' hb]
  unfold openBuffer
  rw [hroom]
  simp only [List.append_assoc] at h ⊢
  exact h

end Parts

/-! ## 2. Open chunks -/

namespace Chunk

/-- The positions of a chunk after some values. -/
def after (start : Nat) (g : Columns) (declared : Nat) (vs : List Value) : Chunk :=
  let chunk := layOut start g declared
  { chunk with
    varlen := chunk.varlen + (payloads vs).flatten.length, written := (payloads vs).length }

/-- **A chunk lies open** in a buffer behind the bytes `before`: the first columns of the group have
    taken the values `vs`, and behind the chunk there is only zeroed room. -/
structure Open (g : Columns) (declared : Nat) (before : List UInt8) (vs : List Value)
    (chunk : Chunk) (buffer : List UInt8) : Prop where
  length_le : vs.length ≤ g.length
  admits : Admits g.columns vs
  chunk_eq : chunk = after before.length g declared vs
  buffer_eq : ∃ (unused : List UInt8) (room : Nat),
    unused.length + (payloads vs).length * entrySize = declared * entrySize ∧
    buffer = openBuffer before (nullMap (padRow g.length vs))
      (tableBytes (startsFrom (g.staticSize declared) (payloads vs))) unused
      (slots g.columns (padRow g.length vs)) (payloads vs).flatten room

section

variable {g : Columns} {declared : Nat} {before : List UInt8} {vs : List Value} {chunk : Chunk}
  {buffer : List UInt8} {c : Column} {v : Value}

theorem varlen_after (start : Nat) : (after start g declared vs).varlen =
    start + (g.staticSize declared + (payloads vs).flatten.length) := by
  show start + chunkHeaderSize + g.nullMapSize + declared * entrySize + g.fixedSize
    + (payloads vs).flatten.length = _
  unfold Columns.staticSize
  omega

theorem varlen_layOut (start : Nat) :
    (layOut start g declared).varlen = start + g.staticSize declared := by
  show start + chunkHeaderSize + g.nullMapSize + declared * entrySize + g.fixedSize = _
  unfold Columns.staticSize
  omega

/-- A value without a payload moves no position. -/
theorem after_append_of_none (start : Nat) (hp : v.payload? = none) :
    after start g declared (vs ++ [v]) = after start g declared vs := by
  unfold after
  rw [payloads_append_of_none hp]

namespace Open

/-- The parts of the buffer have the sizes that the positions say. -/
theorem sizes (hg : g.LaidOut) (h : Open g declared before vs chunk buffer) :
    (nullMap (padRow g.length vs)).length = g.nullMapSize ∧
    (slots g.columns (padRow g.length vs)).length = g.fixedSize := by
  have hl := length_padRow h.length_le
  refine ⟨?_, ?_⟩
  · rw [length_nullMap, hl]
    rfl
  · exact (length_slots (stores_padRow h.admits.stores) hl).trans hg.fixedSize_eq.symm

/-- The room left is what lies behind the last byte string. -/
theorem room_eq (hg : g.LaidOut) (h : Open g declared before vs chunk buffer) {unused : List UInt8}
    {room : Nat}
    (hu : unused.length + (payloads vs).length * entrySize = declared * entrySize)
    (hb : buffer = openBuffer before (nullMap (padRow g.length vs))
      (tableBytes (startsFrom (g.staticSize declared) (payloads vs))) unused
      (slots g.columns (padRow g.length vs)) (payloads vs).flatten room) :
    buffer.length = chunk.varlen + room := by
  obtain ⟨hm, hs⟩ := h.sizes hg
  rw [hb, length_openBuffer, h.chunk_eq, varlen_after, hm, hs, length_tableBytes, length_startsFrom]
  unfold Columns.staticSize
  omega

theorem varlen_le (hg : g.LaidOut) (h : Open g declared before vs chunk buffer) :
    chunk.varlen ≤ buffer.length := by
  obtain ⟨unused, room, hu, hb⟩ := h.buffer_eq
  rw [h.room_eq hg hu hb]
  exact Nat.le_add_right _ _

theorem length_lt (hc : g.columns[vs.length]? = some c) : vs.length < g.length :=
  (List.getElem?_eq_some_iff.mp hc).1

theorem length_append_le (hc : g.columns[vs.length]? = some c) : (vs ++ [v]).length ≤ g.length := by
  rw [List.length_append]
  exact length_lt hc

/-- Each column of the group has its bit in the reserved bytes. -/
theorem mark_lt (hg : g.LaidOut) (h : Open g declared before vs chunk buffer) {p : Nat}
    (hp : p < g.length) : chunk.start + chunkHeaderSize + p / 8 < buffer.length := by
  have hle := h.varlen_le hg
  rw [h.chunk_eq, varlen_after] at hle
  have hstart : chunk.start = before.length := by
    rw [h.chunk_eq]
    rfl
  unfold Columns.staticSize Columns.nullMapSize at hle
  omega

/-- Each column of the group has its slot in the reserved bytes. -/
theorem slot_le (hg : g.LaidOut) (h : Open g declared before vs chunk buffer) {p : Nat}
    (hc : g.columns[p]? = some c) :
    chunk.fixed + Columns.widths (g.columns.take p) + c.type.size ≤ buffer.length := by
  have hle := h.varlen_le hg
  have hvar : chunk.varlen = chunk.fixed + g.fixedSize + (payloads vs).flatten.length := by
    rw [h.chunk_eq]
    rfl
  have hw : g.fixedSize = Columns.widths (g.columns.take p)
      + (c.type.size + Columns.widths (g.columns.drop (p + 1))) := by
    rw [hg.fixedSize_eq, ← Columns.widths_cons, ← Columns.widths_append, ← eq_take_cons_drop hc]
  omega

/-- Each declared entry lies in the reserved bytes. -/
theorem entry_le (hg : g.LaidOut) (h : Open g declared before vs chunk buffer)
    (hw : chunk.written < chunk.declared) (start : Nat) :
    chunk.table + chunk.written * entrySize + (LittleEndian.encode entrySize start).length ≤
      buffer.length := by
  rw [LittleEndian.length_encode]
  have hle := h.varlen_le hg
  have hvar : chunk.varlen = chunk.table + chunk.declared * entrySize + g.fixedSize
      + (payloads vs).flatten.length := by
    rw [h.chunk_eq]
    rfl
  have hmul : (chunk.written + 1) * entrySize ≤ chunk.declared * entrySize :=
    Nat.mul_le_mul_right _ hw
  rw [Nat.succ_mul] at hmul
  omega

theorem length_enter (hg : g.LaidOut) (h : Open g declared before vs chunk buffer)
    (hw : chunk.written < chunk.declared) (start : Nat) :
    (overwrite buffer (chunk.table + chunk.written * entrySize)
      (LittleEndian.encode entrySize start)).length = buffer.length :=
  length_overwrite (h.entry_le hg hw start)

/-- A null is taken without a write. -/
theorem put_null (h : Open g declared before vs chunk buffer)
    (hc : g.columns[vs.length]? = some c) (hv : c.admits .undefined = true) :
    Open g declared before (vs ++ [.undefined]) chunk buffer := by
  obtain ⟨unused, room, hu, hb⟩ := h.buffer_eq
  refine ⟨length_append_le hc, h.admits.append hc hv, ?_, unused, room, ?_, ?_⟩
  · rw [h.chunk_eq, after_append_of_none _ rfl]
  · rw [payloads_append_of_none rfl]
    exact hu
  · rw [payloads_append_of_none rfl, padRow_append_undefined (length_lt hc)]
    exact hb

/-- A value of fixed size is taken by writing its bytes into its slot and marking it. -/
theorem put_fixed (hg : g.LaidOut) (h : Open g declared before vs chunk buffer)
    (hc : g.columns[vs.length]? = some c) (hv : c.admits v = true) (hp : v.payload? = none)
    (hd : v.isUndefined = false) :
    Open g declared before (vs ++ [v]) chunk
      ((overwrite buffer (chunk.fixed + Columns.widths (g.columns.take vs.length)) v.fixedBytes).modify
        (chunk.start + chunkHeaderSize + vs.length / 8) (· ||| bitOf vs.length)) := by
  have hlt := length_lt hc
  have hst := Column.stores_of_admits hv
  have hf : c.isFixedSize = true := Column.isFixedSize_of_none hst hp hd
  have hl : (padRow g.length vs).length = g.columns.length := length_padRow h.length_le
  obtain ⟨unused, room, hu, hb⟩ := h.buffer_eq
  obtain ⟨hm, _⟩ := h.sizes hg
  refine ⟨length_append_le hc, h.admits.append hc hv, ?_, unused, room, ?_, ?_⟩
  · rw [h.chunk_eq, after_append_of_none _ hp]
  · rw [payloads_append_of_none hp]
    exact hu
  · rw [hb, payloads_append_of_none hp, padRow_append _ hlt,
      openBuffer_slot (stores_padRow h.admits.stores) hl hc (getElem?_padRow hlt) hst hf,
      openBuffer_mark _ (by rw [length_padRow h.length_le]; exact hlt) hd]
    · rw [h.chunk_eq]
      rfl
    · rw [h.chunk_eq, hm, length_tableBytes, length_startsFrom]
      show before.length + chunkHeaderSize + g.nullMapSize + declared * entrySize + _ = _
      omega

/-- The entry of the next text or byte string may hold anything before it is used. -/
theorem spoil (hg : g.LaidOut) (h : Open g declared before vs chunk buffer)
    (hw : chunk.written < chunk.declared) {entry : List UInt8} (he : entry.length = entrySize) :
    ∃ (unused : List UInt8) (room : Nat),
      entry.length + unused.length + (payloads vs).length * entrySize = declared * entrySize ∧
      overwrite buffer (chunk.table + chunk.written * entrySize) entry =
        openBuffer before (nullMap (padRow g.length vs))
          (tableBytes (startsFrom (g.staticSize declared) (payloads vs))) (entry ++ unused)
          (slots g.columns (padRow g.length vs)) (payloads vs).flatten room ∧
      buffer.length = chunk.varlen + room := by
  obtain ⟨unused, room, hu, hb⟩ := h.buffer_eq
  obtain ⟨hm, _⟩ := h.sizes hg
  have hlt : (payloads vs).length < declared := by
    rw [h.chunk_eq] at hw
    exact hw
  have hle : entrySize ≤ unused.length := by
    have : ((payloads vs).length + 1) * entrySize ≤ declared * entrySize :=
      Nat.mul_le_mul_right _ hlt
    rw [Nat.succ_mul] at this
    omega
  have hlen : (unused.take entrySize).length = entrySize := by
    rw [List.length_take]
    exact Nat.min_eq_left hle
  refine ⟨unused.drop entrySize, room, ?_, ?_, h.room_eq hg hu hb⟩
  · rw [he, List.length_drop]
    omega
  · rw [hb]
    conv => lhs; rw [← List.take_append_drop entrySize unused]
    apply openBuffer_entry (he.trans hlen.symm)
    rw [h.chunk_eq, hm, length_tableBytes, length_startsFrom]
    rfl

/-- A refused text or byte string leaves at most its entry behind. -/
theorem spoiled (hg : g.LaidOut) (h : Open g declared before vs chunk buffer)
    (hw : chunk.written < chunk.declared) {entry : List UInt8} (he : entry.length = entrySize) :
    Open g declared before vs chunk
      (overwrite buffer (chunk.table + chunk.written * entrySize) entry) := by
  obtain ⟨unused, room, hu, hb, _⟩ := h.spoil hg hw he
  refine ⟨h.length_le, h.admits, h.chunk_eq, entry ++ unused, room, ?_, hb⟩
  rw [List.length_append]
  exact hu

/-- A text or byte string is taken by writing its entry and its bytes and marking it. -/
theorem put_payload (hg : g.LaidOut) (h : Open g declared before vs chunk buffer)
    (hc : g.columns[vs.length]? = some c) (hv : c.admits v = true) {bytes : List UInt8}
    (hp : v.payload? = some bytes) (hw : chunk.written < chunk.declared)
    (hr : chunk.varlen + bytes.length ≤ buffer.length) :
    Open g declared before (vs ++ [v])
      { chunk with varlen := chunk.varlen + bytes.length, written := chunk.written + 1 }
      ((overwrite
          (overwrite buffer (chunk.table + chunk.written * entrySize)
            (LittleEndian.encode entrySize (chunk.varlen - chunk.start)))
          chunk.varlen bytes).modify
        (chunk.start + chunkHeaderSize + vs.length / 8) (· ||| bitOf vs.length)) := by
  have hlt := length_lt hc
  have hst := Column.stores_of_admits hv
  have hf : c.isFixedSize = false := Column.isFixedSize_of_payload (Column.suits_of_stores hst) hp
  have hd := Value.isUndefined_of_payload hp
  obtain ⟨unused, room, hu, hb, hlen⟩ :=
    h.spoil hg hw (LittleEndian.length_encode entrySize (chunk.varlen - chunk.start))
  obtain ⟨hm, hs⟩ := h.sizes hg
  have hstart : chunk.varlen - chunk.start =
      g.staticSize declared + (payloads vs).flatten.length := by
    rw [h.chunk_eq, varlen_after]
    exact Nat.add_sub_cancel_left _ _
  rw [LittleEndian.length_encode] at hu
  refine ⟨length_append_le hc, h.admits.append hc hv, ?_, unused, room - bytes.length, ?_, ?_⟩
  · rw [h.chunk_eq]
    unfold after
    rw [payloads_append_of_some hp]
    simp only [List.flatten_append, List.flatten_singleton, List.length_append,
      List.length_singleton, Nat.add_assoc]
  · rw [payloads_append_of_some hp, List.length_append, List.length_singleton, Nat.succ_mul]
    omega
  · have hentries : tableBytes (startsFrom (g.staticSize declared) (payloads (vs ++ [v]))) =
        tableBytes (startsFrom (g.staticSize declared) (payloads vs))
          ++ LittleEndian.encode entrySize (chunk.varlen - chunk.start) := by
      rw [startsFrom_append_of_some _ hp, tableBytes_append, hstart]
      exact congrArg _ (List.append_nil _)
    rw [hb, openBuffer_use, openBuffer_text (by omega), openBuffer_mark _ _ hd, ← hentries,
      padRow_append _ hlt, slots_set_varlen hc hf (getElem?_padRow hlt), payloads_append_of_some hp,
      List.flatten_append, List.flatten_singleton]
    · rw [h.chunk_eq]
      rfl
    · rw [length_padRow h.length_le]
      exact hlt
    · rw [hm, hs, List.length_append, length_tableBytes, length_startsFrom,
        LittleEndian.length_encode, h.chunk_eq, varlen_after]
      unfold Columns.staticSize
      omega

/-- **A new chunk lies open** at the start of zeroed room that its static part fits into. -/
theorem start (hg : g.LaidOut) {room : Nat} (hb : buffer = before ++ List.replicate room 0)
    (hle : (layOut before.length g declared).varlen ≤ buffer.length) :
    Open g declared before [] (layOut before.length g declared) buffer := by
  have hroom : g.staticSize declared ≤ room := by
    rw [varlen_layOut, hb, List.length_append, List.length_replicate] at hle
    omega
  refine ⟨Nat.zero_le _, ?_, rfl, List.replicate (declared * entrySize) 0,
    room - g.staticSize declared, ?_, ?_⟩
  · intro p c v _ hv
    cases hv
  · rw [List.length_replicate]
    exact Nat.add_zero _
  · have hzeros : List.replicate room (0 : UInt8) =
        List.replicate chunkHeaderSize 0 ++ List.replicate g.nullMapSize 0
          ++ List.replicate (declared * entrySize) 0 ++ List.replicate g.fixedSize 0
          ++ List.replicate (room - g.staticSize declared) 0 := by
      simp only [List.replicate_append_replicate]
      congr 1
      unfold Columns.staticSize at hroom ⊢
      omega
    rw [hb, hzeros, padRow_nil, nullMap_undefined, Columns.length, slots_undefined, hg.fixedSize_eq]
    unfold openBuffer payloads
    simp only [List.append_assoc]
    rfl

/-- **Closing a full chunk**: with its length filled in it is the chunk of its row. -/
theorem close (hg : g.LaidOut) (h : Open g declared before vs chunk buffer)
    (hl : vs.length = g.length) (hw : chunk.written = chunk.declared) :
    chunk.varlen = chunk.start + (g.encode vs).length ∧
    ∃ room, overwrite buffer chunk.start
        (LittleEndian.encode chunkHeaderSize (chunk.varlen - chunk.start)) =
          before ++ g.encode vs ++ List.replicate room 0 ∧
      buffer.length = chunk.varlen + room := by
  obtain ⟨unused, room, hu, hb⟩ := h.buffer_eq
  have hroom := h.room_eq hg hu hb
  have hcount : (payloads vs).length = declared := by
    rw [h.chunk_eq] at hw
    exact hw
  have hnil : unused = [] := List.eq_nil_of_length_eq_zero (by rw [hcount] at hu; omega)
  have hstart : chunk.start = before.length := by
    rw [h.chunk_eq]
    rfl
  have hlen : chunk.varlen = chunk.start + (g.encode vs).length := by
    rw [Columns.length_encode hg h.admits.stores hl, hstart, h.chunk_eq, varlen_after, ← hcount]
    rfl
  refine ⟨hlen, room, ?_, hroom⟩
  have hnew : (LittleEndian.encode chunkHeaderSize (chunk.varlen - chunk.start)).length =
      (List.replicate chunkHeaderSize (0 : UInt8)).length := by
    rw [LittleEndian.length_encode, List.length_replicate]
  have hover := overwrite_append before (g.body vs ++ List.replicate room 0) _ hstart hnew
  have hbuf : buffer =
      before ++ List.replicate chunkHeaderSize 0 ++ (g.body vs ++ List.replicate room 0) := by
    rw [hb, padRow_full hl, hnil, ← hcount]
    unfold openBuffer Columns.body Columns.starts
    simp only [List.append_assoc, List.append_nil]
  have hhead : g.encode vs =
      LittleEndian.encode chunkHeaderSize (chunk.varlen - chunk.start) ++ g.body vs := by
    rw [hlen, Nat.add_sub_cancel_left]
    unfold Columns.encode
    rw [List.length_append, LittleEndian.length_encode]
  rw [hbuf, hover, hhead]
  simp only [List.append_assoc]

end Open

end

end Chunk

end RowCodec
