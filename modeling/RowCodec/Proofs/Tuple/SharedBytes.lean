import RowCodec.Proofs.Tuple.ChunkBytes

/-!
# Two chunks in one list of bytes

A `View` finds both chunks in the tuple's one list of bytes, by positions that count from its first byte.
A `ChunkBytes` has its own bytes only. Here the first way of reading is led back to the second.

* `View.keyChunk`, `View.valueChunk` -- the chunks, cut out of the tuple's bytes.
* `View.Shows` -- the tuple's bytes have a chunk from a position on. Inside the chunk, reading the one is
  reading the other (`slice_eq`, `byteAt_eq`).
* `Shows.isDefined_eq`, `rank_eq`, `entry_eq`, `fixedBytes_eq`, `varlenBytes_eq` -- **what a view reads at a
  sound chunk's positions is read of that chunk alone**, wherever in the tuple it starts and whatever else
  the tuple holds.
* `View.ofChunks` -- the tuple that has two given chunks one behind the other, and shows both.
-/

namespace RowCodec

namespace ChunkBytes

/-- The chunk's positions in a tuple, if it starts there at the given one. -/
def viewAt (c : ChunkBytes) (start : Nat) : ChunkView where
  start := start
  length := c.bytes.length
  table := start + table c.columns
  fixed := start + c.fixed
  entries := c.entries

variable (c : ChunkBytes) (start : Nat)

@[simp] theorem start_viewAt : (c.viewAt start).start = start := rfl

@[simp] theorem length_viewAt : (c.viewAt start).length = c.bytes.length := rfl

@[simp] theorem table_viewAt : (c.viewAt start).table = start + table c.columns := rfl

@[simp] theorem fixed_viewAt : (c.viewAt start).fixed = start + c.fixed := rfl

end ChunkBytes

namespace View

/-- The bytes that a chunk's positions enclose, as a chunk of the given columns. -/
def cutOut (t : View) (chunk : ChunkView) (columns : Columns) : ChunkBytes :=
  ⟨columns, segment t.bytes chunk.start (chunk.start + chunk.length), chunk.entries⟩

def keyChunk (t : View) : ChunkBytes := t.cutOut t.keyView t.schema.key

def valueChunk (t : View) : ChunkBytes := t.cutOut t.valueView t.schema.value

@[simp] theorem columns_keyChunk (t : View) : t.keyChunk.columns = t.schema.key := rfl

@[simp] theorem columns_valueChunk (t : View) : t.valueChunk.columns = t.schema.value := rfl

/-- **The tuple's bytes have the chunk** from a position on. -/
structure Shows (t : View) (start : Nat) (c : ChunkBytes) : Prop where
  stop_le : start + c.bytes.length ≤ t.bytes.length
  bytes_eq : segment t.bytes start (start + c.bytes.length) = c.bytes

namespace Shows

variable {t : View} {c : ChunkBytes} {start p k : Nat} {column : Column}

/-! ## 1. Ranges and bytes -/

/-- A position in the chunk is one in the tuple, counted from where the chunk starts. -/
theorem segment_eq (h : t.Shows start c) (a : Nat) {b : Nat} (hb : b ≤ c.bytes.length) :
    segment t.bytes (start + a) (start + b) = segment c.bytes a b := by
  rw [← segment_segment (Nat.add_le_add_left hb start), h.bytes_eq]

theorem slice_eq {ε : Type} (h : t.Shows start c) {a b : Nat} (hab : a ≤ b)
    (hb : b ≤ c.bytes.length) :
    slice (ε := ε) t.bytes (start + a) (start + b) = slice c.bytes a b := by
  have hstop := h.stop_le
  rw [slice_eq_segment (Nat.add_le_add_left hab start) (by omega), h.segment_eq a hb,
    slice_eq_segment hab hb]

/-- What is cut out at the chunk's positions is the chunk. -/
theorem cutOut_eq (h : t.Shows start c) : t.cutOut (c.viewAt start) c.columns = c := by
  obtain ⟨columns, bytes, entries⟩ := c
  exact congrArg (ChunkBytes.mk columns · entries) h.bytes_eq

theorem byteAt_eq {ε : Type} (h : t.Shows start c) {i : Nat} (hi : i < c.bytes.length) :
    byteAt (ε := ε) t.bytes (start + i) = byteAt c.bytes i := by
  have hbyte : c.bytes[i]? = t.bytes[start + i]? := by
    conv => lhs; rw [← h.bytes_eq]
    rw [getElem?_segment, if_pos (by omega)]
  unfold byteAt
  rw [hbyte]

/-! ## 2. Ways of looking into a chunk -/

/-- The null map's bits, also those behind the last column. -/
theorem isDefined_eq (h : t.Shows start c) (hc : c.Sound) (hp : p / 8 < c.columns.nullMapSize) :
    t.isDefined (c.viewAt start) p = c.isDefined p := by
  have hbyte := h.byteAt_eq (ε := TupleError) (hc.mark_lt hp)
  rw [← Nat.add_assoc] at hbyte
  unfold isDefined ChunkBytes.isDefined
  rw [← hbyte]
  rfl

theorem rank_eq (h : t.Shows start c) (hc : c.Sound) : ∀ {positions : List Nat},
    (∀ p ∈ positions, p < c.columns.length) →
      t.rank (c.viewAt start) positions = c.rank positions
  | [], _ => rfl
  | p :: rest, hp => by
      have ih := h.rank_eq hc fun q hq => hp q (List.mem_cons_of_mem p hq)
      unfold rank ChunkBytes.rank
      rw [h.isDefined_eq hc (Columns.div_lt_nullMapSize (hp p List.mem_cons_self)), ih]

/-- The table ends before the chunk's data, so no entry is read past the chunk. -/
theorem entry_eq (h : t.Shows start c) (hc : c.Sound) (hk : k < c.entries) :
    t.entry (c.viewAt start) k = c.entry k := by
  have hslice := h.slice_eq (ε := TupleError) (Nat.le_add_right _ _) (hc.entry_le hk)
  have hoffset : (c.viewAt start).table + k * entrySize =
      start + (ChunkBytes.table c.columns + k * entrySize) := Nat.add_assoc _ _ _
  unfold entry ChunkBytes.entry
  dsimp only
  rw [hoffset, Nat.add_assoc start, hslice]

theorem fixedBytes_eq (h : t.Shows start c) (hc : c.Sound)
    (hcolumn : c.columns.columns[p]? = some column) (hf : column.isFixedSize = true) :
    t.fixedBytes (c.viewAt start) c.columns p column = c.fixedBytes p column := by
  have hslice := h.slice_eq (ε := TupleError) (Nat.le_add_right _ _) (hc.field_le hcolumn)
  have hoffset : (c.viewAt start).fixed + Columns.widths (c.columns.columns.take p) =
      start + (c.fixed + Columns.widths (c.columns.columns.take p)) := Nat.add_assoc _ _ _
  unfold fixedBytes ChunkBytes.fixedBytes
  rw [hc.laidOut.fixedOffset_eq hcolumn hf, Outcome.ok_bind, Outcome.ok_bind]
  dsimp only
  rw [hoffset, Nat.add_assoc start, hslice]

theorem varlenRange_eq (h : t.Shows start c) (hc : c.Sound)
    (hcolumn : c.columns.columns[p]? = some column) (hf : column.isFixedSize = false)
    (hm : c.marked p = true) :
    t.varlenRange (c.viewAt start) c.columns p = c.varlenRange p := by
  have hp : p < c.columns.length := (List.getElem?_eq_some_iff.mp hcolumn).1
  have hbefore : ∀ q ∈ c.columns.varlenBefore p, q < c.columns.length := fun q hq =>
    Nat.lt_trans (Columns.lt_of_mem_varlenBefore hq) hp
  have hslot := hc.slot_lt hcolumn hf hm
  have hrank : c.rank (c.columns.varlenBefore p) = .ok (c.slot p) := hc.rank_eq hbefore
  unfold varlenRange ChunkBytes.varlenRange
  rw [h.rank_eq hc hbefore, hrank, Outcome.ok_bind, Outcome.ok_bind, h.entry_eq hc hslot,
    hc.entry_eq hslot, Outcome.ok_bind, Outcome.ok_bind]
  by_cases hnext : c.slot p + 1 < c.entries
  · have hview : c.slot p + 1 < (c.viewAt start).entries := hnext
    rw [if_pos hview, if_pos hnext, h.entry_eq hc hnext]
  · have hview : ¬ c.slot p + 1 < (c.viewAt start).entries := hnext
    rw [if_neg hview, if_neg hnext]
    rfl

/-- **A text or byte string is read of its own chunk**: the range is checked against the chunk's end, not
    against the tuple's. -/
theorem varlenBytes_eq (h : t.Shows start c) (hc : c.Sound)
    (hcolumn : c.columns.columns[p]? = some column) (hf : column.isFixedSize = false)
    (hm : c.marked p = true) (index : Nat) :
    t.varlenBytes (c.viewAt start) c.columns p index = c.varlenBytes p index := by
  have hfixed : checkedSub (ε := TupleError) (start + c.fixed) start = .ok c.fixed := by
    rw [checkedSub, if_pos (Nat.le_add_right _ _), Nat.add_sub_cancel_left]
  unfold varlenBytes ChunkBytes.varlenBytes
  rw [h.varlenRange_eq hc hcolumn hf hm, hc.varlenRange_eq hcolumn hf hm, Outcome.ok_bind,
    Outcome.ok_bind, ChunkBytes.fixed_viewAt, ChunkBytes.start_viewAt, hfixed]
  refine ite_congr rfl (fun _ => rfl) fun hinside => ?_
  replace hinside : ¬ (c.bound (c.slot p) < c.data ∨ c.bound (c.slot p + 1) < c.bound (c.slot p) ∨
    c.bytes.length < c.bound (c.slot p + 1)) := hinside
  exact h.slice_eq (by omega) (by omega)

end Shows

/-! ## 3. One chunk behind the other -/

/-- A fingerprint, a key chunk and a value chunk, with nothing between and behind them. -/
def ofChunks (s : Schema) (key value : ChunkBytes) : View where
  schema := s
  bytes := s.fingerprint.toBytes ++ key.bytes ++ value.bytes
  keyView := key.viewAt Fingerprint.size
  valueView := value.viewAt (Fingerprint.size + key.bytes.length)

section OfChunks

variable (s : Schema) (key value : ChunkBytes)

/-- The key chunk stands behind the fingerprint. -/
theorem shows_key_ofChunks : (ofChunks s key value).Shows Fingerprint.size key := by
  have hprint := s.fingerprint.length_toBytes
  unfold ofChunks
  constructor
  · rw [List.length_append, List.length_append, hprint]
    exact Nat.le_add_right _ _
  · exact segment_eq_part rfl hprint rfl

/-- The value chunk stands behind the key chunk, however long that is. -/
theorem shows_value_ofChunks :
    (ofChunks s key value).Shows (Fingerprint.size + key.bytes.length) value := by
  have hfront : (s.fingerprint.toBytes ++ key.bytes).length =
      Fingerprint.size + key.bytes.length := by
    rw [List.length_append, s.fingerprint.length_toBytes]
  unfold ofChunks
  constructor
  · rw [List.length_append, hfront]
  · exact segment_eq_part (List.append_nil _).symm hfront rfl

variable {s key value}

theorem keyChunk_ofChunks (h : key.columns = s.key) : (ofChunks s key value).keyChunk = key := by
  have hcut := (shows_key_ofChunks s key value).cutOut_eq
  rwa [h] at hcut

theorem valueChunk_ofChunks (h : value.columns = s.value) :
    (ofChunks s key value).valueChunk = value := by
  have hcut := (shows_value_ofChunks s key value).cutOut_eq
  rwa [h] at hcut

end OfChunks

end View

end RowCodec
