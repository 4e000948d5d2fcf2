import RowCodec.Proofs.Tuple.Accepted
import RowCodec.Proofs.Tuple.Encoding

/-!
# Reading a chunk back

What a `ChunkBytes` answers when its bytes are `Columns.encode` of a row. The reader knows the row only
through the bytes: the number of table entries and the slot of a column are counts of null map bits,
and the end of a text is the start of the next one.

* `marked_view` -- the null map answers for every column.
* `countP_varlen` -- counting the non-null columns of variable length up to a position counts the
  texts and byte strings of the row up to there.
* `sound_view` -- the chunk is sound; so wherever it stands in a list of bytes, `ChunkView.read` finds its
  positions (`read_encode`).
* `bounds_view`, `varlenBytes_view` -- the table leads from the slot to the bytes of the column.
* `field_view` -- the slot of a fixed-size column.
-/

namespace RowCodec

/-- Whether a row has a value other than the null at a position. -/
def isDefinedAt (row : List Value) (p : Nat) : Bool := row[p]?.any fun v => !v.isUndefined

/-- The chunk of a row, as a reader has it. -/
def Columns.view (g : Columns) (row : List Value) : ChunkBytes :=
  ⟨g, g.encode row, (payloads row).length⟩

namespace Columns

variable {g : Columns} {row : List Value} {p : Nat} {c : Column} {v : Value}

@[simp] theorem columns_view (g : Columns) (row : List Value) : (g.view row).columns = g := rfl

@[simp] theorem bytes_view (g : Columns) (row : List Value) :
    (g.view row).bytes = g.encode row := rfl

@[simp] theorem entries_view (g : Columns) (row : List Value) :
    (g.view row).entries = (payloads row).length := rfl

@[simp] theorem data_view (g : Columns) (row : List Value) :
    (g.view row).data = g.staticSize (payloads row).length := rfl

/-! ## 1. The null map -/

/-- The word that a chunk begins with is its length. -/
theorem encode_header (g : Columns) (row : List Value) : g.encode row =
    LittleEndian.encode chunkHeaderSize (g.encode row).length ++ g.body row := by
  have hlen : (g.encode row).length = chunkHeaderSize + (g.body row).length := by
    unfold encode
    rw [List.length_append, LittleEndian.length_encode]
  rw [hlen]
  rfl

/-- The five parts of a chunk. -/
theorem encode_eq (g : Columns) (row : List Value) : g.encode row =
    LittleEndian.encode chunkHeaderSize (g.encode row).length ++ nullMap row
      ++ tableBytes (g.starts row) ++ slots g.columns row ++ (payloads row).flatten := by
  have hparts := encode_header g row
  unfold body at hparts
  simp only [List.append_assoc] at hparts ⊢
  exact hparts

/-- **What the null map says**: the bit of every value but the nulls, and none behind the row. -/
theorem hasBit_nullMap {b : UInt8} (hb : (nullMap row)[p / 8]? = some b) :
    hasBit b p = isDefinedAt row p := by
  have hbit : hasBit b p = (row.map fun v => !v.isUndefined)[p]?.getD false := hasBit_packBits hb
  rw [hbit, List.getElem?_map]
  unfold isDefinedAt
  cases row[p]? <;> rfl

/-- The null map's bits, also behind its last byte. -/
theorem bitAt_nullMap (row : List Value) (p : Nat) : bitAt (nullMap row) p = isDefinedAt row p := by
  unfold bitAt
  cases hb : (nullMap row)[p / 8]? with
  | some b => exact hasBit_nullMap hb
  | none =>
      have hlen := List.getElem?_eq_none_iff.mp hb
      rw [length_nullMap] at hlen
      unfold isDefinedAt
      rw [List.getElem?_eq_none (by omega)]
      rfl

/-- The word is read at the chunk's start. -/
theorem header_view (g : Columns) (row : List Value) : segment (g.encode row) 0 chunkHeaderSize =
    LittleEndian.encode chunkHeaderSize (g.encode row).length := by
  have hparts : g.encode row =
      [] ++ LittleEndian.encode chunkHeaderSize (g.encode row).length ++ g.body row := encode_header g row
  refine segment_eq_part hparts rfl ?_
  rw [LittleEndian.length_encode, Nat.zero_add]

/-- The null map behind that word. -/
theorem marks_view (hl : row.length = g.length) : (g.view row).marks = nullMap row := by
  have hparts : g.encode row = LittleEndian.encode chunkHeaderSize (g.encode row).length ++ nullMap row
      ++ (tableBytes (g.starts row) ++ slots g.columns row ++ (payloads row).flatten) := by
    conv => lhs; rw [encode_eq]
    simp only [List.append_assoc]
  refine segment_eq_part hparts (LittleEndian.length_encode _ _) ?_
  rw [length_nullMap, hl]
  rfl

/-- The null map answers for every column. -/
theorem marked_view (hl : row.length = g.length) : (g.view row).marked = isDefinedAt row := by
  funext p
  unfold ChunkBytes.marked
  rw [marks_view hl, bitAt_nullMap]

/-! ## 2. Counting texts and byte strings -/

/-- The first columns hold no text and no byte string. -/
theorem payloads_take_fixedCount (hg : g.LaidOut) (hs : Suits g.columns row)
    (hl : row.length = g.length) : payloads (row.take g.fixedCount) = [] := by
  apply List.filterMap_eq_nil_iff.mpr
  intro v hv
  obtain ⟨p, hp⟩ := List.mem_iff_getElem?.mp hv
  rw [List.getElem?_take] at hp
  split at hp
  · rename_i hlt
    have hlen : p < g.columns.length := by
      have := (List.getElem?_eq_some_iff.mp hp).1
      rw [hl] at this
      exact this
    have hc := List.getElem?_eq_getElem hlen
    have hf := (hg.isFixedSize_iff hc).mpr hlt
    cases hb : v.payload? with
    | none => rfl
    | some bytes =>
        rw [Column.isFixedSize_of_payload (hs p _ v hc hp) hb] at hf
        cases hf
  · cases hp

/-- **Counting null map bits counts texts and byte strings**: behind the fixed-size columns the two
    are the same. -/
theorem countP_varlen (hg : g.LaidOut) (hs : Suits g.columns row) (hl : row.length = g.length) :
    ∀ n : Nat, g.fixedCount + n ≤ g.length →
      (List.range' g.fixedCount n).countP (isDefinedAt row) =
        (payloads (row.take (g.fixedCount + n))).length
  | 0, _ => by rw [Nat.add_zero, payloads_take_fixedCount hg hs hl]; rfl
  | n + 1, h => by
      have ih := countP_varlen hg hs hl n (by omega)
      have hrow : g.fixedCount + n < row.length := by omega
      have hcol : g.fixedCount + n < g.columns.length := h
      have hv := List.getElem?_eq_getElem hrow
      have hc := List.getElem?_eq_getElem hcol
      have hf : (g.columns[g.fixedCount + n]).isFixedSize = false := by
        cases hfix : (g.columns[g.fixedCount + n]).isFixedSize with
        | false => rfl
        | true =>
            have := (hg.isFixedSize_iff hc).mp hfix
            omega
      have hsome := Column.isSome_payload (hs _ _ _ hc hv) hf
      rw [List.range'_1_concat, List.countP_append, ih, List.countP_singleton, ← Nat.add_assoc,
        List.take_add_one, hv, payloads_append, List.length_append]
      congr 1
      unfold isDefinedAt payloads
      rw [hv]
      simp only [Option.any_some, Option.toList_some, ← hsome]
      cases hb : (row[g.fixedCount + n]).payload? with
      | none => rw [List.filterMap_cons_none hb]; rfl
      | some bytes => rw [List.filterMap_cons_some hb]; rfl

/-- The slot of a text or byte string is the number of the ones before it. -/
theorem slot_view (hg : g.LaidOut) (hs : Suits g.columns row) (hl : row.length = g.length)
    (hfixed : g.fixedCount ≤ p) (hlt : p ≤ g.length) :
    (g.view row).slot p = (payloads (row.take p)).length := by
  unfold ChunkBytes.slot
  rw [columns_view, marked_view hl, varlenBefore_eq hg hfixed hlt, countP_varlen hg hs hl _ (by omega),
    Nat.add_sub_cancel' hfixed]

/-! ## 3. The chunk -/

/-- A chunk ends with its last text or byte string. -/
theorem length_encode_eq (hg : g.LaidOut) (hs : Stores g.columns row) (hl : row.length = g.length) :
    (g.encode row).length = g.staticSize (payloads row).length + (payloads row).flatten.length :=
  length_encode hg hs hl

/-- A chunk's length is no more than a 32-bit word. -/
theorem Fits.length_lt (hf : g.Fits row) : (g.encode row).length < 256 ^ chunkHeaderSize := by
  have hmax := hf.bounded
  unfold maxChunkOffset at hmax
  unfold chunkHeaderSize
  omega

/-- **The chunk of a row is sound.** Its table entries are found by counting null map bits. -/
theorem sound_view (hg : g.LaidOut) (hf : g.Fits row) : (g.view row).Sound where
  laidOut := hg
  header := by
    rw [bytes_view, header_view, LittleEndian.decode_encode_of_lt hf.length_lt]
  entries_eq := by
    rw [entries_view, columns_view, slot_view hg hf.admits.stores.suits hf.length_eq hg.fixedCount_le
      (Nat.le_refl _), List.take_of_length_le (Nat.le_of_eq hf.length_eq)]
  data_le := by
    rw [data_view, bytes_view, length_encode_eq hg hf.admits.stores hf.length_eq]
    exact Nat.le_add_right _ _

/-- **A chunk is found again** wherever it stands. -/
theorem read_encode (hg : g.LaidOut) (hf : g.Fits row) (before after : List UInt8) :
    ChunkView.read (before ++ g.encode row ++ after) before.length g =
      .ok ((g.view row).viewAt before.length) := (sound_view hg hf).read_eq before after

/-! ## 4. The table -/

theorem getElem?_startsFrom : ∀ (parts : List (List UInt8)) (start k : Nat), k < parts.length →
    (startsFrom start parts)[k]? = some (start + (parts.take k).flatten.length)
  | [], _, _, h => absurd h (Nat.not_lt_zero _)
  | _ :: _, _, 0, _ => rfl
  | bytes :: rest, start, k + 1, h => by
      have ih := getElem?_startsFrom rest (start + bytes.length) k (Nat.lt_of_succ_lt_succ h)
      rw [startsFrom, List.getElem?_cons_succ, ih, List.take_succ_cons, List.flatten_cons,
        List.length_append, Nat.add_assoc]

/-- Where the text or byte string of a slot starts: behind the static part and the ones before it. -/
theorem getElem?_starts {k : Nat} (h : k < (payloads row).length) : (g.starts row)[k]? =
    some (g.staticSize (payloads row).length + ((payloads row).take k).flatten.length) :=
  getElem?_startsFrom _ _ k h

theorem length_starts : (g.starts row).length = (payloads row).length :=
  length_startsFrom _ _

/-- No text or byte string starts past the chunk's end. -/
theorem starts_le (hg : g.LaidOut) (hs : Stores g.columns row) (hl : row.length = g.length)
    {k start : Nat} (hk : (g.starts row)[k]? = some start) : start ≤ (g.encode row).length := by
  have hlt : k < (payloads row).length := by
    have := (List.getElem?_eq_some_iff.mp hk).1
    rwa [length_starts] at this
  rw [getElem?_starts hlt] at hk
  cases hk
  have hsplit := congrArg (fun parts => parts.flatten.length) (List.take_append_drop k (payloads row))
  simp only [List.flatten_append, List.length_append] at hsplit
  rw [length_encode_eq hg hs hl]
  omega

/-- A table entry is no more than a 32-bit word. -/
theorem Fits.start_lt (hg : g.LaidOut) (hf : g.Fits row) {k start : Nat}
    (hk : (g.starts row)[k]? = some start) : start < 256 ^ entrySize :=
  Nat.lt_of_le_of_lt (starts_le hg hf.admits.stores hf.length_eq hk) hf.length_lt

/-- The bytes of a table entry. -/
theorem segment_entry (hl : row.length = g.length) {k start : Nat}
    (hk : (g.starts row)[k]? = some start) :
    segment (g.encode row) (ChunkBytes.table g + k * entrySize)
      (ChunkBytes.table g + k * entrySize + entrySize) = LittleEndian.encode entrySize start := by
  have hlt := (List.getElem?_eq_some_iff.mp hk).1
  have htable : tableBytes (g.starts row) = tableBytes ((g.starts row).take k)
      ++ LittleEndian.encode entrySize start ++ tableBytes ((g.starts row).drop (k + 1)) := by
    conv => lhs; rw [eq_take_cons_drop hk, tableBytes_append]
    rw [List.append_assoc]
    rfl
  have hfront : (LittleEndian.encode chunkHeaderSize (g.encode row).length ++ nullMap row
      ++ tableBytes ((g.starts row).take k)).length = ChunkBytes.table g + k * entrySize := by
    simp only [List.length_append, LittleEndian.length_encode, length_nullMap, length_tableBytes,
      List.length_take, hl]
    rw [Nat.min_eq_left (Nat.le_of_lt hlt)]
    rfl
  have hparts : g.encode row = LittleEndian.encode chunkHeaderSize (g.encode row).length ++ nullMap row
      ++ tableBytes ((g.starts row).take k) ++ LittleEndian.encode entrySize start
      ++ (tableBytes ((g.starts row).drop (k + 1)) ++ slots g.columns row ++ (payloads row).flatten) := by
    conv => lhs; rw [encode_eq, htable]
    simp only [List.append_assoc]
  exact segment_eq_part hparts hfront (by rw [LittleEndian.length_encode])

/-- **A table entry** is where its text or byte string starts. -/
theorem bound_view (hg : g.LaidOut) (hf : g.Fits row) {k start : Nat}
    (hk : (g.starts row)[k]? = some start) : (g.view row).bound k = start := by
  have hlt : k < (g.view row).entries := by
    have hlt := (List.getElem?_eq_some_iff.mp hk).1
    rwa [length_starts] at hlt
  unfold ChunkBytes.bound
  rw [if_pos hlt, columns_view, bytes_view, segment_entry hf.length_eq hk,
    LittleEndian.decode_encode_of_lt (hf.start_lt hg hk)]

/-- The texts and byte strings around the one of a column. -/
theorem payloads_at {bytes : List UInt8} (hv : row[p]? = some v) (hp : v.payload? = some bytes) :
    payloads row = payloads (row.take p) ++ bytes :: payloads (row.drop (p + 1)) := by
  conv => lhs; rw [eq_take_cons_drop hv, payloads_append]
  congr 1
  exact List.filterMap_cons_some hp

theorem fixedCount_le_of_payload (hg : g.LaidOut) (hs : Suits g.columns row) {bytes : List UInt8}
    (hc : g.columns[p]? = some c) (hv : row[p]? = some v) (hp : v.payload? = some bytes) :
    g.fixedCount ≤ p :=
  hg.fixedCount_le_of_varlen hc (Column.isFixedSize_of_payload (hs p c v hc hv) hp)

/-- **Where a text or byte string lies**: it starts behind the ones before it, and it ends where the next
    one starts, or the chunk. -/
theorem bounds_view (hg : g.LaidOut) (hf : g.Fits row) {bytes : List UInt8}
    (hc : g.columns[p]? = some c) (hv : row[p]? = some v) (hp : v.payload? = some bytes) :
    (g.view row).bound ((g.view row).slot p) =
        g.staticSize (payloads row).length + (payloads (row.take p)).flatten.length ∧
      (g.view row).bound ((g.view row).slot p + 1) =
        g.staticSize (payloads row).length + (payloads (row.take p)).flatten.length
          + bytes.length := by
  have hs := hf.admits.stores
  have hsplit := payloads_at hv hp
  have hlt : p < g.length := (List.getElem?_eq_some_iff.mp hc).1
  rw [slot_view hg hs.suits hf.length_eq (fixedCount_le_of_payload hg hs.suits hc hv hp)
    (Nat.le_of_lt hlt)]
  constructor
  · refine bound_view hg hf ?_
    rw [getElem?_starts (by rw [hsplit, List.length_append, List.length_cons]; omega), hsplit,
      List.take_left]
  · by_cases hnext : (payloads (row.take p)).length + 1 < (payloads row).length
    · have htake : (payloads row).take ((payloads (row.take p)).length + 1) =
          payloads (row.take p) ++ [bytes] := by
        conv => lhs; rw [hsplit]
        exact List.take_length_add_append 1
      refine bound_view hg hf ?_
      rw [getElem?_starts hnext, htake, List.flatten_append, List.length_append,
        List.flatten_singleton, Nat.add_assoc]
    · -- The last text or byte string: nothing stands behind it.
      have hlast : payloads (row.drop (p + 1)) = [] := by
        rw [hsplit, List.length_append, List.length_cons] at hnext
        exact List.eq_nil_of_length_eq_zero (by omega)
      refine (if_neg hnext).trans ?_
      rw [bytes_view, length_encode_eq hg hs hf.length_eq]
      conv => lhs; rhs; rw [hsplit, hlast]
      rw [List.flatten_append, List.length_append, List.flatten_singleton, Nat.add_assoc]

/-- The bytes from where a text or byte string starts. -/
theorem segment_payload (hg : g.LaidOut) (hf : g.Fits row) {k : Nat} {bytes : List UInt8}
    (hk : (payloads row)[k]? = some bytes) :
    segment (g.encode row)
      (g.staticSize (payloads row).length + ((payloads row).take k).flatten.length)
      (g.staticSize (payloads row).length + ((payloads row).take k).flatten.length + bytes.length) =
        bytes := by
  have hbytes : (payloads row).flatten =
      ((payloads row).take k).flatten ++ bytes ++ ((payloads row).drop (k + 1)).flatten := by
    conv => lhs; rw [eq_take_cons_drop hk]
    rw [List.flatten_append, List.flatten_cons, List.append_assoc]
  have hfront : (LittleEndian.encode chunkHeaderSize (g.encode row).length ++ nullMap row
      ++ tableBytes (g.starts row) ++ slots g.columns row ++ ((payloads row).take k).flatten).length =
        g.staticSize (payloads row).length + ((payloads row).take k).flatten.length := by
    simp only [List.length_append, LittleEndian.length_encode, length_nullMap, length_tableBytes,
      length_starts, length_slots hf.admits.stores hf.length_eq, hf.length_eq]
    unfold staticSize nullMapSize
    rw [hg.fixedSize_eq]
  have hparts : g.encode row = LittleEndian.encode chunkHeaderSize (g.encode row).length ++ nullMap row
      ++ tableBytes (g.starts row) ++ slots g.columns row ++ ((payloads row).take k).flatten ++ bytes
      ++ ((payloads row).drop (k + 1)).flatten := by
    conv => lhs; rw [encode_eq, hbytes]
    simp only [List.append_assoc]
  exact segment_eq_part hparts hfront rfl

/-- **The bytes of a text or byte string.** -/
theorem varlenBytes_view (hg : g.LaidOut) (hf : g.Fits row) {bytes : List UInt8} (index : Nat)
    (hc : g.columns[p]? = some c) (hv : row[p]? = some v) (hp : v.payload? = some bytes) :
    (g.view row).varlenBytes p index = .ok bytes := by
  have hsplit := payloads_at hv hp
  have hvarlen := Column.isFixedSize_of_payload (hf.admits.stores.suits p c v hc hv) hp
  have hmarked : (g.view row).marked p = true := by
    rw [marked_view hf.length_eq]
    unfold isDefinedAt
    rw [hv, Option.any_some, Value.isUndefined_of_payload hp]
    rfl
  obtain ⟨hstart, hstop⟩ := bounds_view hg hf hc hv hp
  have hend : g.staticSize (payloads row).length + (payloads (row.take p)).flatten.length
      + bytes.length ≤ (g.encode row).length := by
    rw [length_encode_eq hg hf.admits.stores hf.length_eq]
    conv => rhs; rhs; rw [hsplit]
    rw [List.flatten_append, List.flatten_cons, List.length_append, List.length_append]
    omega
  have htake : (payloads row).take (payloads (row.take p)).length = payloads (row.take p) := by
    conv => lhs; rw [hsplit]
    exact List.take_left
  have hk : (payloads row)[(payloads (row.take p)).length]? = some bytes := by
    conv => lhs; rw [hsplit]
    rw [List.getElem?_append_right (Nat.le_refl _), Nat.sub_self]
    rfl
  have hbytes := segment_payload hg hf hk
  rw [htake] at hbytes
  rw [(sound_view hg hf).varlenBytes_eq hc hvarlen hmarked]
  unfold ChunkBytes.text
  rw [hstart, hstop, data_view, bytes_view, if_neg (by omega), hbytes]

/-! ## 5. The fixed section -/

/-- **The slot of a fixed-size column.** -/
theorem field_view (hf : g.Fits row) (hc : g.columns[p]? = some c) (hv : row[p]? = some v) :
    (g.view row).field p c = c.slot v := by
  have hs := hf.admits.stores
  have hfront : (LittleEndian.encode chunkHeaderSize (g.encode row).length ++ nullMap row
      ++ tableBytes (g.starts row) ++ slots (g.columns.take p) (row.take p)).length =
        (g.view row).fixed + widths (g.columns.take p) := by
    simp only [List.length_append, LittleEndian.length_encode, length_nullMap, length_tableBytes,
      length_starts, length_slots_take hs hf.length_eq p, hf.length_eq]
    rfl
  have hparts : g.encode row = LittleEndian.encode chunkHeaderSize (g.encode row).length ++ nullMap row
      ++ tableBytes (g.starts row) ++ slots (g.columns.take p) (row.take p) ++ c.slot v
      ++ (slots (g.columns.drop (p + 1)) (row.drop (p + 1)) ++ (payloads row).flatten) := by
    conv => lhs; rw [encode_eq, slots_at hc hv]
    simp only [List.append_assoc]
  unfold ChunkBytes.field
  rw [columns_view, bytes_view]
  exact segment_eq_part hparts hfront (by rw [Column.length_slot (hs p c v hc hv)])

end Columns

end RowCodec
