import RowCodec.Proofs.Tuple.ChunkReading
import RowCodec.Proofs.Tuple.Getters

/-!
# Reading a row back

What a `View` answers when its bytes are `Schema.encode` of a row that the schema takes.

* `new_encode` -- the bytes are accepted.
* `View.At` -- the chunk, the position and the column that an index leads to, and the value there.
* `At.fixedBytes?`, `At.varlenBytes?` -- the bytes of a column, none for a null.
* `At.valueAs` -- **every column gives its value back**, asked for as a column of its kind;
  `At.value_eq` and `At.isNull` say so for an index.
-/

namespace RowCodec

/-! ## 1. The view of a row -/

/-- The view of a row's tuple. -/
def Schema.view (s : Schema) (row : List Value) : View :=
  View.ofChunks s (s.key.view (row.take s.key.length)) (s.value.view (row.drop s.key.length))

theorem Schema.keyChunk_view (s : Schema) (row : List Value) :
    (s.view row).keyChunk = s.key.view (row.take s.key.length) := View.keyChunk_ofChunks rfl

theorem Schema.valueChunk_view (s : Schema) (row : List Value) :
    (s.view row).valueChunk = s.value.view (row.drop s.key.length) := View.valueChunk_ofChunks rfl

/-- **The bytes of a row are accepted.** -/
theorem Schema.new_encode {s : Schema} {row : List Value} (hs : s.Sound) (hf : s.Fits row) :
    View.new s (s.encode row) = .ok (s.view row) := by
  have hnew := View.new_append s (s.key.view (row.take s.key.length))
    (s.value.view (row.drop s.key.length)) (Columns.read_encode hs.key hf.key)
    (Columns.read_encode hs.value hf.value) []
  rwa [List.append_nil] at hnew

namespace View

/-- **Where an index leads to**: the chunk of a row's part, the position of a column in it, and the
    value there. -/
structure At (t : View) (index : Nat) (g : Columns) (row : List Value) (p : Nat) (c : Column)
    (v : Value) : Prop where
  leads : t.Leads index (g.view row) p c
  fits : g.Fits row
  value : row[p]? = some v

theorem at_view {s : Schema} {row : List Value} (hs : s.Sound) (hf : s.Fits row) {index : Nat}
    {v : Value} (hv : row[index]? = some v) :
    ∃ g part p c, (s.view row).At index g part p c v ∧ s.column? index = some c := by
  have hlt := (List.getElem?_eq_some_iff.mp hv).1
  have hview := (sound_of_new hs (Schema.new_encode hs hf)).1
  rw [hf.length_eq] at hlt
  obtain ⟨c, hc⟩ := Schema.exists_column hlt
  rcases Schema.column?_cases hc with ⟨hi, hd⟩ | ⟨p, rfl, hd⟩
  · refine ⟨s.key, row.take s.key.length, index, c, ⟨?_, hf.key, ?_⟩, hc⟩
    · rw [← Schema.keyChunk_view]
      exact hview.leads_key hd
    · rw [List.getElem?_take_of_lt hi, hv]
  · refine ⟨s.value, row.drop s.key.length, p, c, ⟨?_, hf.value, ?_⟩, hc⟩
    · rw [← Schema.valueChunk_view]
      exact hview.leads_value hd
    · rw [List.getElem?_drop, hv]

/-! ## 2. The bytes of a column -/

namespace At

variable {t : View} {index : Nat} {g : Columns} {row : List Value} {p : Nat} {c : Column} {v : Value}
  {requested : ColumnType}

theorem laidOut (h : t.At index g row p c v) : g.LaidOut := h.leads.sound.laidOut

theorem column (h : t.At index g row p c v) : g.columns[p]? = some c := h.leads.column

theorem stores (h : t.At index g row p c v) : c.stores v = true :=
  h.fits.admits.stores p c v h.column h.value

/-- The null map has a bit for every value but the nulls. -/
theorem marked_eq (h : t.At index g row p c v) : (g.view row).marked p = !v.isUndefined := by
  rw [Columns.marked_view h.fits.length_eq]
  unfold isDefinedAt
  rw [h.value]
  rfl

theorem isNull (h : t.At index g row p c v) : t.isNull index = .ok v.isUndefined := by
  rw [h.leads.isNull_eq, h.marked_eq, Bool.not_not]

/-- A fixed-size column gives its slot, a null nothing. -/
theorem fixedBytes? (h : t.At index g row p c v) (hk : c.type.sameKind requested = true)
    (hf : c.isFixedSize = true) :
    t.fixedBytes? index requested = .ok (if v.isUndefined then none else some (c.slot v)) := by
  have hsize : c.isFixedSize = requested.isFixedSize := ColumnType.isFixedSize_of_sameKind hk
  rw [h.leads.fixedBytes?_eq hk (hsize.symm.trans hf), h.marked_eq,
    Columns.field_view h.fits h.column h.value]
  cases v.isUndefined <;> rfl

/-- A column of variable length gives its bytes, a null nothing. -/
theorem varlenBytes? (h : t.At index g row p c v) (hk : c.type.sameKind requested = true)
    (hf : c.isFixedSize = false) : t.varlenBytes? index requested = .ok v.payload? := by
  have hsome := Column.isSome_payload (Column.suits_of_stores h.stores) hf
  rw [h.leads.varlenBytes?_eq hk hf, h.marked_eq, ← hsome]
  cases hp : v.payload? with
  | none => rfl
  | some bytes =>
      rw [Columns.varlenBytes_view h.laidOut h.fits index h.column h.value hp]
      rfl

/-! ## 3. The value of a column -/

/-- A null is read as a null, whatever kind is asked for. -/
theorem valueAs_undefined (h : t.At index g row p c .undefined)
    (hk : c.type.sameKind requested = true) : t.valueAs requested index = .ok .undefined := by
  have hsize : c.isFixedSize = requested.isFixedSize := ColumnType.isFixedSize_of_sameKind hk
  cases requested with
  | number kind =>
      have hb : t.fixedBytes? index (.number kind) = .ok none := h.fixedBytes? hk hsize
      simp [View.valueAs, View.number?, hb]
  | uuid =>
      have hb : t.fixedBytes? index .uuid = .ok none := h.fixedBytes? hk hsize
      simp [View.valueAs, View.uuid?, hb]
  | bitmask width =>
      have hb : t.fixedBytes? index (.bitmask 0) = .ok none := by
        refine h.fixedBytes? ?_ hsize
        rcases ColumnType.sameKind_iff.mp hk with ht | ⟨m, n, ht, _⟩
        · rw [ht]
          rfl
        · rw [ht]
          rfl
      simp [View.valueAs, View.bitSet?, hb]
  | utf8 =>
      have hb : t.varlenBytes? index .utf8 = .ok none := h.varlenBytes? hk hsize
      simp [View.valueAs, View.utf8?, hb]
  | blob =>
      have hb : t.varlenBytes? index .blob = .ok none := h.varlenBytes? hk hsize
      simp [View.valueAs, View.blob?, hb]

theorem number? {kind : NumberKind} {word : kind.Word}
    (h : t.At index g row p c (.number kind word)) : t.number? kind index = .ok (some word) := by
  have ht : c.type = .number kind := of_decide_eq_true h.stores
  have hk : c.type.sameKind (.number kind) = true := ColumnType.sameKind_of_eq ht
  have hf : c.isFixedSize = true := ColumnType.isFixedSize_of_sameKind hk
  have hslot : c.slot (.number kind word) = LittleEndian.encode kind.size word.toNat := by
    refine Column.slot_of_full hf ?_
    rw [ht]
    exact LittleEndian.length_encode _ _
  have hlt : word.toNat < 256 ^ kind.size := by
    have h256 : 256 ^ kind.size = 2 ^ (8 * kind.size) := by rw [Nat.pow_mul]
    rw [h256]
    exact word.isLt
  have hb : t.fixedBytes? index (.number kind) =
      .ok (some (LittleEndian.encode kind.size word.toNat)) := by
    rw [h.fixedBytes? hk hf, hslot]
    rfl
  simp [View.number?, hb, exactly, LittleEndian.decode_encode_of_lt hlt]

theorem number {kind : NumberKind} {word : kind.Word}
    (h : t.At index g row p c (.number kind word)) : t.number kind index = .ok word := by
  simp [View.number, h.number?]

theorem valueAs_number {kind : NumberKind} {word : kind.Word}
    (h : t.At index g row p c (.number kind word)) :
    t.valueAs (.number kind) index = .ok (.number kind word) := by
  simp [View.valueAs, h.number?]

theorem valueAs_uuid {id : Uuid} (h : t.At index g row p c (.uuid id)) :
    t.valueAs .uuid index = .ok (.uuid id) := by
  have ht : c.type = .uuid := of_decide_eq_true h.stores
  have hk : c.type.sameKind .uuid = true := ColumnType.sameKind_of_eq ht
  have hf : c.isFixedSize = true := ColumnType.isFixedSize_of_sameKind hk
  have hslot : c.slot (.uuid id) = id.bytes := by
    refine Column.slot_of_full hf ?_
    rw [ht]
    exact id.length_bytes
  have hb : t.fixedBytes? index .uuid = .ok (some id.bytes) := by
    rw [h.fixedBytes? hk hf, hslot]
    rfl
  simp [View.valueAs, View.uuid?, hb, exactly, id.length_bytes]

/-- A bit set comes back without the padding of its slot. -/
theorem valueAs_bitSet {bits : BitSet} (h : t.At index g row p c (.bitSet bits)) (width : UInt32) :
    t.valueAs (.bitmask width) index = .ok (.bitSet bits) := by
  obtain ⟨own, ht, _⟩ := Column.exists_width h.stores
  have hk : c.type.sameKind (.bitmask 0) = true :=
    ColumnType.sameKind_iff.mpr (Or.inr ⟨own, 0, ht, rfl⟩)
  have hf : c.isFixedSize = true := ColumnType.isFixedSize_of_sameKind hk
  have hb : t.fixedBytes? index (.bitmask 0) =
      .ok (some (bits.bytes ++ List.replicate (c.type.size - bits.bytes.length) 0)) := by
    rw [h.fixedBytes? hk hf]
    unfold Column.slot
    rw [if_pos hf]
    rfl
  simp [View.valueAs, View.bitSet?, hb, BitSet.ofBytes_append_zeros]

theorem valueAs_utf8 {text : String} (h : t.At index g row p c (.utf8 text)) :
    t.valueAs .utf8 index = .ok (.utf8 text) := by
  have ht : c.type = .utf8 := of_decide_eq_true h.stores
  have hk : c.type.sameKind .utf8 = true := ColumnType.sameKind_of_eq ht
  have hb : t.varlenBytes? index .utf8 = .ok (some (Utf8.encode text)) :=
    h.varlenBytes? hk (ColumnType.isFixedSize_of_sameKind hk)
  simp [View.valueAs, View.utf8?, hb, Utf8.decode?_encode]

theorem valueAs_blob {bytes : List UInt8} (h : t.At index g row p c (.blob bytes)) :
    t.valueAs .blob index = .ok (.blob bytes) := by
  have ht : c.type = .blob := of_decide_eq_true h.stores
  have hk : c.type.sameKind .blob = true := ColumnType.sameKind_of_eq ht
  have hb : t.varlenBytes? index .blob = .ok (some bytes) :=
    h.varlenBytes? hk (ColumnType.isFixedSize_of_sameKind hk)
  simp [View.valueAs, View.blob?, hb]

/-- **Every column gives its value back**, asked for as a column of its kind. -/
theorem valueAs (h : t.At index g row p c v) (hk : c.type.sameKind requested = true) :
    t.valueAs requested index = .ok v := by
  have hst := h.stores
  cases v with
  | undefined => exact h.valueAs_undefined hk
  | number kind word =>
      have ht : c.type = .number kind := of_decide_eq_true hst
      have hr : c.type = requested := ColumnType.eq_of_sameKind hk (Or.inl (by simp [ht]))
      rw [← hr, ht]
      exact h.valueAs_number
  | uuid id =>
      have ht : c.type = .uuid := of_decide_eq_true hst
      have hr : c.type = requested := ColumnType.eq_of_sameKind hk (Or.inl (by simp [ht]))
      rw [← hr, ht]
      exact h.valueAs_uuid
  | bitSet bits =>
      obtain ⟨width, ht, _⟩ := Column.exists_width hst
      rcases ColumnType.sameKind_iff.mp hk with hr | ⟨m, n, _, hn⟩
      · rw [← hr, ht]
        exact h.valueAs_bitSet width
      · rw [hn]
        exact h.valueAs_bitSet n
  | utf8 text =>
      have ht : c.type = .utf8 := of_decide_eq_true hst
      have hr : c.type = requested := ColumnType.eq_of_sameKind hk (Or.inl (by simp [ht]))
      rw [← hr, ht]
      exact h.valueAs_utf8
  | blob bytes =>
      have ht : c.type = .blob := of_decide_eq_true hst
      have hr : c.type = requested := ColumnType.eq_of_sameKind hk (Or.inl (by simp [ht]))
      rw [← hr, ht]
      exact h.valueAs_blob

theorem value_eq (h : t.At index g row p c v) : t.value index = .ok v := by
  have hvalue := h.valueAs (ColumnType.sameKind_of_eq rfl)
  obtain ⟨_, _, hlocate⟩ := h.leads.locate
  simp [View.value, hlocate, hvalue]

end At

end View

end RowCodec
