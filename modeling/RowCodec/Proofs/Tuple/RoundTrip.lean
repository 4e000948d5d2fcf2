import RowCodec.Proofs.Tuple.Reading
import RowCodec.Proofs.Tuple.Writing

/-!
# From values to bytes and back

Every row that a builder turned into a tuple, whatever size and counts it was made with.

* `bytes_of_build` -- the tuple is `Schema.encode` of the row, its 32-bit words say what they mean
  (`Columns.Exact`), and it is as long as the statistics of the row say.
* `value_of_build` -- the tuple is accepted and gives every value back.
-/

namespace RowCodec

/-! ## 1. What the words of a chunk say -/

/-- **The numbers in a chunk are exact**, none is cut to its width: read back, its length is the number
    of its bytes, the null map has the bit of every value but the nulls and no other, and each table
    entry leads to its text or byte string. -/
structure Columns.Exact (g : Columns) (row : List Value) : Prop where
  length_eq : LittleEndian.decode ((g.encode row).take chunkHeaderSize) = (g.encode row).length
  bit_eq : ∀ (i : Nat) (b : UInt8), i / 8 < g.nullMapSize →
    (g.encode row)[chunkHeaderSize + i / 8]? = some b → hasBit b i = isDefinedAt row i
  entry_eq : ∀ (k start : Nat), (g.starts row)[k]? = some start →
    LittleEndian.decode (((g.encode row).drop (chunkHeaderSize + g.nullMapSize + k * entrySize)).take
      entrySize) = start
  payload_eq : ∀ (k start : Nat) (bytes : List UInt8), (g.starts row)[k]? = some start →
    (payloads row)[k]? = some bytes → ((g.encode row).drop start).take bytes.length = bytes

namespace Columns

variable {g : Columns} {row : List Value}

theorem Fits.exact (hg : g.LaidOut) (hf : g.Fits row) : g.Exact row := by
  refine ⟨?_, ?_, ?_, ?_⟩
  · have hword := header_view g row
    unfold segment at hword
    rw [List.drop_zero, Nat.sub_zero] at hword
    rw [hword, LittleEndian.decode_encode_of_lt hf.length_lt]
  · intro i b hi hb
    apply hasBit_nullMap
    have hlt : i / 8 < (nullMap row).length := by
      rw [length_nullMap, hf.length_eq]
      exact hi
    rw [encode_eq, List.append_assoc, List.append_assoc, List.append_assoc,
      List.getElem?_append_right (by rw [LittleEndian.length_encode]; omega),
      LittleEndian.length_encode, Nat.add_sub_cancel_left, List.getElem?_append_left hlt] at hb
    exact hb
  · intro k start hk
    have hentry := segment_entry hf.length_eq hk
    unfold segment at hentry
    rw [Nat.add_sub_cancel_left] at hentry
    show LittleEndian.decode (((g.encode row).drop (ChunkBytes.table g + k * entrySize)).take _) = _
    rw [hentry, LittleEndian.decode_encode_of_lt (hf.start_lt hg hk)]
  · intro k start bytes hk hb
    have hlt := (List.getElem?_eq_some_iff.mp hb).1
    rw [getElem?_starts hlt] at hk
    cases hk
    have hpayload := segment_payload hg hf hb
    unfold segment at hpayload
    rwa [Nat.add_sub_cancel_left] at hpayload

theorem foldl_record : ∀ (parts : List (List UInt8)) (s : Statistic),
    (parts.map List.length).foldl Statistic.record s =
      ⟨s.nonNull + parts.length, s.size + parts.flatten.length⟩
  | [], _ => rfl
  | bytes :: rest, s => by
      rw [List.map_cons, List.foldl_cons, foldl_record rest, List.length_cons, List.flatten_cons,
        List.length_append]
      simp only [Statistic.record]
      congr 1 <;> omega

/-- Texts and byte strings counted one after the other. -/
theorem foldl_payloads (row : List Value) :
    ((payloads row).map List.length).foldl Statistic.record .empty = rowStatistic row := by
  rw [foldl_record]
  simp only [Statistic.empty, Nat.zero_add]
  rfl

/-- The statistic of a row is that of the lengths of its texts and byte strings. -/
theorem ofLengths_payloads {ε : Type} (row : List Value) :
    Statistic.ofLengths (ε := ε) ((payloads row).map List.length) = (rowStatistic row).checked := by
  unfold Statistic.ofLengths
  rw [foldl_payloads]

/-- The statistic of a row whose chunk is no longer than a 32-bit word is a pair of words. -/
theorem checked_rowStatistic {ε : Type} (h : g.chunkBytes (rowStatistic row) ≤ maxChunkOffset) :
    (rowStatistic row).checked (ε := ε) = .ok (rowStatistic row) := by
  unfold chunkBytes entrySize maxChunkOffset at h
  have hn : (rowStatistic row).nonNull < wordLimit := by
    unfold wordLimit
    omega
  have hs : (rowStatistic row).size < wordLimit := by
    unfold wordLimit
    omega
  unfold Statistic.checked RowCodec.checked
  rw [if_pos hn, if_pos hs]
  rfl

/-- A statistic that is a pair of words is that pair. -/
theorem checked_ok {ε : Type} {s s' : Statistic} (h : s.checked (ε := ε) = .ok s') : s' = s := by
  unfold Statistic.checked RowCodec.checked at h
  split at h
  · split at h
    · cases h
      rfl
    · cases h
  · cases h

theorem eq_rowStatistic {ε : Type} {statistic : Statistic}
    (h : Statistic.ofLengths (ε := ε) ((payloads row).map List.length) = .ok statistic) :
    statistic = rowStatistic row :=
  checked_ok ((ofLengths_payloads row).symm.trans h)

theorem Fits.checked {ε : Type} (hg : g.LaidOut) (hf : g.Fits row) :
    (rowStatistic row).checked (ε := ε) = .ok (rowStatistic row) := by
  refine checked_rowStatistic (g := g) ?_
  rw [← length_encode hg hf.admits.stores hf.length_eq]
  exact hf.bounded

end Columns

namespace Builder

variable {version : UInt32} {key value : List Column} {s : Schema} {size keyDeclared valueDeclared : Nat}
  {b : Builder} {row : List Value} {t : EncodedTuple}

/-- A row that a builder turned into a tuple fits, and the tuple is its encoding. -/
theorem fits_of_build (hs : s.Sound) (hnew : Builder.new s size keyDeclared valueDeclared = .ok b)
    (happ : (b.appendAll row).outcome = .ok ())
    (hbuild : (b.appendAll row).builder.build = .ok t) : s.Fits row ∧ t.bytes = s.encode row :=
  ((Wrote.of_new hs hnew).appendAll hs happ).build hbuild

/-- A key of fixed size. -/
def sampleKey : List Column := [⟨"id", .number .int4, false⟩, ⟨"flags", .bitmask 10, false⟩]

/-- A value of variable length. -/
def sampleValue : List Column :=
  [⟨"name", .utf8, true⟩, ⟨"note", .utf8, true⟩, ⟨"data", .blob, true⟩]

/-- The schema of the two. -/
def sampleSchema : Schema :=
  { version := 1
    fingerprint := Fingerprint.ofColumns (Columns.ofList sampleKey) (Columns.ofList sampleValue)
    key := Columns.ofList sampleKey
    value := Columns.ofList sampleValue }

/-- A row with an empty text and a null behind it. -/
def sampleRow : List Value :=
  [.number .int4 42, .bitSet (BitSet.ofList [0, 9]), .utf8 "", .undefined, .blob [1, 2]]

/-! ## 2. The bytes -/

/-- **The bytes of a tuple**: the encoding of its row, with exact words, as long as the statistics of
    its two groups say. -/
theorem bytes_of_build (hdef : Schema.define version key value = .ok s)
    (hnew : Builder.new s size keyDeclared valueDeclared = .ok b)
    (happ : (b.appendAll row).outcome = .ok ())
    (hbuild : (b.appendAll row).builder.build = .ok t) :
    row.length = s.length ∧
    t.bytes = s.encode row ∧
    s.key.Exact (row.take s.key.length) ∧ s.value.Exact (row.drop s.key.length) ∧
    ∃ keyStatistic valueStatistic,
      Statistic.ofLengths (ε := TupleError)
        ((payloads (row.take s.key.length)).map List.length) = .ok keyStatistic ∧
      Statistic.ofLengths (ε := TupleError)
        ((payloads (row.drop s.key.length)).map List.length) = .ok valueStatistic ∧
      s.tupleSize (ε := TupleError) keyStatistic valueStatistic = .ok t.bytes.length := by
  have hs := Schema.sound_of_define hdef
  obtain ⟨hf, hbytes⟩ := fits_of_build hs hnew happ hbuild
  refine ⟨hf.length_eq, hbytes, hf.key.exact hs.key, hf.value.exact hs.value, _, _,
    (Columns.ofLengths_payloads _).trans (hf.key.checked hs.key),
    (Columns.ofLengths_payloads _).trans (hf.value.checked hs.value), ?_⟩
  have hprint := s.fingerprint.length_toBytes
  have hlen : t.bytes.length =
      s.tupleBytes (rowStatistic (row.take s.key.length)) (rowStatistic (row.drop s.key.length)) := by
    rw [hbytes]
    unfold Schema.encode Schema.tupleBytes
    rw [List.length_append, List.length_append, hprint,
      Columns.length_encode hs.key hf.key.admits.stores hf.key.length_eq,
      Columns.length_encode hs.value hf.value.admits.stores hf.value.length_eq]
  have hword : t.bytes.length < wordLimit := by
    have hk := hf.key.bounded
    have hv := hf.value.bounded
    rw [hbytes]
    unfold Schema.encode
    rw [List.length_append, List.length_append, hprint]
    unfold maxChunkOffset at hk hv
    unfold wordLimit Fingerprint.size
    omega
  unfold Schema.tupleSize checked
  rw [← hlen, if_pos hword]

theorem bytes_of_build_sample : ∃ b t,
    Schema.define 1 sampleKey sampleValue = .ok sampleSchema ∧
    Builder.new sampleSchema 34 0 2 = .ok b ∧
    (b.appendAll sampleRow).outcome = .ok () ∧ (b.appendAll sampleRow).builder.build = .ok t ∧
    t.bytes = sampleSchema.encode sampleRow ∧ t.bytes.length = 34 := by
  have hdef : Schema.define 1 sampleKey sampleValue = .ok sampleSchema := rfl
  have hnew : Builder.new sampleSchema 34 0 2 = .ok _ := rfl
  exact ⟨_, _, hdef, hnew, rfl, rfl, (bytes_of_build hdef hnew rfl rfl).2.1, rfl⟩

/-! ## 3. Back to the values -/

/-- **Reading undoes writing**: the tuple is accepted, and every index gives its value back and is null
    exactly when its value is. -/
theorem value_of_build (hdef : Schema.define version key value = .ok s)
    (hnew : Builder.new s size keyDeclared valueDeclared = .ok b)
    (happ : (b.appendAll row).outcome = .ok ())
    (hbuild : (b.appendAll row).builder.build = .ok t) :
    row.length = s.length ∧
    ∃ view, View.new s t.bytes = .ok view ∧ ∀ (i : Nat) (v : Value), row[i]? = some v →
      view.value i = .ok v ∧ view.isNull i = .ok (decide (v = .undefined)) := by
  have hs := Schema.sound_of_define hdef
  obtain ⟨hf, hbytes⟩ := fits_of_build hs hnew happ hbuild
  refine ⟨hf.length_eq, s.view row, ?_, fun i v hv => ?_⟩
  · rw [hbytes]
    exact Schema.new_encode hs hf
  · obtain ⟨g, part, p, c, hat, _⟩ := View.at_view hs hf hv
    refine ⟨hat.value_eq, ?_⟩
    rw [hat.isNull]
    cases v <;> rfl

theorem value_of_build_sample : ∃ b t,
    Schema.define 1 sampleKey sampleValue = .ok sampleSchema ∧
    Builder.new sampleSchema 34 0 2 = .ok b ∧
    (b.appendAll sampleRow).outcome = .ok () ∧ (b.appendAll sampleRow).builder.build = .ok t ∧
    ∃ view, View.new sampleSchema t.bytes = .ok view ∧
      ∀ (i : Nat) (v : Value), sampleRow[i]? = some v →
        view.value i = .ok v ∧ view.isNull i = .ok (decide (v = .undefined)) := by
  have hdef : Schema.define 1 sampleKey sampleValue = .ok sampleSchema := rfl
  have hnew : Builder.new sampleSchema 34 0 2 = .ok _ := rfl
  exact ⟨_, _, hdef, hnew, rfl, rfl, (value_of_build hdef hnew rfl rfl).2⟩

end Builder

end RowCodec
