import RowCodec.Proofs.Tuple.Canonical
import RowCodec.Proofs.Tuple.RoundTrip

/-!
# Writing again what was read

An accepted tuple, all of whose columns read as values, is written again from these values. It need
not be what this library writes: nulls can stand in columns without nulls, bits past a mask's width,
and anything in the bytes that no value says.

* `Holds.admits_iff` -- a column takes back the value that it was read as, unless it is such a null or
  such bits.
* `View.reencode` -- **when the values can be written again, what that gives, and when it is the same
  bytes.**
-/

namespace RowCodec

/-! ## 1. Columns -/

namespace ChunkBytes

variable {c : ChunkBytes} {p : Nat} {column : Column} {v : Value}

/-- The bits that were read into a set are those of its column's slot. -/
theorem Holds.contains_eq {bits : BitSet} (h : c.Holds p column (.bitSet bits)) (n : Nat) :
    bits.contains n = bitAt (c.field p column) n := by
  obtain ⟨width, ht⟩ := Column.exists_bitmask h.suits
  have hf : column.isFixedSize = true := by
    unfold Column.isFixedSize
    rw [ht]
    rfl
  rw [h.field_eq hf rfl, BitSet.contains_eq]
  unfold Column.slot
  rw [if_pos hf, bitAt_append_zeros]
  rfl

/-- What is read from a bit mask's slot is a bit set. -/
theorem Holds.exists_bits {width : UInt32} (h : c.Holds p column v) (ht : column.type = .bitmask width)
    (hm : c.marked p = true) : ∃ bits, v = .bitSet bits := by
  have hs := h.suits
  cases v with
  | bitSet bits => exact ⟨bits, rfl⟩
  | undefined => cases h.marked.symm.trans hm
  | _ =>
      unfold Column.suits at hs
      rw [ht] at hs
      cases hs

/-- **Which values a column takes back**: a null if it may hold one, a bit set if it has no bit past the
    mask's width, and every other. -/
theorem Holds.admits_iff (h : c.Holds p column v) : column.admits v = true ↔
    (c.marked p = false → column.nullable = true) ∧
    ∀ width, column.type = .bitmask width → c.marked p = true →
      ∀ n, width.toNat ≤ n → bitAt (c.field p column) n = false := by
  rw [← Column.takes_iff h.suits]
  constructor
  · intro ht
    refine ⟨fun hclear => ht.null ?_, fun width htype hset n hn => ?_⟩
    · cases v with
      | undefined => rfl
      | _ => cases hclear.symm.trans h.marked
    · obtain ⟨bits, rfl⟩ := h.exists_bits htype hset
      rw [← h.contains_eq, Bool.eq_false_iff]
      intro hbit
      have hlt := BitSet.length_le_iff.mp (ht.bits _ _ rfl htype) n hbit
      exact Nat.not_lt.mpr hn hlt
  · rintro ⟨hnull, hbits⟩
    refine ⟨fun hv => ?_, fun bits width hv htype => BitSet.length_le_iff.mpr fun n hbit => ?_⟩
    · subst hv
      exact hnull h.marked
    · subst hv
      apply Nat.not_le.mp
      intro hn
      rw [h.contains_eq, hbits width htype h.marked n hn] at hbit
      cases hbit

end ChunkBytes

/-! ## 2. Rows -/

namespace View

variable {t : View} {row : List Value}

/-- **Every column of a tuple reads as its value of a row.** -/
structure ReadsAs (t : View) (row : List Value) : Prop where
  length_eq : row.length = t.schema.length
  value_eq : ∀ (i : Nat) (v : Value), row[i]? = some v → t.value i = .ok v

namespace ReadsAs

theorem key (h : t.ReadsAs row) (ht : t.Sound) :
    t.keyChunk.Reads (row.take t.schema.key.length) := by
  have hlen := h.length_eq
  unfold Schema.length at hlen
  refine ⟨ht.key, ?_, fun p column v hc hv => ?_⟩
  · rw [columns_keyChunk, List.length_take]
    omega
  · rw [columns_keyChunk] at hc
    have hp : p < t.schema.key.length := (List.getElem?_eq_some_iff.mp hc).1
    rw [List.getElem?_take_of_lt hp] at hv
    exact (ht.leads_key hc).holds (h.value_eq p v hv)

theorem value (h : t.ReadsAs row) (ht : t.Sound) :
    t.valueChunk.Reads (row.drop t.schema.key.length) := by
  have hlen := h.length_eq
  unfold Schema.length at hlen
  refine ⟨ht.value, ?_, fun p column v hc hv => ?_⟩
  · rw [columns_valueChunk, List.length_drop]
    omega
  · rw [columns_valueChunk] at hc
    rw [List.getElem?_drop] at hv
    exact (ht.leads_value hc).holds (h.value_eq _ v hv)

/-- The row fits into the bytes that it was read from. -/
theorem bounded (h : t.ReadsAs row) (ht : t.Sound) : t.schema.Bounded row := by
  have hk := (h.key ht).bounded
  have hv := (h.value ht).bounded
  rw [columns_keyChunk] at hk
  rw [columns_valueChunk] at hv
  exact ⟨hk, hv⟩

/-- What `Holds.admits_iff` says, asked of the tuple. -/
theorem admits_iff (h : t.ReadsAs row) (ht : t.Sound) {i : Nat} {c : Column} {v : Value}
    (hc : t.schema.column? i = some c) (hv : row[i]? = some v) : c.admits v = true ↔
      (t.isNull i = .ok true → c.nullable = true) ∧
      ∀ (width : UInt32) (bytes : List UInt8), c.type = .bitmask width →
        t.fixedBytes? i (.bitmask width) = .ok (some bytes) →
        ∀ n, width.toNat ≤ n → bitAt bytes n = false := by
  obtain ⟨chunk, p, hlead⟩ := ht.leads hc
  have hnull : t.isNull i = .ok true ↔ chunk.marked p = false := by
    rw [hlead.isNull_eq]
    cases chunk.marked p <;> simp
  have hbytes : ∀ {width bytes}, c.type = .bitmask width →
      (t.fixedBytes? i (.bitmask width) = .ok (some bytes) ↔
        chunk.marked p = true ∧ chunk.field p c = bytes) := by
    intro width bytes htype
    rw [hlead.fixedBytes?_eq (ColumnType.sameKind_of_eq htype) rfl]
    cases chunk.marked p <;> simp
  rw [(hlead.holds (h.value_eq i v hv)).admits_iff, hnull]
  refine and_congr_right fun _ => ⟨fun hall width bytes htype hread => ?_,
    fun hall width htype hm => hall width _ htype ((hbytes htype).mpr ⟨hm, rfl⟩)⟩
  obtain ⟨hm, rfl⟩ := (hbytes htype).mp hread
  exact hall width htype hm

theorem exists_value (h : t.ReadsAs row) {i : Nat} {c : Column}
    (hc : t.schema.column? i = some c) : ∃ v, i < t.schema.length ∧ row[i]? = some v := by
  have hi : i < t.schema.length := by
    apply Nat.not_le.mp
    intro hle
    rw [Schema.column?_out hle] at hc
    cases hc
  exact ⟨_, hi, List.getElem?_eq_getElem (h.length_eq ▸ hi)⟩

/-- **When a tuple's columns take their values back.** -/
theorem takesBelow_iff (h : t.ReadsAs row) (ht : t.Sound) :
    t.schema.TakesBelow row t.schema.length ↔
      (∀ (i : Nat) (c : Column), t.schema.column? i = some c → t.isNull i = .ok true →
        c.nullable = true) ∧
      ∀ (i : Nat) (c : Column) (width : UInt32) (bytes : List UInt8),
        t.schema.column? i = some c → c.type = .bitmask width →
        t.fixedBytes? i (.bitmask width) = .ok (some bytes) →
        ∀ n, width.toNat ≤ n → bitAt bytes n = false := by
  constructor
  · intro hall
    refine ⟨fun i c hc => ?_, fun i c width bytes hc => ?_⟩
    · obtain ⟨v, hi, hv⟩ := h.exists_value hc
      exact ((h.admits_iff ht hc hv).mp (hall i c v hi hc hv)).1
    · obtain ⟨v, hi, hv⟩ := h.exists_value hc
      exact ((h.admits_iff ht hc hv).mp (hall i c v hi hc hv)).2 width bytes
  · rintro ⟨hnulls, hbits⟩ i c v _ hc hv
    exact (h.admits_iff ht hc hv).mpr ⟨hnulls i c hc, fun width bytes => hbits i c width bytes hc⟩

/-- **The values are written in no more bytes than they were read from**, and in the same ones exactly
    when both chunks are canonical. -/
theorem encode_eq_iff (h : t.ReadsAs row) (ht : t.Sound) (hf : t.schema.Fits row) {bytes : List UInt8}
    (hb : bytes = t.schema.fingerprint.toBytes ++ t.keyChunk.bytes ++ t.valueChunk.bytes) :
    (t.schema.encode row).length ≤ bytes.length ∧
    (t.schema.encode row = bytes ↔ t.keyChunk.Canonical ∧ t.valueChunk.Canonical) := by
  have hkey := (h.key ht).bytes_eq_iff (by rw [columns_keyChunk]; exact hf.key)
  have hvalue := (h.value ht).bytes_eq_iff (by rw [columns_valueChunk]; exact hf.value)
  have hkle := (h.key ht).chunkBytes_le
  have hvle := (h.value ht).chunkBytes_le
  rw [columns_keyChunk] at hkey hkle
  rw [columns_valueChunk] at hvalue hvle
  rw [← Columns.length_encode ht.schema.key hf.key.admits.stores hf.key.length_eq] at hkle
  rw [← Columns.length_encode ht.schema.value hf.value.admits.stores hf.value.length_eq] at hvle
  unfold Schema.encode
  rw [hb, ← hkey, ← hvalue]
  refine ⟨?_, fun he => ?_, fun ⟨hk, hv⟩ => by rw [← hk, ← hv]⟩
  · simp only [List.length_append]
    omega
  · have hlen := congrArg List.length he
    simp only [List.length_append] at hlen
    obtain ⟨hfront, hv⟩ := List.append_inj he (by simp only [List.length_append]; omega)
    exact ⟨(List.append_cancel_left hfront).symm, hv.symm⟩

/-- A tuple of the same row reads the same, at every index. -/
theorem value_view (h : t.ReadsAs row) (ht : t.Sound) (hf : t.schema.Fits row) (i : Nat) :
    (t.schema.view row).value i = t.value i := by
  cases hv : row[i]? with
  | some v =>
      obtain ⟨g, part, p, c, hat, _⟩ := at_view ht.schema hf hv
      rw [hat.value_eq, h.value_eq i v hv]
  | none =>
      have hout : t.schema.column? i = none := Schema.column?_out (by
        rw [← h.length_eq]
        exact List.getElem?_eq_none_iff.mp hv)
      have hview := (sound_of_new ht.schema (Schema.new_encode ht.schema hf)).1
      rw [ht.value_out hout, hview.value_out hout]
      rfl

end ReadsAs

/-! ## 3. Tuples -/

/-- **Writing again what was read.** All columns of an accepted tuple read as the values of a row, and
    a builder is made of the size and counts of these values. It takes them exactly when no null
    stands in a column without nulls and no bit past a mask's width is set. What it then makes is no
    longer than the tuple and reads the same, and it is the tuple exactly when both chunks are
    canonical. -/
theorem reencode {version : UInt32} {key value : List Column} {s : Schema} {bytes : List UInt8}
    (hdef : Schema.define version key value = .ok s) (hview : View.new s bytes = .ok t)
    (hlen : row.length = s.length)
    (hrow : ∀ (i : Nat) (v : Value), row[i]? = some v → t.value i = .ok v) :
    ∃ keyStatistic valueStatistic size b,
      Statistic.ofLengths (ε := TupleError)
        ((payloads (row.take s.key.length)).map List.length) = .ok keyStatistic ∧
      Statistic.ofLengths (ε := TupleError)
        ((payloads (row.drop s.key.length)).map List.length) = .ok valueStatistic ∧
      s.tupleSize (ε := TupleError) keyStatistic valueStatistic = .ok size ∧
      Builder.new s size keyStatistic.nonNull valueStatistic.nonNull = .ok b ∧
      ((b.appendAll row).outcome = .ok () ↔
        (∀ (i : Nat) (c : Column), s.column? i = some c → t.isNull i = .ok true →
          c.nullable = true) ∧
        ∀ (i : Nat) (c : Column) (width : UInt32) (slot : List UInt8), s.column? i = some c →
          c.type = .bitmask width → t.fixedBytes? i (.bitmask width) = .ok (some slot) →
          ∀ n, width.toNat ≤ n → bitAt slot n = false) ∧
      ((b.appendAll row).outcome = .ok () → ∃ again view,
        (b.appendAll row).builder.build = .ok again ∧ again.bytes.length ≤ bytes.length ∧
        View.new s again.bytes = .ok view ∧ (∀ i, view.value i = t.value i) ∧
        (again.bytes = bytes ↔ t.keyChunk.Canonical ∧ t.valueChunk.Canonical)) := by
  have hs := Schema.sound_of_define hdef
  obtain ⟨ht, rfl, hbytes⟩ := sound_of_new hs hview
  have hreads : t.ReadsAs row := ⟨hlen, hrow⟩
  have hb := hreads.bounded ht
  obtain ⟨b, hnew, hmade⟩ := Builder.MadeFor.of_new hs hb
  obtain ⟨hiff, hbuild⟩ := hmade.appendAll_iff hs hb
  have hkey := (Columns.ofLengths_payloads (ε := TupleError) _).trans
    (Columns.checked_rowStatistic hb.key.chunk_le)
  have hvalue := (Columns.ofLengths_payloads (ε := TupleError) _).trans
    (Columns.checked_rowStatistic hb.value.chunk_le)
  refine ⟨_, _, _, b, hkey, hvalue, hb.tupleSize, hnew,
    hiff.trans (hreads.takesBelow_iff ht), fun hok => ?_⟩
  obtain ⟨hf, hagain⟩ := hbuild hok
  obtain ⟨hle, hsame⟩ := hreads.encode_eq_iff ht hf hbytes
  exact ⟨_, _, hagain, hle, Schema.new_encode hs hf, hreads.value_view ht hf, hsame⟩

/-- The tuple of the sample row, but with the null map's bit behind the value's last column set. -/
def strayBytes : List UInt8 := (Builder.sampleSchema.encode Builder.sampleRow).set 23 13

def strayView : View :=
  ⟨Builder.sampleSchema, strayBytes, ⟨8, 11, 13, 13, 0⟩, ⟨19, 15, 24, 32, 2⟩⟩

/-- The stray bit is read over, and is gone when the row is written again. -/
theorem reencode_stray : ∃ b again,
    Schema.define 1 Builder.sampleKey Builder.sampleValue = .ok Builder.sampleSchema ∧
    View.new Builder.sampleSchema strayBytes = .ok strayView ∧
    Builder.sampleRow.length = Builder.sampleSchema.length ∧
    (∀ (i : Nat) (v : Value), Builder.sampleRow[i]? = some v → strayView.value i = .ok v) ∧
    Builder.new Builder.sampleSchema 34 0 2 = .ok b ∧
    (b.appendAll Builder.sampleRow).outcome = .ok () ∧
    (b.appendAll Builder.sampleRow).builder.build = .ok again ∧
    again.bytes.length ≤ strayBytes.length ∧ again.bytes ≠ strayBytes := by
  have hdef : Schema.define 1 Builder.sampleKey Builder.sampleValue = .ok Builder.sampleSchema := rfl
  have hview : View.new Builder.sampleSchema strayBytes = .ok strayView := by decide +kernel
  have hlen : Builder.sampleRow.length = Builder.sampleSchema.length := rfl
  have hrow : ∀ (i : Nat) (v : Value), Builder.sampleRow[i]? = some v → strayView.value i = .ok v := by
    intro i v hv
    match i, hv with
    | 0, hv => cases hv; decide +kernel
    | 1, hv => cases hv; decide +kernel
    | 2, hv => cases hv; decide +kernel
    | 3, hv => cases hv; decide +kernel
    | 4, hv => cases hv; decide +kernel
  obtain ⟨ks, vs, size, b, hks, hvs, hsize, hnew, _, hgo⟩ := reencode hdef hview hlen hrow
  cases hks
  cases hvs
  cases hsize
  have hb : Builder.new Builder.sampleSchema 34 0 2 = .ok _ := rfl
  obtain rfl := Except.ok.inj (hb.symm.trans hnew)
  obtain ⟨again, view, hagain, hle, _, _, hsame⟩ := hgo rfl
  refine ⟨_, again, hdef, hview, hlen, hrow, hb, rfl, hagain, hle, fun he => ?_⟩
  have hclear := (hsame.mp he).2.padding 3 (by decide) (by decide)
  have hset : strayView.valueChunk.isDefined 3 = .ok true := by decide +kernel
  cases hset.symm.trans hclear

end View

end RowCodec
