import RowCodec.Proofs.Tuple.Accepted
import RowCodec.Tuple.Builder

/-!
# Positions as machine words

The reader adds positions without a bound, and the machine adds 64-bit words. No sum that the reader
forms reaches `wordLimit` if the tuple can be held in memory, so the two come to the same.

* `Columns.Possible` -- a group with room in memory for everything in its chunks but the texts and byte
  strings themselves.
* `TupleError.InWords` -- a refusal reports the sum that it was decided by, and that is a word.
* `ChunkView.Within` -- every position that a getter forms in a chunk lies in the tuple's bytes.
* `View.new_in_words` -- **on bytes of a possible length the reader forms words only**, whether it takes
  them or not.
-/

namespace RowCodec

/-- A chunk without its texts and byte strings has a possible length, even if no column is null. -/
def Columns.Possible (g : Columns) : Prop :=
  ChunkBytes.table g + g.length * entrySize + g.fixedSize ≤ maxBufferSize

instance (g : Columns) : Decidable g.Possible := Nat.decLe _ _

/-- The widest bit mask there is leaves room for a text behind it. -/
example : (Columns.ofList [⟨"note", .utf8, true⟩, ⟨"flags", .bitmask 0xffffffff, false⟩]).Possible := by
  decide

/-! ## 1. Refusals -/

/-- **The sums behind a refusal are words.** A chunk that is too short is also given the end that its
    parts of known size would have: the fixed section starts before that. -/
def TupleError.InWords : TupleError → Prop
  | .truncated required length => required < wordLimit ∧ length < wordLimit
  | .corrupted (.shortChunk start length required) =>
      start + length < wordLimit ∧ start + required < wordLimit
  | .corrupted (.trailing count) => count < wordLimit
  | _ => True

/-- A chunk is looked for at a position in the bytes, which lies in the lower half of the words: there is
    room behind it for the chunk's length and for its parts of known size. -/
theorem ChunkView.Refuses.inWords {n start : Nat} {g : Columns} {e : TupleError}
    (h : Refuses n start g e) (hn : n ≤ maxBufferSize) (hg : g.Possible) (hstart : start ≤ n) :
    e.InWords := by
  unfold Columns.Possible at hg
  unfold maxBufferSize at hn hg
  have hlimit : wordLimit = 2 * 0x7fffffffffffffff + 2 := rfl
  cases h with
  | header h => exact ⟨by omega, by omega⟩
  | stop h hword =>
      have hword : _ < 256 ^ 4 := hword
      exact ⟨by omega, by omega⟩
  | static hstop hentries h =>
      have hentries := Nat.mul_le_mul_right entrySize hentries
      exact ⟨by omega, by omega⟩

/-! ## 2. Positions in a chunk -/

/-- **The positions that a getter forms in a chunk** lie in `n` bytes: those of the null map, the ends of
    table entries and of columns in the fixed section, and the end of the chunk, behind which no text or
    byte string is looked for. -/
structure ChunkView.Within (v : ChunkView) (g : Columns) (n : Nat) : Prop where
  mark : ∀ p, p < g.length → v.start + chunkHeaderSize + p / 8 < n
  entry : ∀ k, k < v.entries → v.table + k * entrySize + entrySize ≤ n
  field : ∀ p column offset, g.columns[p]? = some column → column.isFixedSize = true →
    g.fixedOffset (ε := TupleError) p = .ok offset → v.fixed + offset + column.type.size ≤ n
  data : v.fixed - v.start + g.fixedSize ≤ v.length
  stop : v.start + v.length ≤ n

theorem ChunkBytes.Sound.within {c : ChunkBytes} {start n : Nat} (hc : c.Sound)
    (h : start + c.bytes.length ≤ n) : (c.viewAt start).Within c.columns n where
  mark p hp := by
    have hmark := hc.mark_lt (Columns.div_lt_nullMapSize hp)
    rw [start_viewAt]
    omega
  entry k hk := by
    have hentry := hc.entry_le hk
    rw [table_viewAt]
    omega
  field p column offset hcolumn hf hoffset := by
    have hfield := hc.field_le hcolumn
    rw [hc.laidOut.fixedOffset_eq hcolumn hf] at hoffset
    cases hoffset
    rw [fixed_viewAt]
    omega
  data := by
    rw [fixed_viewAt, start_viewAt, length_viewAt, Nat.add_sub_cancel_left]
    exact hc.data_le
  stop := h

namespace View

variable {s : Schema} {bytes : List UInt8} {t : View}

theorem Sound.within_key (h : t.Sound) : t.keyView.Within t.schema.key t.bytes.length := by
  rw [h.keyView_eq]
  exact h.key.within h.shows_key.stop_le

theorem Sound.within_value (h : t.Sound) : t.valueView.Within t.schema.value t.bytes.length := by
  rw [h.valueView_eq]
  exact h.value.within h.shows_value.stop_le

/-! ## 3. Tuples -/

theorem Refuses.inWords {e : TupleError} (h : Refuses s bytes e) (hkey : s.key.Possible)
    (hvalue : s.value.Possible) (hbytes : bytes.length ≤ maxBufferSize) : e.InWords := by
  have hword : bytes.length < wordLimit := Nat.lt_of_le_of_lt hbytes (by decide)
  cases h with
  | short h => exact ⟨by decide, hword⟩
  | fingerprint h => exact trivial
  | key hstart h => exact h.inWords hbytes hkey hstart
  | value hstart h => exact h.inWords hbytes hvalue hstart
  | trailing h => exact Nat.lt_of_le_of_lt h hword

/-- **On bytes of a possible length the reader forms machine words only**: the positions in an accepted
    tuple lie in its bytes, and a refusal reports no sum beyond the words. -/
theorem new_in_words (hs : s.Sound) (hkey : s.key.Possible) (hvalue : s.value.Possible)
    (hbytes : bytes.length ≤ maxBufferSize) : (new s bytes).Ensures
      (fun t => t.keyView.Within s.key bytes.length ∧ t.valueView.Within s.value bytes.length)
      TupleError.InWords := by
  refine (new_ends hs bytes).imp (fun t ht => ?_) fun e h => h.inWords hkey hvalue hbytes
  obtain ⟨hsound, rfl, heq⟩ := ht
  rw [heq, ← hsound.bytes_eq]
  exact ⟨hsound.within_key, hsound.within_value⟩

end View

end RowCodec
