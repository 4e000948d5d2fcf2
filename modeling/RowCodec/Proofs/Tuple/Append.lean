import RowCodec.Proofs.Outcome
import RowCodec.Proofs.Tuple.OpenChunk

/-!
# One append

What an append does to a builder, and above all to one whose next column belongs to the chunk that lies open.

* `append_null`, `append_of_fixed`, `append_of_payload`, `append_unadmitted` -- what a value of each kind is
  appended as, and which values are refused before anything is written.
* `appendFixed_eq`, `appendVarlen_eq` -- what is written, in any chunk, up to the null map bit.
* `Builder.Places` -- a text or byte string can be written; if not, it is refused and leaves at most its entry
  behind (`Builder.Spoiled`). `Builder.takes` is what that asks of the chunk that lies open.
* `append_admitted` -- a value that the column admits and the chunk takes is added to the row, and
  the builder advances.
* `append_refused` -- every other value is refused and the row stays as it is.
* `append_ends`, `index_append` -- in any state whatever, an append either faults at the column it
  began with or advances by one.
-/

namespace RowCodec

namespace Builder

variable {b : Builder} {g : Columns} {declared : Nat} {before : List UInt8} {vs : List Value}
  {c : Column} {v : Value} {actual : ColumnType} {bytes : List UInt8} {offset p : Nat}

/-! ## 1. The steps of an append -/

@[simp] theorem onward_ok {α : Type} (b : Builder) (a : α) (next : α → Step TupleError) :
    b.onward (.ok a) next = next a := rfl

@[simp] theorem onward_refuse {α : Type} (b : Builder) (cause : TupleError)
    (next : α → Step TupleError) :
    b.onward (Outcome.refuse cause) next = ⟨b, Outcome.refuse cause⟩ := rfl

theorem column_of_locate (hl : b.schema.locate b.index = .ok (g, p, c)) :
    b.column = .ok (g, p, c) := by
  simp [column, hl]

theorem columnOf_of_sameKind (hl : b.schema.locate b.index = .ok (g, p, c))
    (hk : c.type.sameKind actual = true) : b.columnOf actual = .ok (g, p, c) := by
  simp [columnOf, column_of_locate hl, hk]

theorem columnOf_of_not_sameKind (hl : b.schema.locate b.index = .ok (g, p, c))
    (hk : ¬ c.type.sameKind actual = true) :
    b.columnOf actual = Outcome.refuse (.typeMismatch b.index c.type actual) := by
  simp [columnOf, column_of_locate hl, hk]

theorem write_of_le (h : offset + bytes.length ≤ b.buffer.length) :
    b.write offset bytes = .ok { b with buffer := overwrite b.buffer offset bytes } :=
  if_neg (Nat.not_lt.mpr h)

theorem write_of_lt (h : b.buffer.length < offset + bytes.length) :
    b.write offset bytes =
      Outcome.refuse (.capacityExceeded b.index (offset + bytes.length) b.buffer.length) :=
  if_pos h

theorem setDefined_of_lt (h : b.chunk.start + chunkHeaderSize + p / 8 < b.buffer.length) :
    b.setDefined p = .ok { b with
      buffer := b.buffer.modify (b.chunk.start + chunkHeaderSize + p / 8) (· ||| bitOf p) } :=
  if_pos h

theorem chunkOffset_of_le {index relative : Nat} (h : relative ≤ maxChunkOffset) :
    chunkOffset index relative = .ok (LittleEndian.encode entrySize relative) :=
  if_pos h

theorem chunkOffset_of_lt {index relative : Nat} (h : maxChunkOffset < relative) :
    chunkOffset index relative =
      Outcome.refuse (.capacityExceeded index relative maxChunkOffset) :=
  if_neg (Nat.not_le.mpr h)

theorem appendFixed_mismatch (hl : b.schema.locate b.index = .ok (g, p, c))
    (hk : ¬ c.type.sameKind actual = true) :
    b.appendFixed actual bytes =
      ⟨b, Outcome.refuse (.typeMismatch b.index c.type actual)⟩ := by
  simp [appendFixed, columnOf_of_not_sameKind hl hk]

theorem appendVarlen_mismatch (hl : b.schema.locate b.index = .ok (g, p, c))
    (hk : ¬ c.type.sameKind actual = true) :
    b.appendVarlen actual bytes =
      ⟨b, Outcome.refuse (.typeMismatch b.index c.type actual)⟩ := by
  simp [appendVarlen, columnOf_of_not_sameKind hl hk]

theorem append_bitSet (hl : b.schema.locate b.index = .ok (g, p, c)) {bits : BitSet} :
    b.append (.bitSet bits) = match c.type with
      | .bitmask width =>
        if width.toNat < bits.length then
          ⟨b, Outcome.refuse (.bitmaskTooLong b.index bits.length width)⟩
        else b.appendFixed (.bitmask (UInt32.ofNat bits.length)) bits.bytes
      | _ => b.appendFixed (.bitmask (UInt32.ofNat bits.length)) bits.bytes := by
  unfold append appendBitSet
  rw [column_of_locate hl]
  rfl

/-! ## 2. Kinds of values -/

theorem append_null (hl : b.schema.locate b.index = .ok (g, p, c))
    (hv : c.admits .undefined = true) : b.append .undefined = b.advance := by
  have hn : c.nullable = true := by simpa [Column.admits, Column.stores, Value.isUndefined] using hv
  simp [append, appendNull, column_of_locate hl, hn]

/-- A number, UUID or bit set that the column admits is appended as bytes of the column's kind. -/
theorem append_of_fixed (hl : b.schema.locate b.index = .ok (g, p, c)) (hv : c.admits v = true)
    (hp : v.payload? = none) (hd : v.isUndefined = false) :
    ∃ actual, c.type.sameKind actual = true ∧ b.append v = b.appendFixed actual v.fixedBytes := by
  have hst := Column.stores_of_admits hv
  have hkind := Column.suits_of_stores hst
  cases v with
  | undefined => cases hd
  | number kind word => exact ⟨.number kind, hkind, rfl⟩
  | uuid id => exact ⟨.uuid, hkind, rfl⟩
  | bitSet bits =>
      obtain ⟨width, hw, hle⟩ := Column.exists_width hst
      refine ⟨.bitmask (UInt32.ofNat bits.length), hkind, ?_⟩
      rw [append_bitSet hl, hw]
      exact if_neg (Nat.not_lt.mpr hle)
  | utf8 text => cases hp
  | blob bytes => cases hp

/-- A text or byte string that the column admits is appended as one of the column's kind. -/
theorem append_of_payload (hv : c.admits v = true) (hp : v.payload? = some bytes) :
    ∃ actual, c.type.sameKind actual = true ∧ b.append v = b.appendVarlen actual bytes := by
  have hkind := Column.suits_of_stores (Column.stores_of_admits hv)
  cases v with
  | utf8 text =>
      cases hp
      exact ⟨.utf8, hkind, rfl⟩
  | blob data =>
      cases hp
      exact ⟨.blob, hkind, rfl⟩
  | _ => cases hp

/-- A value that the column does not admit is refused before anything is written. -/
theorem append_unadmitted (hl : b.schema.locate b.index = .ok (g, p, c))
    (hv : ¬ c.admits v = true) : ∃ cause, b.append v = ⟨b, Outcome.refuse cause⟩ := by
  have hkind : ∀ {type : ColumnType}, v.isUndefined = false → (∀ width, type ≠ .bitmask width) →
      (c.type = type → c.stores v = true) → ¬ c.type.sameKind type = true := by
    intro type hd hb hs hk
    exact hv (Column.admits_of_stores (hs (ColumnType.eq_of_sameKind hk (Or.inr hb))) hd)
  cases v with
  | undefined =>
      have hn : ¬ c.nullable = true := fun hn =>
        hv (by simpa [Column.admits, Column.stores, Value.isUndefined] using hn)
      refine ⟨.nullNotAllowed b.index, ?_⟩
      simp [append, appendNull, column_of_locate hl, hn]
  | number kind word =>
      exact ⟨_, appendFixed_mismatch hl (hkind rfl (by simp) fun ht => decide_eq_true ht)⟩
  | uuid id => exact ⟨_, appendFixed_mismatch hl (hkind rfl (by simp) fun ht => decide_eq_true ht)⟩
  | bitSet bits =>
      rw [append_bitSet hl]
      split
      · rename_i width hw
        have hlen : width.toNat < bits.length := by
          apply Nat.not_le.mp
          intro hle
          refine hv (Column.admits_of_stores ?_ rfl)
          simp only [Column.stores, hw]
          exact decide_eq_true hle
        rw [if_pos hlen]
        exact ⟨_, rfl⟩
      · rename_i hw
        have hk : ¬ c.type.sameKind (.bitmask (UInt32.ofNat bits.length)) = true := by
          intro hk
          rcases ColumnType.sameKind_iff.mp hk with he | ⟨m, _, he, _⟩
          · exact hw _ he
          · exact hw m he
        exact ⟨_, appendFixed_mismatch hl hk⟩
  | utf8 text => exact ⟨_, appendVarlen_mismatch hl (hkind rfl (by simp) fun ht => decide_eq_true ht)⟩
  | blob bytes => exact ⟨_, appendVarlen_mismatch hl (hkind rfl (by simp) fun ht => decide_eq_true ht)⟩

/-! ## 3. Writing into any chunk -/

/-- Whether the chunk has a table entry and room for a text or byte string. Other values need
    neither. -/
def takes (b : Builder) (v : Value) : Prop :=
  ∀ bytes, v.payload? = some bytes →
    b.chunk.written < b.chunk.declared ∧ b.chunk.varlen - b.chunk.start ≤ maxChunkOffset ∧
    b.chunk.varlen + bytes.length ≤ b.buffer.length

theorem length_entry {buffer : List UInt8} (h : offset + entrySize ≤ buffer.length) (relative : Nat) :
    (overwrite buffer offset (LittleEndian.encode entrySize relative)).length = buffer.length :=
  length_overwrite (by rw [LittleEndian.length_encode]; exact h)

/-- Whether a text or byte string can be written: there is an entry for it that can be said and written, and
    room for its bytes. -/
structure Places (b : Builder) (bytes : List UInt8) : Prop where
  declared : b.chunk.written < b.chunk.declared
  offset : b.chunk.varlen - b.chunk.start ≤ maxChunkOffset
  entry : b.chunk.table + b.chunk.written * entrySize + entrySize ≤ b.buffer.length
  room : b.chunk.varlen + bytes.length ≤ b.buffer.length

/-- The bytes of a value of fixed size are written at its column's offset, and then its null map bit. -/
theorem appendFixed_eq (hg : g.LaidOut) (hl : b.schema.locate b.index = .ok (g, p, c))
    (hc : g.columns[p]? = some c) (hf : c.isFixedSize = true) (hk : c.type.sameKind actual = true) :
    b.appendFixed actual bytes =
      b.onward (b.write (b.chunk.fixed + Columns.widths (g.columns.take p)) bytes) fun b =>
      b.onward (b.setDefined p) advance := by
  unfold appendFixed
  simp only [columnOf_of_sameKind hl hk, hg.fixedOffset_eq hc hf, onward_ok]

/-- A text or byte string that can be written comes to its null map bit. -/
theorem appendVarlen_eq (hl : b.schema.locate b.index = .ok (g, p, c))
    (hk : c.type.sameKind actual = true) (h : b.Places bytes) :
    b.appendVarlen actual bytes =
      let chunk := { b.chunk with
        varlen := b.chunk.varlen + bytes.length, written := b.chunk.written + 1 }
      let buffer := overwrite (overwrite b.buffer (b.chunk.table + b.chunk.written * entrySize)
        (LittleEndian.encode entrySize (b.chunk.varlen - b.chunk.start))) b.chunk.varlen bytes
      let b := { b with chunk, buffer }
      b.onward (b.setDefined p) advance := by
  have hlength := LittleEndian.length_encode entrySize (b.chunk.varlen - b.chunk.start)
  have hfirst := length_entry h.entry (b.chunk.varlen - b.chunk.start)
  unfold appendVarlen
  simp only [columnOf_of_sameKind hl hk, onward_ok]
  rw [if_neg (Nat.not_le.mpr h.declared), chunkOffset_of_le h.offset, onward_ok,
    write_of_le (by rw [hlength]; exact h.entry), onward_ok, write_of_le (by rw [hfirst]; exact h.room),
    onward_ok]

/-- What a refused text or byte string leaves of the buffer: the bytes as they were, or with its entry, which
    is written before the room for the bytes is checked. -/
inductive Spoiled (b : Builder) : List UInt8 → Prop
  | same : Spoiled b b.buffer
  | entry (hw : b.chunk.written < b.chunk.declared)
      (hentry : b.chunk.table + b.chunk.written * entrySize + entrySize ≤ b.buffer.length) :
      Spoiled b (overwrite b.buffer (b.chunk.table + b.chunk.written * entrySize)
        (LittleEndian.encode entrySize (b.chunk.varlen - b.chunk.start)))

theorem Spoiled.length_eq {buffer : List UInt8} (h : b.Spoiled buffer) :
    buffer.length = b.buffer.length := by
  cases h with
  | same => rfl
  | entry _ hentry => exact length_entry hentry _

/-- A text or byte string that finds an entry but no room is refused for the bytes that the tuple would have
    to span. -/
theorem appendVarlen_short (hl : b.schema.locate b.index = .ok (g, p, c))
    (hk : c.type.sameKind actual = true) (hw : b.chunk.written < b.chunk.declared)
    (hx : b.chunk.varlen - b.chunk.start ≤ maxChunkOffset)
    (hentry : b.chunk.table + b.chunk.written * entrySize + entrySize ≤ b.buffer.length)
    (hr : b.buffer.length < b.chunk.varlen + bytes.length) :
    ∃ buffer, b.appendVarlen actual bytes = ⟨{ b with buffer := buffer }, Outcome.refuse
        (.capacityExceeded b.index (b.chunk.varlen + bytes.length) b.buffer.length)⟩ ∧
      b.Spoiled buffer := by
  have hlength := LittleEndian.length_encode entrySize (b.chunk.varlen - b.chunk.start)
  have hfirst := length_entry hentry (b.chunk.varlen - b.chunk.start)
  refine ⟨_, ?_, .entry hw hentry⟩
  unfold appendVarlen
  simp only [columnOf_of_sameKind hl hk, onward_ok]
  rw [if_neg (Nat.not_le.mpr hw), chunkOffset_of_le hx, onward_ok,
    write_of_le (by rw [hlength]; exact hentry), onward_ok, write_of_lt (hfirst ▸ hr), onward_refuse]
  simp only [hfirst]

/-- **Every other text or byte string is refused.** -/
theorem appendVarlen_refused (hl : b.schema.locate b.index = .ok (g, p, c))
    (hk : c.type.sameKind actual = true) (h : ¬ b.Places bytes) :
    ∃ buffer cause, b.appendVarlen actual bytes =
        ⟨{ b with buffer := buffer }, Outcome.refuse cause⟩ ∧ b.Spoiled buffer := by
  by_cases hall : b.chunk.written < b.chunk.declared ∧
      b.chunk.varlen - b.chunk.start ≤ maxChunkOffset ∧
      b.chunk.table + b.chunk.written * entrySize + entrySize ≤ b.buffer.length
  · obtain ⟨hw, hx, hentry⟩ := hall
    have hr : b.buffer.length < b.chunk.varlen + bytes.length := by
      apply Nat.not_le.mp
      exact fun hr => h ⟨hw, hx, hentry, hr⟩
    obtain ⟨buffer, happ, hspoiled⟩ := appendVarlen_short hl hk hw hx hentry hr
    exact ⟨buffer, _, happ, hspoiled⟩
  · -- Nothing was written: one of the first three checks failed.
    suffices hsame : ∃ cause, b.appendVarlen actual bytes = ⟨b, Outcome.refuse cause⟩ by
      obtain ⟨cause, happ⟩ := hsame
      exact ⟨b.buffer, cause, happ, .same⟩
    unfold appendVarlen
    simp only [columnOf_of_sameKind hl hk, onward_ok]
    by_cases hw : b.chunk.written < b.chunk.declared
    · rw [if_neg (Nat.not_le.mpr hw)]
      by_cases hx : b.chunk.varlen - b.chunk.start ≤ maxChunkOffset
      · have hentry : b.buffer.length < b.chunk.table + b.chunk.written * entrySize + entrySize := by
          apply Nat.not_le.mp
          exact fun hentry => hall ⟨hw, hx, hentry⟩
        rw [chunkOffset_of_le hx, onward_ok,
          write_of_lt (by rw [LittleEndian.length_encode]; exact hentry), onward_refuse]
        exact ⟨_, rfl⟩
      · rw [chunkOffset_of_lt (Nat.not_le.mp hx), onward_refuse]
        exact ⟨_, rfl⟩
    · rw [if_pos (Nat.not_lt.mp hw)]
      exact ⟨_, rfl⟩

/-! ## 4. Appending to an open chunk -/

section Open

variable (hg : g.LaidOut) (hl : b.schema.locate b.index = .ok (g, vs.length, c))
  (hc : g.columns[vs.length]? = some c) (ho : Chunk.Open g declared before vs b.chunk b.buffer)

include hg hl hc ho

theorem appendFixed_open (hv : c.admits v = true) (hp : v.payload? = none)
    (hd : v.isUndefined = false) (hk : c.type.sameKind actual = true) :
    ∃ buffer, b.appendFixed actual v.fixedBytes = advance { b with buffer := buffer } ∧
      buffer.length = b.buffer.length ∧ Chunk.Open g declared before (vs ++ [v]) b.chunk buffer := by
  have hst := Column.stores_of_admits hv
  have hf := Column.isFixedSize_of_none hst hp hd
  have hroom := ho.slot_le hg hc
  have hle := Column.length_fixedBytes_le hst
  have hmark := ho.mark_lt hg (Chunk.Open.length_lt hc)
  refine ⟨_, ?_, ?_, ho.put_fixed hg hc hv hp hd⟩
  case refine_2 => rw [List.length_modify, length_overwrite (by omega)]
  rw [appendFixed_eq hg hl hc hf hk, write_of_le (by omega), onward_ok,
    setDefined_of_lt (by rw [length_overwrite (by omega)]; exact hmark), onward_ok]

theorem appendVarlen_open (hv : c.admits v = true) (hp : v.payload? = some bytes)
    (hk : c.type.sameKind actual = true) (ht : b.takes v) :
    ∃ chunk buffer, b.appendVarlen actual bytes =
        advance { b with chunk := chunk, buffer := buffer } ∧
      buffer.length = b.buffer.length ∧ Chunk.Open g declared before (vs ++ [v]) chunk buffer := by
  obtain ⟨hw, hx, hr⟩ := ht bytes hp
  have hmark := ho.mark_lt hg (Chunk.Open.length_lt hc)
  have hentry := ho.entry_le hg hw (b.chunk.varlen - b.chunk.start)
  have hover := ho.length_enter hg hw (b.chunk.varlen - b.chunk.start)
  refine ⟨_, _, ?_, ?_, ho.put_payload hg hc hv hp hw hr⟩
  case refine_2 => rw [List.length_modify, length_overwrite (hover ▸ hr), hover]
  rw [LittleEndian.length_encode] at hentry
  rw [appendVarlen_eq hl hk ⟨hw, hx, hentry, hr⟩]
  dsimp only
  rw [setDefined_of_lt (by simp only [length_overwrite (hover ▸ hr), hover, hmark]), onward_ok]

/-- **A value that the column admits and the chunk takes** is added to the row in the bytes that are
    reserved, and the builder advances. -/
theorem append_admitted (hv : c.admits v = true) (ht : b.takes v) :
    ∃ chunk buffer, b.append v = advance { b with chunk := chunk, buffer := buffer } ∧
      buffer.length = b.buffer.length ∧ Chunk.Open g declared before (vs ++ [v]) chunk buffer := by
  cases hp : v.payload? with
  | some bytes =>
      obtain ⟨actual, hk, happ⟩ := append_of_payload hv hp
      rw [happ]
      exact appendVarlen_open hg hl hc ho hv hp hk ht
  | none =>
      cases hd : v.isUndefined with
      | false =>
          obtain ⟨actual, hk, happ⟩ := append_of_fixed hl hv hp hd
          obtain ⟨buffer, hfixed, hroom, hopen⟩ := appendFixed_open hg hl hc ho hv hp hd hk
          exact ⟨b.chunk, buffer, happ.trans hfixed, hroom, hopen⟩
      | true =>
          obtain rfl := Value.eq_undefined hd
          exact ⟨b.chunk, b.buffer, append_null hl hv, rfl, ho.put_null hc hv⟩

omit hl hc in
/-- The chunk has room for every entry that was declared. -/
theorem entry_open (hw : b.chunk.written < b.chunk.declared) :
    b.chunk.table + b.chunk.written * entrySize + entrySize ≤ b.buffer.length := by
  have hentry := ho.entry_le hg hw 0
  rwa [LittleEndian.length_encode] at hentry

omit hl hc in
/-- The entry of a value that was refused changes nothing of the row. -/
theorem Spoiled.open {buffer : List UInt8} (h : b.Spoiled buffer) :
    Chunk.Open g declared before vs b.chunk buffer := by
  cases h with
  | same => exact ho
  | entry hw _ => exact ho.spoiled hg hw (LittleEndian.length_encode _ _)

omit hc in
/-- **A value that finds no room** is refused for the bytes that the tuple would have to span. -/
theorem append_short (hv : c.admits v = true) (hp : v.payload? = some bytes)
    (hw : b.chunk.written < b.chunk.declared)
    (hx : b.chunk.varlen - b.chunk.start ≤ maxChunkOffset)
    (hr : b.buffer.length < b.chunk.varlen + bytes.length) :
    ∃ buffer, b.append v = ⟨{ b with buffer := buffer }, Outcome.refuse
      (.capacityExceeded b.index (b.chunk.varlen + bytes.length) b.buffer.length)⟩ := by
  obtain ⟨actual, hk, happ⟩ := append_of_payload hv hp
  obtain ⟨buffer, hshort, _⟩ := appendVarlen_short hl hk hw hx (entry_open hg ho hw) hr
  exact ⟨buffer, happ.trans hshort⟩

omit hc in
/-- **Every other value is refused**, and the row stays as it is, in as many bytes. -/
theorem append_refused (h : ¬ (c.admits v = true ∧ b.takes v)) :
    ∃ buffer cause, b.append v = ⟨{ b with buffer := buffer }, Outcome.refuse cause⟩ ∧
      buffer.length = b.buffer.length ∧ Chunk.Open g declared before vs b.chunk buffer := by
  by_cases hv : c.admits v = true
  · cases hp : v.payload? with
    | none =>
        refine absurd ⟨hv, fun bytes hbytes => ?_⟩ h
        rw [hp] at hbytes
        cases hbytes
    | some bytes =>
        obtain ⟨actual, hk, happ⟩ := append_of_payload hv hp
        have hroom : ¬ b.Places bytes := by
          intro hplaces
          refine h ⟨hv, fun bytes' hbytes => ?_⟩
          rw [hp] at hbytes
          cases hbytes
          exact ⟨hplaces.declared, hplaces.offset, hplaces.room⟩
        obtain ⟨buffer, cause, hrefused, hspoiled⟩ := appendVarlen_refused hl hk hroom
        exact ⟨buffer, cause, happ.trans hrefused, hspoiled.length_eq, hspoiled.open hg ho⟩
  · obtain ⟨cause, happ⟩ := append_unadmitted hl hv
    exact ⟨b.buffer, cause, happ, rfl, ho⟩

/-- **An append that succeeds** has added its value to the row and advanced. -/
theorem append_taken (h : (b.append v).outcome = .ok ()) :
    ∃ chunk buffer, b.append v = advance { b with chunk := chunk, buffer := buffer } ∧
      buffer.length = b.buffer.length ∧ Chunk.Open g declared before (vs ++ [v]) chunk buffer := by
  by_cases hv : c.admits v = true ∧ b.takes v
  · exact append_admitted hg hl hc ho hv.1 hv.2
  · obtain ⟨buffer, cause, happ, _⟩ := append_refused hg hl ho hv
    rw [happ] at h
    cases h

end Open

/-! ## 5. Appending in any state -/

/-- Two builders that write tuples of one schema and stand at one column. -/
def Beside (b b' : Builder) : Prop :=
  b'.schema = b.schema ∧ b'.index = b.index

theorem write_beside {b' : Builder} (h : b.write offset bytes = .ok b') : b.Beside b' := by
  simp only [write] at h
  split at h
  · cases h
  · cases h
    exact ⟨rfl, rfl⟩

theorem setDefined_beside {b' : Builder} (h : b.setDefined p = .ok b') : b.Beside b' := by
  simp only [setDefined] at h
  split at h
  · cases h
    exact ⟨rfl, rfl⟩
  · cases h

/-- Closing a chunk refuses, or changes bytes. -/
theorem finishChunk_ends (b : Builder) : (∃ cause, b.finishChunk = Outcome.refuse cause) ∨
    ∃ buffer, b.finishChunk = .ok { b with buffer } ∧ buffer.length = b.buffer.length := by
  unfold finishChunk
  split
  · exact Or.inl ⟨_, rfl⟩
  · dsimp only
    rcases Nat.lt_or_ge maxChunkOffset (b.chunk.varlen - b.chunk.start) with hlt | hle
    · rw [chunkOffset_of_lt hlt]
      exact Or.inl ⟨_, rfl⟩
    · rw [chunkOffset_of_le hle, Outcome.ok_bind]
      rcases Nat.lt_or_ge b.buffer.length (b.chunk.start + (LittleEndian.encode entrySize
        (b.chunk.varlen - b.chunk.start)).length) with hlt | hroom
      · rw [write_of_lt hlt]
        exact Or.inl ⟨_, rfl⟩
      · rw [write_of_le hroom]
        exact Or.inr ⟨_, rfl, length_overwrite hroom⟩

theorem finishChunk_beside {b' : Builder} (h : b.finishChunk = .ok b') : b.Beside b' := by
  rcases finishChunk_ends b with ⟨cause, hfin⟩ | ⟨buffer, hfin, _⟩
  · cases hfin.symm.trans h
  · cases hfin.symm.trans h
    exact ⟨rfl, rfl⟩

theorem closeLast_beside : b.Beside b.closeLast.builder := by
  unfold closeLast
  split
  · cases hf : b.finishChunk with
    | error fault => exact ⟨rfl, rfl⟩
    | ok b' => exact finishChunk_beside hf
  · exact ⟨rfl, rfl⟩

/-- An advance moves the index by one, whether or not the chunk can be closed. -/
theorem advance_beside : Beside { b with index := b.index + 1 } b.advance.builder := by
  unfold advance
  dsimp only
  split
  · cases hf : finishChunk { b with index := b.index + 1 } with
    | error fault => exact ⟨rfl, rfl⟩
    | ok b' =>
        obtain ⟨hs, hi⟩ := finishChunk_beside hf
        rw [onward_ok]
        cases Chunk.begin b'.chunk.varlen b'.schema.value b'.valueDeclared with
        | error fault => exact ⟨hs, hi⟩
        | ok chunk =>
            rw [onward_ok]
            split
            · exact ⟨hs, hi⟩
            · obtain ⟨hs', hi'⟩ := closeLast_beside (b := { b' with chunk := chunk })
              exact ⟨hs'.trans hs, hi'.trans hi⟩
  · exact closeLast_beside

/-- An append to `b` that faults at the column it began with, or advances from there. -/
def Ends (b : Builder) (step : Step TupleError) : Prop :=
  ∃ b', b.Beside b' ∧ ((∃ fault, step = ⟨b', .error fault⟩) ∨ step = b'.advance)

theorem Ends.fault (fault : Fault TupleError) : b.Ends ⟨b, .error fault⟩ :=
  ⟨b, ⟨rfl, rfl⟩, Or.inl ⟨fault, rfl⟩⟩

theorem Ends.from {b' : Builder} {step : Step TupleError} (hb : b.Beside b') (h : b'.Ends step) :
    b.Ends step := by
  obtain ⟨b'', ⟨hs, hi⟩, h⟩ := h
  exact ⟨b'', ⟨hs.trans hb.1, hi.trans hb.2⟩, h⟩

theorem Ends.onward {α : Type} {outcome : Outcome TupleError α} {next : α → Step TupleError}
    (h : ∀ a, outcome = .ok a → b.Ends (next a)) : b.Ends (b.onward outcome next) := by
  cases outcome with
  | error fault => exact Ends.fault fault
  | ok a => exact h a rfl

theorem Ends.advance : b.Ends b.advance :=
  ⟨b, ⟨rfl, rfl⟩, Or.inr rfl⟩

theorem Ends.mark : b.Ends (b.onward (b.setDefined p) Builder.advance) :=
  Ends.onward fun _ h => Ends.from (setDefined_beside h) Ends.advance

theorem appendFixed_ends : b.Ends (b.appendFixed actual bytes) :=
  Ends.onward fun _ _ => Ends.onward fun _ _ => Ends.onward fun _ hw =>
    Ends.from (write_beside hw) Ends.mark

theorem appendVarlen_ends : b.Ends (b.appendVarlen actual bytes) := by
  refine Ends.onward fun located _ => ?_
  dsimp only
  split
  · exact Ends.fault _
  · refine Ends.onward fun relative _ => Ends.onward fun b₁ h₁ => ?_
    refine Ends.from (write_beside h₁) (Ends.onward fun b₂ h₂ => ?_)
    have h₃ : b₂.Beside { b₂ with chunk := { b₂.chunk with
        varlen := b₂.chunk.varlen + bytes.length, written := b₂.chunk.written + 1 } } := ⟨rfl, rfl⟩
    exact Ends.from (write_beside h₂) (Ends.from h₃ Ends.mark)

/-- **An append either faults at the column it began with or advances by one.** -/
theorem append_ends (b : Builder) (v : Value) : b.Ends (b.append v) := by
  cases v with
  | undefined =>
      refine Ends.onward fun located _ => ?_
      dsimp only
      split
      · exact Ends.advance
      · exact Ends.fault _
  | number kind word => exact appendFixed_ends
  | uuid id => exact appendFixed_ends
  | bitSet bits =>
      refine Ends.onward fun located _ => ?_
      dsimp only
      split
      · split
        · exact Ends.fault _
        · exact appendFixed_ends
      · exact appendFixed_ends
  | utf8 text => exact appendVarlen_ends
  | blob bytes => exact appendVarlen_ends

/-- An append leaves the index where it is, with a fault, or moves it by one. -/
theorem index_append (b : Builder) (v : Value) :
    ((b.append v).builder.index = b.index ∧ (b.append v).outcome ≠ .ok ()) ∨
      (b.append v).builder.index = b.index + 1 := by
  obtain ⟨b', ⟨_, hi⟩, ⟨fault, h⟩ | h⟩ := append_ends b v
  · rw [h]
    exact Or.inl ⟨hi, by simp⟩
  · rw [h, (advance_beside (b := b')).2]
    exact Or.inr (congrArg (· + 1) hi)

theorem index_append_of_ok (h : (b.append v).outcome = .ok ()) :
    (b.append v).builder.index = b.index + 1 := by
  rcases index_append b v with ⟨_, hne⟩ | hi
  · exact absurd h hne
  · exact hi

theorem index_append_of_moved (h : (b.append v).builder.index ≠ b.index) :
    (b.append v).builder.index = b.index + 1 := by
  rcases index_append b v with ⟨he, _⟩ | hi
  · exact absurd he h
  · exact hi

theorem le_index_append (b : Builder) (v : Value) : b.index ≤ (b.append v).builder.index := by
  rcases index_append b v with ⟨hi, _⟩ | hi
  · exact Nat.le_of_eq hi.symm
  · exact Nat.le_of_lt (Nat.lt_of_lt_of_eq (Nat.lt_succ_self _) hi.symm)

theorem schema_append (b : Builder) (v : Value) : (b.append v).builder.schema = b.schema := by
  obtain ⟨b', ⟨hs, _⟩, ⟨fault, h⟩ | h⟩ := append_ends b v
  · rw [h, ← hs]
  · rw [h, (advance_beside (b := b')).1, ← hs]

/-! ## 6. Appending a list -/

theorem appendAll_of_ok {rest : List Value} (h : (b.append v).outcome = .ok ()) :
    b.appendAll (v :: rest) = (b.append v).builder.appendAll rest := by
  conv => lhs; unfold appendAll
  simp only [h]

theorem appendAll_of_error {rest : List Value} {fault : Fault TupleError}
    (h : (b.append v).outcome = .error fault) :
    b.appendAll (v :: rest) = ⟨(b.append v).builder, .error fault⟩ := by
  unfold appendAll
  simp only [h]

/-- A list that is appended begins with an append that succeeds. -/
theorem of_appendAll_ok {rest : List Value} (h : (b.appendAll (v :: rest)).outcome = .ok ()) :
    (b.append v).outcome = .ok () ∧ b.appendAll (v :: rest) = (b.append v).builder.appendAll rest := by
  cases hv : (b.append v).outcome with
  | error fault =>
      rw [appendAll_of_error hv] at h
      cases h
  | ok u => exact ⟨rfl, appendAll_of_ok hv⟩

theorem appendAll_singleton (b : Builder) (v : Value) : b.appendAll [v] = b.append v := by
  cases hv : b.append v with
  | mk b' outcome =>
      cases outcome with
      | error fault => rw [appendAll_of_error (by rw [hv]), hv]
      | ok u =>
          rw [appendAll_of_ok (by rw [hv]), hv]
          rfl

/-- Appending goes on from where a first part ended. -/
theorem appendAll_append : ∀ {ks vs : List Value} {b b' : Builder},
    b.appendAll ks = ⟨b', .ok ()⟩ → b.appendAll (ks ++ vs) = b'.appendAll vs
  | [], _, _, _, h => by
      cases h
      rfl
  | k :: rest, vs, b, b', h => by
      obtain ⟨hk, hrest⟩ := of_appendAll_ok (congrArg Step.outcome h)
      rw [hrest] at h
      rw [List.cons_append, appendAll_of_ok hk]
      exact appendAll_append h

/-- A fault ends the appending, whatever was to come. -/
theorem appendAll_append_of_error : ∀ {ks vs : List Value} {b b' : Builder} {fault : Fault TupleError},
    b.appendAll ks = ⟨b', .error fault⟩ → b.appendAll (ks ++ vs) = ⟨b', .error fault⟩
  | [], _, _, _, _, h => by cases h
  | k :: rest, vs, b, b', fault, h => by
      cases hk : (b.append k).outcome with
      | error own =>
          rw [appendAll_of_error hk] at h
          rw [List.cons_append, appendAll_of_error hk, h]
      | ok u =>
          rw [appendAll_of_ok hk] at h
          rw [List.cons_append, appendAll_of_ok hk]
          exact appendAll_append_of_error h

end Builder

end RowCodec
