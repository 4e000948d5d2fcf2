import RowCodec.Proofs.Tuple.Writing

/-!
# Builders with the right counts

A builder that was told how many texts and byte strings its row has, but whose buffer may have any size.
Nothing but room can be missing, and what is missing is reported.

* `Schema.Bounded` -- a row whose chunks have lengths that a 32-bit word can say; `Schema.rowBytes` is the
  size of its tuple.
* `Step.Room` -- a step that goes on, or is refused because the tuple would have to span more bytes than
  there are, though not more than the row takes.
* `Builder.Counted` -- the builder has the row's counts and has taken its first values.
* `Counted.append` -- **the next value is added or finds no room**; `Counted.appendAll` says so of the
  whole row, and `Counted.of_new` of the builder it starts with.
-/

namespace RowCodec

/-! ## 1. Sizes -/

/-- One value a column, and a chunk whose length is a 32-bit word. -/
structure Columns.Bounded (g : Columns) (row : List Value) : Prop where
  length_eq : row.length = g.length
  chunk_le : g.chunkBytes (rowStatistic row) ≤ maxChunkOffset

/-- The size of what stands before the value's chunk. -/
theorem Columns.Fits.length_before {s : Schema} {ks : List Value} (hs : s.Sound) (h : s.key.Fits ks) :
    (s.fingerprint.toBytes ++ s.key.encode ks).length =
      Fingerprint.size + s.key.chunkBytes (rowStatistic ks) := by
  rw [List.length_append, length_encode hs.key h.admits.stores h.length_eq]
  exact congrArg (· + _) (LittleEndian.length_encode _ _)

namespace Schema

/-- Each group of the schema has its part of the row, in a chunk of a length that can be said. -/
structure Bounded (s : Schema) (row : List Value) : Prop where
  key : s.key.Bounded (row.take s.key.length)
  value : s.value.Bounded (row.drop s.key.length)

/-- The size of a row's tuple. -/
def rowBytes (s : Schema) (row : List Value) : Nat :=
  s.tupleBytes (rowStatistic (row.take s.key.length)) (rowStatistic (row.drop s.key.length))

variable {s : Schema} {row : List Value} {p : Nat}

theorem Fits.length_encode (hs : s.Sound) (h : s.Fits row) :
    (s.encode row).length = s.rowBytes row := by
  have hv := Columns.length_encode hs.value h.value.admits.stores h.value.length_eq
  unfold encode
  rw [List.length_append, h.key.length_before hs, hv]
  rfl

theorem Bounded.length_eq (h : s.Bounded row) : row.length = s.length := by
  have hk := h.key.length_eq
  have hv := h.value.length_eq
  rw [List.length_take] at hk
  rw [List.length_drop] at hv
  unfold length
  omega

theorem Fits.to_bounded (hs : s.Sound) (h : s.Fits row) : s.Bounded row := by
  refine ⟨⟨h.key.length_eq, ?_⟩, ⟨h.value.length_eq, ?_⟩⟩
  · rw [← Columns.length_encode hs.key h.key.admits.stores h.key.length_eq]
    exact h.key.bounded
  · rw [← Columns.length_encode hs.value h.value.admits.stores h.value.length_eq]
    exact h.value.bounded

theorem Bounded.of_length (h : row.length = s.length)
    (hk : s.key.chunkBytes (rowStatistic (row.take s.key.length)) ≤ maxChunkOffset)
    (hv : s.value.chunkBytes (rowStatistic (row.drop s.key.length)) ≤ maxChunkOffset) :
    s.Bounded row := by
  unfold length at h
  refine ⟨⟨?_, hk⟩, ⟨?_, hv⟩⟩
  · rw [List.length_take]
    omega
  · rw [List.length_drop]
    omega

theorem Bounded.append {ks vs : List Value} (hk : s.key.Bounded ks) (hv : s.value.Bounded vs) :
    s.Bounded (ks ++ vs) := by
  refine ⟨?_, ?_⟩
  · rw [List.take_left' hk.length_eq]
    exact hk
  · rw [List.drop_left' hk.length_eq]
    exact hv

theorem Bounded.key_le (h : s.Bounded row) : s.key.length ≤ row.length := by
  rw [h.length_eq]
  exact Nat.le_add_right _ _

/-- A row within the bounds makes a tuple far below the largest buffer. -/
theorem Bounded.rowBytes_le (h : s.Bounded row) :
    s.rowBytes row ≤ Fingerprint.size + maxChunkOffset + maxChunkOffset :=
  Nat.add_le_add (Nat.add_le_add_left h.key.chunk_le _) h.value.chunk_le

/-- A buffer of the row's size can be had. -/
theorem Bounded.rowBytes_le_max (h : s.Bounded row) : s.rowBytes row ≤ maxBufferSize :=
  Nat.le_trans h.rowBytes_le (by decide)

/-- The size is a 64-bit word. -/
theorem Bounded.tupleSize {ε : Type} (h : s.Bounded row) :
    s.tupleSize (ε := ε) (rowStatistic (row.take s.key.length))
      (rowStatistic (row.drop s.key.length)) = .ok (s.rowBytes row) :=
  if_pos (Nat.lt_of_le_of_lt h.rowBytes_le (by decide))

/-- Each column below an index takes its value. -/
def TakesBelow (s : Schema) (row : List Value) (n : Nat) : Prop :=
  ∀ (i : Nat) (c : Column) (v : Value), i < n → s.column? i = some c → row[i]? = some v →
    c.admits v = true

theorem Fits.takesBelow (h : s.Fits row) (n : Nat) : s.TakesBelow row n := by
  intro i c v _ hc hv
  rcases column?_cases hc with ⟨hi, hd⟩ | ⟨p, rfl, hd⟩
  · exact h.key.admits i c v hd (by rwa [List.getElem?_take_of_lt hi])
  · exact h.value.admits p c v hd (by rwa [List.getElem?_drop])

end Schema

/-! ## 2. Room -/

/-- **A step goes on, or finds no room**: it ends well in a builder of which `after` holds, or is refused
    because it needs more than the `size` bytes that there are, and at most `need`. -/
inductive Step.Room (size need : Nat) (after : Builder → Prop) : Step TupleError → Prop
  | goes {b : Builder} (h : after b) : Room size need after ⟨b, .ok ()⟩
  | exceeds {b : Builder} {index required : Nat} (hs : size < required) (hn : required ≤ need) :
      Room size need after ⟨b, Outcome.refuse (.capacityExceeded index required size)⟩

namespace Step.Room

variable {size need : Nat} {after : Builder → Prop} {step : Step TupleError}

theorem imp {later : Builder → Prop} (h : step.Room size need after) (hi : ∀ b, after b → later b) :
    step.Room size need later := by
  cases h with
  | goes h => exact .goes (hi _ h)
  | exceeds hs hn => exact .exceeds hs hn

/-- Where there is room for everything, a step goes on. -/
theorem goes_of_le (h : step.Room size need after) (hle : need ≤ size) :
    ∃ b, step = ⟨b, .ok ()⟩ ∧ after b := by
  cases h with
  | goes h => exact ⟨_, rfl, h⟩
  | exceeds hs hn => exact absurd (Nat.lt_of_lt_of_le hs (Nat.le_trans hn hle)) (Nat.lt_irrefl _)

end Step.Room

/-! ## 3. Closing and beginning chunks -/

namespace Builder

variable {b : Builder} {s : Schema} {row vs part : List Value} {v : Value} {g : Columns} {c : Column}
  {before bytes : List UInt8} {size : Nat}

/-- The chunk of a part of the row has an entry for each text and byte string of it, and none of them ends
    behind the chunk. -/
theorem entry_of_open (ho : Chunk.Open g (payloads part).length before vs b.chunk b.buffer)
    (hv : vs ++ [v] <+: part) (hmax : g.chunkBytes (rowStatistic part) ≤ maxChunkOffset)
    (hp : v.payload? = some bytes) :
    b.chunk.written < b.chunk.declared ∧ b.chunk.varlen - b.chunk.start ≤ maxChunkOffset ∧
      b.chunk.varlen + bytes.length ≤ before.length + g.chunkBytes (rowStatistic part) := by
  obtain ⟨rest, rfl⟩ := hv
  have hpart : payloads (vs ++ [v] ++ rest) = payloads vs ++ [bytes] ++ payloads rest := by
    rw [payloads_append, payloads_append_of_some hp]
  have hbytes : (payloads (vs ++ [v] ++ rest)).flatten.length =
      (payloads vs).flatten.length + bytes.length + (payloads rest).flatten.length := by
    rw [hpart]
    simp only [List.flatten_append, List.length_append, List.flatten_singleton]
  have hsize : g.chunkBytes (rowStatistic (vs ++ [v] ++ rest)) =
      g.staticSize (payloads (vs ++ [v] ++ rest)).length
        + (payloads (vs ++ [v] ++ rest)).flatten.length := rfl
  have hcount : (payloads vs).length < (payloads (vs ++ [v] ++ rest)).length := by
    rw [hpart]
    simp only [List.length_append, List.length_singleton]
    omega
  have hvar : b.chunk.varlen = before.length
      + (g.staticSize (payloads (vs ++ [v] ++ rest)).length + (payloads vs).flatten.length) := by
    rw [ho.chunk_eq, Chunk.varlen_after]
  have hstart : b.chunk.start = before.length := by
    rw [ho.chunk_eq]
    rfl
  refine ⟨?_, by omega, by omega⟩
  rw [ho.chunk_eq]
  exact hcount

/-- **The chunk of a whole part can be closed.** -/
theorem finishChunk_full (hg : g.LaidOut)
    (ho : Chunk.Open g (payloads part).length before part b.chunk b.buffer)
    (hb : g.Bounded part) :
    ∃ buffer, b.finishChunk = .ok { b with buffer := buffer } ∧
      buffer.length = b.buffer.length := by
  have hw : b.chunk.written = b.chunk.declared := by
    rw [ho.chunk_eq]
    rfl
  obtain ⟨hvar, room, hover, hroom⟩ := ho.close hg hb.length_eq hw
  have hlen := Columns.length_encode hg ho.admits.stores hb.length_eq
  have hmax := hb.chunk_le
  have hhead : chunkHeaderSize ≤ (g.encode part).length := by
    unfold Columns.encode
    rw [List.length_append, LittleEndian.length_encode]
    exact Nat.le_add_right _ _
  have hle : b.chunk.start + (LittleEndian.encode entrySize
      (b.chunk.varlen - b.chunk.start)).length ≤ b.buffer.length := by
    rw [LittleEndian.length_encode]
    unfold entrySize
    unfold chunkHeaderSize at hhead
    omega
  refine ⟨_, ?_, length_overwrite hle⟩
  unfold finishChunk
  rw [if_neg (fun h => h hw), chunkOffset_of_le (by omega), Outcome.ok_bind, write_of_le hle]

/-- Inside the value's chunk nothing is closed, and behind its last column the chunk is full. -/
theorem closeLast_full (hs : s.Sound) (hb : s.Bounded row) {buffer : List UInt8} {chunk : Chunk}
    {index : Nat} (valueDeclared : Nat) (hi : index = s.key.length + vs.length)
    (ho : Chunk.Open s.value (payloads (row.drop s.key.length)).length before vs chunk buffer)
    (hv : vs <+: row.drop s.key.length) :
    ∃ b', closeLast ⟨s, buffer, index, chunk, valueDeclared⟩ = ⟨b', .ok ()⟩ ∧
      b'.buffer.length = buffer.length := by
  have hlen := hb.value.length_eq
  unfold closeLast
  by_cases hlast : vs.length = s.value.length
  · obtain rfl : vs = row.drop s.key.length := hv.eq_of_length (hlast.trans hlen.symm)
    have hend : index = s.length := hi.trans (congrArg (s.key.length + ·) hlast)
    obtain ⟨buffer', hfin, hroom⟩ := finishChunk_full (b := ⟨s, buffer, index, chunk, valueDeclared⟩)
      hs.value ho hb.value
    rw [if_pos hend, hfin]
    exact ⟨_, rfl, hroom⟩
  · have hend : ¬ index = s.length := by
      unfold Schema.length
      omega
    rw [if_neg hend]
    exact ⟨_, rfl, rfl⟩

/-- The key's chunk can be laid out, within the size of the tuple. -/
theorem begin_key_full (hb : s.Bounded row) :
    Chunk.begin Fingerprint.size s.key (payloads (row.take s.key.length)).length =
        .ok (Chunk.layOut Fingerprint.size s.key (payloads (row.take s.key.length)).length) ∧
      (Chunk.layOut Fingerprint.size s.key (payloads (row.take s.key.length)).length).varlen ≤
        s.rowBytes row := by
  have hstatic : s.key.staticSize (payloads (row.take s.key.length)).length ≤
      s.key.chunkBytes (rowStatistic (row.take s.key.length)) := Nat.le_add_right _ _
  have hvar : (Chunk.layOut Fingerprint.size s.key
      (payloads (row.take s.key.length)).length).varlen ≤ s.rowBytes row := by
    rw [Chunk.varlen_layOut]
    exact Nat.le_trans (Nat.add_le_add_left hstatic _) (Nat.le_add_right _ _)
  exact ⟨if_pos (Nat.lt_of_le_of_lt hvar (Nat.lt_of_le_of_lt hb.rowBytes_le (by decide))), hvar⟩

/-- Behind the finished key the value's chunk can be laid out, and lies open if it is within the buffer. -/
theorem begin_full (hs : s.Sound) (hb : s.Bounded row) (hk : s.key.Fits (row.take s.key.length))
    {buffer : List UInt8} {room : Nat}
    (hbefore : before = s.fingerprint.toBytes ++ s.key.encode (row.take s.key.length))
    (hbuffer : buffer = before ++ List.replicate room 0) :
    ∃ chunk, Chunk.begin before.length s.value (payloads (row.drop s.key.length)).length =
        .ok chunk ∧ chunk.varlen ≤ s.rowBytes row ∧ (chunk.varlen ≤ buffer.length →
      Chunk.Open s.value (payloads (row.drop s.key.length)).length before [] chunk buffer) := by
  have hstart : before.length =
      Fingerprint.size + s.key.chunkBytes (rowStatistic (row.take s.key.length)) := by
    rw [hbefore, hk.length_before hs]
  have hstatic : s.value.staticSize (payloads (row.drop s.key.length)).length ≤
      s.value.chunkBytes (rowStatistic (row.drop s.key.length)) := Nat.le_add_right _ _
  have hle : (Chunk.layOut before.length s.value (payloads (row.drop s.key.length)).length).varlen ≤
      s.rowBytes row := by
    rw [Chunk.varlen_layOut, hstart]
    exact Nat.add_le_add_left hstatic _
  have hword : s.rowBytes row < wordLimit := Nat.lt_of_le_of_lt hb.rowBytes_le (by decide)
  exact ⟨_, if_pos (Nat.lt_of_le_of_lt hle hword), hle, Chunk.Open.start hs.value hbuffer⟩

/-- Behind the key's last column its chunk is closed, and the value's begun if there is room for its
    static part. -/
theorem advance_room (hs : s.Sound) (hb : s.Bounded row) {buffer : List UInt8} {chunk : Chunk}
    {index : Nat} (hi : index + 1 = vs.length)
    (ho : Chunk.Open s.key (payloads (row.take s.key.length)).length s.fingerprint.toBytes vs chunk
      buffer)
    (hv : vs <+: row.take s.key.length) :
    (advance ⟨s, buffer, index, chunk, (payloads (row.drop s.key.length)).length⟩).Room
      buffer.length (s.rowBytes row) fun b' => b'.buffer.length = buffer.length := by
  have hlen := hb.key.length_eq
  have hle := hv.length_le
  unfold advance
  dsimp only
  by_cases hlast : index + 1 = s.key.length
  · obtain rfl : vs = row.take s.key.length := hv.eq_of_length (by omega)
    obtain ⟨buffer', hfin, hroom'⟩ := finishChunk_full
      (b := ⟨s, buffer, index + 1, chunk, (payloads (row.drop s.key.length)).length⟩) hs.key ho hb.key
    obtain ⟨hfits, hvar, room, hclosed⟩ := finishChunk_open hs.key ho hlen hfin
    obtain ⟨next, hbegin, hneed, hopen⟩ := begin_full hs hb hfits rfl
      (congrArg Builder.buffer hclosed)
    dsimp only at hvar hroom' hopen
    rw [if_pos hlast, hfin, onward_ok]
    dsimp only
    rw [hvar, hbegin, onward_ok]
    by_cases hnext : next.varlen ≤ buffer'.length
    · obtain ⟨b', hlast', hlength⟩ := closeLast_full hs hb (payloads (row.drop s.key.length)).length
        (hlast.trans (Nat.add_zero _).symm) (hopen hnext) List.nil_prefix
      rw [if_neg (Nat.not_lt.mpr hnext), hlast']
      exact .goes (hlength.trans hroom')
    · rw [if_pos (Nat.not_le.mp hnext), hroom']
      exact .exceeds (hroom' ▸ Nat.not_le.mp hnext) hneed
  · -- A column before the key's last: the chunk stays open.
    unfold closeLast
    have hend : ¬ index + 1 = s.length := by
      unfold Schema.length
      omega
    rw [if_neg hlast, if_neg hend]
    exact .goes rfl

/-! ## 4. Appending -/

/-- A value that the next column of the open chunk admits is added, or finds no room behind the others. -/
theorem append_room (hg : g.LaidOut) (hl : b.schema.locate b.index = .ok (g, vs.length, c))
    (hc : g.columns[vs.length]? = some c)
    (ho : Chunk.Open g (payloads part).length before vs b.chunk b.buffer) (hv : vs ++ [v] <+: part)
    (ha : c.admits v = true) (hmax : g.chunkBytes (rowStatistic part) ≤ maxChunkOffset) {need : Nat}
    (hneed : before.length + g.chunkBytes (rowStatistic part) ≤ need) {after : Builder → Prop}
    (hadvance : ∀ (chunk : Chunk) (buffer : List UInt8), buffer.length = b.buffer.length →
      Chunk.Open g (payloads part).length before (vs ++ [v]) chunk buffer →
        (advance { b with chunk := chunk, buffer := buffer }).Room b.buffer.length need after) :
    (b.append v).Room b.buffer.length need after := by
  by_cases ht : b.takes v
  · obtain ⟨chunk, buffer, happ, hlength, hopen⟩ := append_admitted hg hl hc ho ha ht
    rw [happ]
    exact hadvance chunk buffer hlength hopen
  · obtain ⟨bytes, hp, hno⟩ : ∃ bytes, v.payload? = some bytes ∧
        ¬ b.chunk.varlen + bytes.length ≤ b.buffer.length := by
      unfold takes at ht
      simp only [not_forall] at ht
      obtain ⟨bytes, hp, hno⟩ := ht
      obtain ⟨hw, hx, _⟩ := entry_of_open ho hv hmax hp
      exact ⟨bytes, hp, fun hr => hno ⟨hw, hx, hr⟩⟩
    obtain ⟨hw, hx, hle⟩ := entry_of_open ho hv hmax hp
    obtain ⟨buffer, happ⟩ := append_short hg hl ho ha hp hw hx (Nat.not_le.mp hno)
    rw [happ]
    exact .exceeds (Nat.not_le.mp hno) (Nat.le_trans hle hneed)

/-- A value that the key's next column admits is added or finds no room. -/
theorem append_key_room (hs : s.Sound) (hb : s.Bounded row) {buffer : List UInt8} {chunk : Chunk}
    (ho : Chunk.Open s.key (payloads (row.take s.key.length)).length s.fingerprint.toBytes vs chunk
      buffer)
    (hv : vs ++ [v] <+: row) (hc : s.key.columns[vs.length]? = some c) (ha : c.admits v = true) :
    (append ⟨s, buffer, vs.length, chunk, (payloads (row.drop s.key.length)).length⟩ v).Room
      buffer.length (s.rowBytes row) fun b' => b'.buffer.length = buffer.length := by
  have hpart : vs ++ [v] <+: row.take s.key.length :=
    List.prefix_take_iff.mpr ⟨hv, Chunk.Open.length_append_le hc⟩
  have hneed : s.fingerprint.toBytes.length
      + s.key.chunkBytes (rowStatistic (row.take s.key.length)) ≤ s.rowBytes row := by
    rw [s.fingerprint.length_toBytes]
    exact Nat.le_add_right _ _
  have hnext : vs.length + 1 = (vs ++ [v]).length := by rw [List.length_append]; rfl
  refine append_room
    (b := ⟨s, buffer, vs.length, chunk, (payloads (row.drop s.key.length)).length⟩) hs.key
    (Schema.locate_key hc) hc ho hpart ha hb.key.chunk_le hneed fun chunk' buffer' hlength hopen => ?_
  have hadvance := advance_room hs hb hnext hopen hpart
  rwa [hlength] at hadvance

/-- A value that the value's next column admits is added or finds no room. -/
theorem append_value_room (hs : s.Sound) (hb : s.Bounded row)
    (hk : s.key.Fits (row.take s.key.length)) {buffer : List UInt8} {chunk : Chunk}
    (ho : Chunk.Open s.value (payloads (row.drop s.key.length)).length
      (s.fingerprint.toBytes ++ s.key.encode (row.take s.key.length)) vs chunk buffer)
    (hpart : vs ++ [v] <+: row.drop s.key.length) (hc : s.value.columns[vs.length]? = some c)
    (ha : c.admits v = true) :
    (append ⟨s, buffer, s.key.length + vs.length, chunk,
        (payloads (row.drop s.key.length)).length⟩ v).Room
      buffer.length (s.rowBytes row) fun b' => b'.buffer.length = buffer.length := by
  have hneed : (s.fingerprint.toBytes ++ s.key.encode (row.take s.key.length)).length
      + s.value.chunkBytes (rowStatistic (row.drop s.key.length)) ≤ s.rowBytes row := by
    rw [hk.length_before hs]
    exact Nat.le_refl _
  have hnext : s.key.length + vs.length + 1 = s.key.length + (vs ++ [v]).length := by
    rw [List.length_append, Nat.add_assoc]
    rfl
  have hkey : ¬ s.key.length + vs.length + 1 = s.key.length := by omega
  refine append_room (b := ⟨s, buffer, s.key.length + vs.length, chunk,
      (payloads (row.drop s.key.length)).length⟩) hs.value (Schema.locate_value hc) hc ho hpart ha
    hb.value.chunk_le hneed fun chunk' buffer' hlength hopen => ?_
  obtain ⟨b', hclose, hlength'⟩ := closeLast_full hs hb (payloads (row.drop s.key.length)).length
    hnext hopen hpart
  have hadvance : advance ⟨s, buffer', s.key.length + vs.length, chunk',
      (payloads (row.drop s.key.length)).length⟩ = ⟨b', .ok ()⟩ :=
    (if_neg hkey).trans hclose
  rw [hadvance]
  exact .goes (hlength'.trans hlength)

/-! ## 5. Builders for a row -/

/-- A builder that has taken a whole row has finished both chunks. -/
theorem Wrote.finished {keyDeclared valueDeclared : Nat}
    (h : Wrote s keyDeclared valueDeclared b vs) (hlen : vs.length = s.length) :
    ∃ (chunk : Chunk) (room : Nat), s.Fits vs ∧ chunk.varlen = (s.encode vs).length ∧
      b = ⟨s, s.encode vs ++ List.replicate room 0, s.length, chunk, valueDeclared⟩ := by
  unfold Schema.length at hlen
  cases h with
  | key hl ho => omega
  | value hk hl ho =>
      rw [List.length_append, hk.length_eq] at hlen
      omega
  | done room hf hc => exact ⟨_, room, hf, hc, rfl⟩

/-- The builder has the row's counts and `size` bytes, and has taken the row's first values. -/
structure Counted (s : Schema) (row : List Value) (size : Nat) (b : Builder) (vs : List Value) :
    Prop where
  wrote : Wrote s (payloads (row.take s.key.length)).length
    (payloads (row.drop s.key.length)).length b vs
  room : b.buffer.length = size
  begins : vs <+: row

namespace Counted

/-- A builder with the row's counts can be made, unless the key's static part does not fit. -/
theorem of_new (hs : s.Sound) (hb : s.Bounded row) (hsize : size ≤ maxBufferSize) :
    (∃ b, Builder.new s size (payloads (row.take s.key.length)).length
        (payloads (row.drop s.key.length)).length = .ok b ∧ Counted s row size b []) ∨
      ∃ required, Builder.new s size (payloads (row.take s.key.length)).length
        (payloads (row.drop s.key.length)).length =
          Outcome.refuse (.capacityExceeded 0 required size) ∧
        size < required ∧ required ≤ s.rowBytes row := by
  obtain ⟨hbegin, hvar⟩ := begin_key_full hb
  by_cases hfull : (Chunk.layOut Fingerprint.size s.key
      (payloads (row.take s.key.length)).length).varlen ≤ size
  · have hnew : ∃ b, Builder.new s size (payloads (row.take s.key.length)).length
        (payloads (row.drop s.key.length)).length = .ok b ∧ b.buffer.length = size := by
      unfold Builder.new
      rw [hbegin, Outcome.ok_bind, if_neg (Nat.not_lt.mpr hfull), if_neg (Nat.not_lt.mpr hsize)]
      refine ⟨_, rfl, ?_⟩
      show (s.fingerprint.toBytes ++ List.replicate (size - Fingerprint.size) 0).length = _
      have hprint := s.fingerprint.length_toBytes
      rw [Chunk.varlen_layOut] at hfull
      rw [List.length_append, List.length_replicate, hprint]
      omega
    obtain ⟨b, hb', hroom⟩ := hnew
    exact Or.inl ⟨b, hb', Wrote.of_new hs hb', hroom, List.nil_prefix⟩
  · refine Or.inr ⟨_, ?_, Nat.not_le.mp hfull, hvar⟩
    unfold Builder.new
    rw [hbegin, Outcome.ok_bind, if_pos (Nat.not_le.mp hfull)]

theorem begins_append (h : Counted s row size b vs) (hv : row[vs.length]? = some v) :
    vs ++ [v] <+: row := by
  obtain ⟨rest, rfl⟩ := h.begins
  rw [List.getElem?_append_right (Nat.le_refl _), Nat.sub_self] at hv
  cases rest with
  | nil => cases hv
  | cons w rest =>
      cases hv
      exact ⟨rest, by rw [List.append_assoc]; rfl⟩

/-- **The next value is added or finds no room**, if its column admits it. -/
theorem append (hs : s.Sound) (hb : s.Bounded row) (h : Counted s row size b vs)
    (hv : row[vs.length]? = some v) (hc : s.column? vs.length = some c) (ha : c.admits v = true) :
    (b.append v).Room size (s.rowBytes row) fun b' => Counted s row size b' (vs ++ [v]) := by
  have hnext := h.begins_append hv
  have hroom := h.room
  suffices hlength : (b.append v).Room size (s.rowBytes row) fun b' => b'.buffer.length = size by
    have hwrote := h.wrote.append_ok (v := v) hs
    cases hstep : b.append v with
    | mk b' outcome =>
        rw [hstep] at hlength hwrote
        cases hlength with
        | goes hlength => exact .goes ⟨hwrote rfl, hlength, hnext⟩
        | exceeds hs hn => exact .exceeds hs hn
  subst hroom
  cases h.wrote with
  | key hl ho =>
      rw [Schema.column?_key hl] at hc
      exact append_key_room hs hb ho hnext hc ha
  | @value buffer chunk ks vs hk hl ho =>
      obtain ⟨rest, hrest⟩ := hnext
      rw [List.append_assoc, List.append_assoc] at hrest
      have hkey : ks = row.take s.key.length := by rw [← hrest, List.take_left' hk.length_eq]
      have hpart : vs ++ [v] <+: row.drop s.key.length :=
        ⟨rest, by rw [← hrest, List.drop_left' hk.length_eq, List.append_assoc]⟩
      rw [List.length_append, hk.length_eq, Schema.column?_value] at hc
      rw [hkey] at hk ho
      exact append_value_room hs hb hk ho hpart hc ha
  | done room hf _ =>
      have hlt := (List.getElem?_eq_some_iff.mp hv).1
      rw [hf.length_eq, hb.length_eq] at hlt
      exact absurd hlt (Nat.lt_irrefl _)

/-- **Appending goes on** as long as columns take their values and there is room. -/
theorem appendAll_take (hs : s.Sound) (hb : s.Bounded row) (h : Counted s row size b []) :
    ∀ {n : Nat}, n ≤ row.length → s.TakesBelow row n →
      (b.appendAll (row.take n)).Room size (s.rowBytes row)
        fun b' => Counted s row size b' (row.take n)
  | 0, _, _ => .goes h
  | n + 1, hn, ht => by
      have hfirst := h.appendAll_take hs hb (n := n) (by omega)
        fun i c v hi => ht i c v (Nat.lt_succ_of_lt hi)
      have hlen : (row.take n).length = n := by
        rw [List.length_take]
        omega
      have hv : row[(row.take n).length]? = some row[n] := by
        rw [hlen]
        exact List.getElem?_eq_getElem hn
      obtain ⟨c, hc⟩ : ∃ c, s.column? n = some c := Schema.exists_column (hb.length_eq ▸ hn)
      have ha := ht n c _ (Nat.lt_succ_self n) hc (List.getElem?_eq_getElem hn)
      rw [List.take_succ_eq_append_getElem hn]
      cases hstep : b.appendAll (row.take n) with
      | mk b₁ outcome =>
          rw [hstep] at hfirst
          cases hfirst with
          | goes h₁ =>
              have hnext := h₁.append hs hb hv (by rw [hlen]; exact hc) ha
              rw [appendAll_append hstep, appendAll_singleton]
              exact hnext
          | exceeds hsize hneed =>
              rw [appendAll_append_of_error hstep]
              exact .exceeds hsize hneed

/-- **What comes of a whole row**: its encoding, if that is as long as the buffer. -/
theorem build_eq (hs : s.Sound) (hb : s.Bounded row) (h : Counted s row size b row) :
    b.build = if size = s.rowBytes row then .ok ⟨s.encode row⟩
      else .error (.sizeMismatch size (s.rowBytes row)) := by
  obtain ⟨chunk, room, hf, hc, rfl⟩ := h.wrote.finished hb.length_eq
  have hroom := h.room
  have hsize := hf.length_encode hs
  rw [List.length_append, List.length_replicate] at hroom
  unfold Builder.build
  rw [if_neg (fun h => h rfl)]
  dsimp only
  rw [hc, List.length_append, List.length_replicate, hroom, hsize]
  by_cases he : size = s.rowBytes row
  · have hzero : room = 0 := by omega
    rw [if_neg (fun h => h he.symm), if_pos he, hzero, List.replicate_zero, List.append_nil]
  · rw [if_pos (fun h => he h.symm), if_neg he]

end Counted

end Builder

end RowCodec
