import RowCodec.Proofs.Tuple.Runs

/-!
# The write that nothing checks

A builder checks every write against its bytes but one: the null map bit of a value that was just written.
That lies inside as long as the open chunk is the next column's own.

* `Builder.HasRoom` -- the checked writes of a value stay within the buffer; `append_placed` and
  `append_unplaced` say what an append comes to if they do and if they do not.
* `Builder.Keeps` -- what every builder keeps that a run of appends leaves behind, whatever was refused on the
  way: its chunk is the next column's own, or the key's still lies open behind the key because it could not be
  closed (`Place.stale`). Appends keep it (`Keeps.append`), so runs do (`Keeps.appendEach`).
* `Builder.Astray` -- a value of the value group goes into the chunk of the key, and its null map bit past the
  buffer's end.
* `append_panics_iff_astray` -- **an append panics exactly when it is astray**, so none does in a steady run or
  in a buffer with room for a null map of the value group behind the first chunk's length.
* `append_panics_wide` -- there are runs that end so.
-/

namespace RowCodec

/-- The chunk's null map and table are where a chunk of the group has them. -/
structure Chunk.LaidFor (g : Columns) (chunk : Chunk) : Prop where
  table_eq : chunk.table = chunk.start + chunkHeaderSize + g.nullMapSize
  table_le : chunk.table ≤ chunk.fixed

theorem Chunk.LaidFor.layOut (start : Nat) (g : Columns) (declared : Nat) :
    (Chunk.layOut start g declared).LaidFor g :=
  ⟨rfl, Nat.le_add_right _ _⟩

/-- A column's null map bit lies before the table. -/
theorem Chunk.LaidFor.mark_lt {g : Columns} {chunk : Chunk} {p : Nat} {c : Column}
    (h : chunk.LaidFor g) (hc : g.columns[p]? = some c) :
    chunk.start + chunkHeaderSize + p / 8 < chunk.table := by
  have hp : p < g.columns.length := (List.getElem?_eq_some_iff.mp hc).1
  have hmap : p / 8 < g.nullMapSize := by
    unfold Columns.nullMapSize Columns.length
    omega
  rw [h.table_eq]
  exact Nat.add_lt_add_left hmap _

namespace Builder

variable {b b' : Builder} {s : Schema} {g : Columns} {size keyDeclared valueDeclared index p : Nat}
  {chunk : Chunk} {c : Column} {v : Value} {calls vs : List Value}

/-! ## 1. Checked writes -/

/-- The writes of a value that come before its null map bit stay within the buffer: the table entry and the
    bytes of a text or byte string, or the bytes of another value at its column's offset. -/
structure HasRoom (b : Builder) (g : Columns) (p : Nat) (v : Value) : Prop where
  text : ∀ bytes, v.payload? = some bytes → b.Places bytes
  slot : v.payload? = none →
    b.chunk.fixed + Columns.widths (g.columns.take p) + v.fixedBytes.length ≤ b.buffer.length

/-- A value that its column admits and that has room comes to its null map bit, which then lies within the
    buffer if the chunk is its group's own. -/
theorem append_placed (hg : g.LaidOut) (hl : b.schema.locate b.index = .ok (g, p, c))
    (hc : g.columns[p]? = some c) (hv : c.admits v = true) (hd : v.isUndefined = false)
    (hr : b.HasRoom g p v) :
    ∃ varlen written buffer,
      b.append v = (let chunk := { b.chunk with varlen, written }
        let b := { b with chunk, buffer }
        b.onward (b.setDefined p) advance) ∧
      buffer.length = b.buffer.length ∧ b.chunk.varlen ≤ varlen ∧
      (varlen = b.chunk.varlen ∨ varlen ≤ b.buffer.length) ∧
      (b.chunk.LaidFor g → b.chunk.start + chunkHeaderSize + p / 8 < b.buffer.length) := by
  cases hp : v.payload? with
  | some bytes =>
      obtain ⟨actual, hk, happ⟩ := append_of_payload (b := b) hv hp
      have hplaces := hr.text bytes hp
      have hfirst := length_entry hplaces.entry (b.chunk.varlen - b.chunk.start)
      rw [happ, appendVarlen_eq hl hk hplaces]
      refine ⟨_, _, _, rfl, ?_, Nat.le_add_right _ _, Or.inr hplaces.room, fun hlaid => ?_⟩
      · rw [length_overwrite (hfirst ▸ hplaces.room), hfirst]
      · have hmark := hlaid.mark_lt hc
        have hentry := hplaces.entry
        omega
  | none =>
      obtain ⟨actual, hk, happ⟩ := append_of_fixed hl hv hp hd
      have hf := Column.isFixedSize_of_none (Column.stores_of_admits hv) hp hd
      have hslot := hr.slot hp
      rw [happ, appendFixed_eq hg hl hc hf hk, write_of_le hslot]
      refine ⟨_, _, _, rfl, length_overwrite hslot, Nat.le_refl _, Or.inl rfl, fun hlaid => ?_⟩
      have hmark := hlaid.mark_lt hc
      have htable := hlaid.table_le
      omega

/-- A value that has no room is refused. -/
theorem append_unplaced (hg : g.LaidOut) (hl : b.schema.locate b.index = .ok (g, p, c))
    (hc : g.columns[p]? = some c) (hv : c.admits v = true) (hd : v.isUndefined = false)
    (hr : ¬ b.HasRoom g p v) :
    ∃ buffer cause, b.append v = ⟨{ b with buffer := buffer }, Outcome.refuse cause⟩ ∧
      buffer.length = b.buffer.length := by
  cases hp : v.payload? with
  | some bytes =>
      obtain ⟨actual, hk, happ⟩ := append_of_payload (b := b) hv hp
      have hroom : ¬ b.Places bytes := by
        intro hplaces
        refine hr ⟨fun bytes' hp' => ?_, fun hnone => ?_⟩
        · cases hp.symm.trans hp'
          exact hplaces
        · cases hp.symm.trans hnone
      obtain ⟨buffer, cause, hrefused, hspoiled⟩ := appendVarlen_refused hl hk hroom
      exact ⟨buffer, cause, happ.trans hrefused, hspoiled.length_eq⟩
  | none =>
      obtain ⟨actual, hk, happ⟩ := append_of_fixed hl hv hp hd
      have hf := Column.isFixedSize_of_none (Column.stores_of_admits hv) hp hd
      rw [happ, appendFixed_eq hg hl hc hf hk, write_of_lt, onward_refuse]
      · exact ⟨b.buffer, _, rfl, rfl⟩
      · apply Nat.not_le.mp
        intro hslot
        refine hr ⟨fun bytes hbytes => ?_, fun _ => hslot⟩
        cases hp.symm.trans hbytes

/-! ## 2. What every builder keeps -/

/-- Where a builder stands, and whose chunk lies open there. -/
inductive Place (s : Schema) (size index : Nat) (chunk : Chunk) : Prop
  /-- In the key, with the key's chunk. -/
  | key (hi : index < s.key.length) (hs : chunk.start = Fingerprint.size) (hc : chunk.LaidFor s.key)
      (ht : chunk.table ≤ chunk.varlen) (hv : chunk.varlen ≤ size)
  /-- In the value, with the value's chunk, for which there need not be room. -/
  | value (hi : s.key.length ≤ index) (hs : Fingerprint.size < chunk.start) (hc : chunk.LaidFor s.value)
  /-- In the value, with the key's chunk, which could not be closed. -/
  | stale (hi : s.key.length ≤ index) (hs : chunk.start = Fingerprint.size)

/-- **What every builder keeps**, also behind a fault. -/
structure Keeps (s : Schema) (size valueDeclared : Nat) (b : Builder) : Prop where
  schema_eq : b.schema = s
  length_eq : b.buffer.length = size
  declared_eq : b.valueDeclared = valueDeclared
  place : Place s size b.index b.chunk

/-- A builder that keeps this, with a step that did not panic. -/
def Keeping (s : Schema) (size valueDeclared : Nat) (step : Step TupleError) : Prop :=
  Keeps s size valueDeclared step.builder ∧ step.outcome.panics = false

theorem Place.write {varlen written : Nat} (h : Place s size index chunk) (hle : chunk.varlen ≤ varlen)
    (hmax : varlen = chunk.varlen ∨ varlen ≤ size) :
    Place s size index { chunk with varlen, written } := by
  cases h with
  | key hi hs hc ht hv =>
      refine .key hi hs ⟨hc.table_eq, hc.table_le⟩ (Nat.le_trans ht hle) ?_
      rcases hmax with he | hmax
      · exact Nat.le_trans (Nat.le_of_eq he) hv
      · exact hmax
  | value hi hs hc => exact .value hi hs ⟨hc.table_eq, hc.table_le⟩
  | stale hi hs => exact .stale hi hs

namespace Keeps

theorem write {buffer : List UInt8} (h : Keeps s size valueDeclared b)
    (hl : buffer.length = b.buffer.length) : Keeps s size valueDeclared { b with buffer } :=
  ⟨h.schema_eq, hl.trans h.length_eq, h.declared_eq, h.place⟩

theorem closeLast (h : Keeps s size valueDeclared b) : Keeping s size valueDeclared b.closeLast := by
  unfold Builder.closeLast
  split
  · rcases finishChunk_ends b with ⟨cause, hfin⟩ | ⟨buffer, hfin, hl⟩
    · rw [hfin]
      exact ⟨h, rfl⟩
    · rw [hfin]
      exact ⟨h.write hl, rfl⟩
  · exact ⟨h, rfl⟩

/-- An advance keeps it, and does not panic where the positions of the value's chunk are words wherever in
    the buffer it begins. -/
theorem advance (hwords : (Chunk.layOut size s.value valueDeclared).varlen < wordLimit)
    (h : Keeps s size valueDeclared b) : Keeping s size valueDeclared b.advance := by
  obtain ⟨rfl, rfl, rfl, hplace⟩ := h
  unfold Builder.advance
  dsimp only
  split
  · rename_i hlast
    cases hplace with
    | key hi hs hc ht hv =>
        -- Behind the key's last column its chunk is stale until it is closed.
        have hstale : Keeps b.schema b.buffer.length b.valueDeclared { b with index := b.index + 1 } :=
          ⟨rfl, rfl, rfl, .stale (Nat.le_of_eq hlast.symm) hs⟩
        rcases finishChunk_ends { b with index := b.index + 1 } with ⟨cause, hfin⟩ | ⟨buffer, hfin, hl⟩
        · rw [hfin]
          exact ⟨hstale, rfl⟩
        · have hbegin : Chunk.begin b.chunk.varlen b.schema.value b.valueDeclared =
              .ok (Chunk.layOut b.chunk.varlen b.schema.value b.valueDeclared) := by
            refine if_pos (Nat.lt_of_le_of_lt ?_ hwords)
            rw [Chunk.varlen_layOut, Chunk.varlen_layOut]
            exact Nat.add_le_add_right hv _
          rw [hfin, onward_ok]
          dsimp only
          rw [hbegin, onward_ok]
          have hstart : Fingerprint.size < b.chunk.varlen := by
            have htable := hc.table_eq
            unfold chunkHeaderSize at htable
            omega
          have hkeeps : Keeps b.schema b.buffer.length b.valueDeclared
              ⟨b.schema, buffer, b.index + 1,
                Chunk.layOut b.chunk.varlen b.schema.value b.valueDeclared, b.valueDeclared⟩ :=
            ⟨rfl, hl, rfl, .value (Nat.le_of_eq hlast.symm) hstart (.layOut _ _ _)⟩
          split
          · exact ⟨hkeeps, rfl⟩
          · exact hkeeps.closeLast
    | value hi _ _ => omega
    | stale hi _ => omega
  · rename_i hlast
    have hkeeps : Keeps b.schema b.buffer.length b.valueDeclared { b with index := b.index + 1 } := by
      refine ⟨rfl, rfl, rfl, ?_⟩
      cases hplace with
      | key hi hs hc ht hv => exact .key (by dsimp only; omega) hs hc ht hv
      | value hi hs hc => exact .value (Nat.le_succ_of_le hi) hs hc
      | stale hi hs => exact .stale (Nat.le_succ_of_le hi) hs
    exact hkeeps.closeLast

/-- A new builder stands at the key's first column. -/
theorem of_new (hs : s.Sound) (h : Builder.new s size keyDeclared valueDeclared = .ok b) :
    Keeps s size valueDeclared b := by
  unfold Builder.new at h
  obtain ⟨chunk, hbegin, h⟩ := Outcome.bind_ok h
  obtain rfl := begin_ok hbegin
  split at h
  · cases h
  · rename_i hsize
    split at h
    · cases h
    · cases h
      have hlaid := Chunk.LaidFor.layOut Fingerprint.size s.key keyDeclared
      have hvar : (Chunk.layOut Fingerprint.size s.key keyDeclared).table ≤
          (Chunk.layOut Fingerprint.size s.key keyDeclared).varlen :=
        Nat.le_trans hlaid.table_le (Nat.le_add_right _ _)
      have hprint := s.fingerprint.length_toBytes
      have hfront : Fingerprint.size ≤ (Chunk.layOut Fingerprint.size s.key keyDeclared).varlen := by
        rw [Chunk.varlen_layOut]
        exact Nat.le_add_right _ _
      refine ⟨rfl, ?_, rfl, .key hs.key_pos rfl hlaid hvar (Nat.not_lt.mp hsize)⟩
      rw [List.length_append, List.length_replicate, hprint]
      omega

end Keeps

/-! ## 3. Leaving the buffer -/

/-- **The write that leaves the buffer.** The next column is the value group's one at position `p`, but the
    open chunk is the key's; the column admits the value and every checked write of it stays within the buffer,
    which is at an end before the key's chunk could have a null map bit for position `p`. -/
structure Astray (b : Builder) (p : Nat) (c : Column) (v : Value) : Prop where
  stale : b.chunk.start = Fingerprint.size
  index_eq : b.index = b.schema.key.length + p
  column_eq : b.schema.value.columns[p]? = some c
  admits : c.admits v = true
  present : v.isUndefined = false
  room : b.HasRoom b.schema.value p v
  outside : b.buffer.length ≤ Fingerprint.size + chunkHeaderSize + p / 8

namespace Keeps

/-- The next column, and its group: the chunk is the group's own, or it is stale. -/
theorem located (hs : s.Sound) (h : Keeps s size valueDeclared b) (hi : b.index < b.schema.length) :
    ∃ g p c, b.schema.locate b.index = .ok (g, p, c) ∧ g.columns[p]? = some c ∧ g.LaidOut ∧
      ((b.chunk.LaidFor g ∧ ∀ q d, ¬ b.Astray q d v) ∨
        (b.chunk.start = Fingerprint.size ∧ b.index = b.schema.key.length + p ∧
          g = b.schema.value)) := by
  obtain ⟨rfl, rfl, rfl, hplace⟩ := h
  obtain ⟨c, hc⟩ := Schema.exists_column hi
  rcases Schema.column?_cases hc with ⟨hk, hd⟩ | ⟨p, hk, hd⟩
  · refine ⟨b.schema.key, b.index, c, Schema.locate_key hd, hd, hs.key, Or.inl ?_⟩
    cases hplace with
    | key _ _ hlaid _ _ => exact ⟨hlaid, fun q d ha => by have := ha.index_eq; omega⟩
    | value hi _ _ => omega
    | stale hi _ => omega
  · refine ⟨b.schema.value, p, c, ?_, hd, hs.value, ?_⟩
    · rw [hk]
      exact Schema.locate_value hd
    · cases hplace with
      | key hi _ _ _ _ => omega
      | value _ hstart hlaid =>
          refine Or.inl ⟨hlaid, fun q d ha => ?_⟩
          have := ha.stale
          omega
      | stale _ hstart => exact Or.inr ⟨hstart, hk, rfl⟩

/-- Behind the null map bit, if that can be set, a builder advances. -/
theorem mark (hwords : (Chunk.layOut size s.value valueDeclared).varlen < wordLimit)
    (h : Keeps s size valueDeclared b) :
    Keeps s size valueDeclared (b.onward (b.setDefined p) Builder.advance).builder ∧
      ((b.onward (b.setDefined p) Builder.advance).outcome.panics = true ↔
        b.buffer.length ≤ b.chunk.start + chunkHeaderSize + p / 8) := by
  rcases Nat.lt_or_ge (b.chunk.start + chunkHeaderSize + p / 8) b.buffer.length with hlt | hge
  · rw [setDefined_of_lt hlt, onward_ok]
    obtain ⟨hkeeps, hpanics⟩ := (h.write (List.length_modify _ _ _)).advance hwords
    refine ⟨hkeeps, ?_⟩
    rw [hpanics]
    exact iff_of_false Bool.false_ne_true (Nat.not_le.mpr hlt)
  · have hset : b.setDefined p = Outcome.abort .outOfBounds := if_neg (Nat.not_lt.mpr hge)
    rw [hset]
    exact ⟨h, iff_of_true rfl hge⟩

/-- **A value that its column admits and that has room** comes to its null map bit: the append keeps it, and
    panics exactly when that bit lies past the buffer's end, which it does not in a chunk of the column's own
    group. -/
theorem append_marks (hwords : (Chunk.layOut size s.value valueDeclared).varlen < wordLimit)
    (h : Keeps s size valueDeclared b) (hg : g.LaidOut) (hl : b.schema.locate b.index = .ok (g, p, c))
    (hc : g.columns[p]? = some c) (hv : c.admits v = true) (hd : v.isUndefined = false)
    (hr : b.HasRoom g p v) :
    Keeps s size valueDeclared (b.append v).builder ∧
      ((b.append v).outcome.panics = true ↔
        b.buffer.length ≤ b.chunk.start + chunkHeaderSize + p / 8) ∧
      (b.chunk.LaidFor g → b.chunk.start + chunkHeaderSize + p / 8 < b.buffer.length) := by
  obtain ⟨varlen, written, buffer, happ, hlength, hle, hmax, hmark⟩ :=
    append_placed hg hl hc hv hd hr
  have hplace : Place s size b.index { b.chunk with varlen, written } :=
    h.place.write hle (h.length_eq ▸ hmax)
  have hkeeps : Keeps s size valueDeclared
      { b with chunk := { b.chunk with varlen, written }, buffer } :=
    ⟨h.schema_eq, hlength.trans h.length_eq, h.declared_eq, hplace⟩
  obtain ⟨hafter, hpanics⟩ := hkeeps.mark (p := p) hwords
  dsimp only at hpanics
  rw [hlength] at hpanics
  rw [happ]
  exact ⟨hafter, hpanics, hmark⟩

/-- **An append keeps it, and panics exactly when it is astray.** -/
theorem append (hs : s.Sound) (hwords : (Chunk.layOut size s.value valueDeclared).varlen < wordLimit)
    (h : Keeps s size valueDeclared b) (v : Value) :
    Keeps s size valueDeclared (b.append v).builder ∧
      ((b.append v).outcome.panics = true ↔ ∃ p c, b.Astray p c v) := by
  rcases Nat.lt_or_ge b.index b.schema.length with hi | hi
  case inr =>
    rw [append_out hi]
    refine ⟨h, iff_of_false Bool.false_ne_true ?_⟩
    rintro ⟨p, c, ha⟩
    have hp : p < b.schema.value.length := (List.getElem?_eq_some_iff.mp ha.column_eq).1
    rw [ha.index_eq] at hi
    unfold Schema.length at hi
    omega
  obtain ⟨g, p, c, hl, hc, hg, hat⟩ := h.located (v := v) hs hi
  -- Of an astray append the column is the one that was found.
  have hsame : ∀ {q d}, b.Astray q d v → p = q ∧ c = d ∧ g = b.schema.value := by
    intro q d ha
    rcases hat with ⟨_, hnot⟩ | ⟨_, hindex, hgroup⟩
    · exact absurd ha (hnot q d)
    · obtain rfl : p = q := Nat.add_left_cancel (hindex.symm.trans ha.index_eq)
      subst hgroup
      exact ⟨rfl, Option.some.inj (hc.symm.trans ha.column_eq), rfl⟩
  by_cases hv : c.admits v = true
  case neg =>
    obtain ⟨cause, happ⟩ := append_unadmitted hl hv
    rw [happ]
    refine ⟨h, iff_of_false Bool.false_ne_true ?_⟩
    rintro ⟨q, d, ha⟩
    obtain ⟨_, rfl, _⟩ := hsame ha
    exact hv ha.admits
  cases hd : v.isUndefined with
  | true =>
      obtain rfl := Value.eq_undefined hd
      obtain ⟨hkeeps, hpanics⟩ := h.advance hwords
      rw [append_null hl hv, hpanics]
      refine ⟨hkeeps, iff_of_false Bool.false_ne_true ?_⟩
      rintro ⟨q, d, ha⟩
      cases ha.present
  | false =>
      by_cases hr : b.HasRoom g p v
      case neg =>
        obtain ⟨buffer, cause, happ, hlength⟩ := append_unplaced hg hl hc hv hd hr
        rw [happ]
        refine ⟨h.write hlength, iff_of_false Bool.false_ne_true ?_⟩
        rintro ⟨q, d, ha⟩
        obtain ⟨rfl, _, rfl⟩ := hsame ha
        exact hr ha.room
      obtain ⟨hkeeps, hpanics, hmark⟩ := h.append_marks hwords hg hl hc hv hd hr
      refine ⟨hkeeps, hpanics.trans ⟨fun hge => ?_, ?_⟩⟩
      · rcases hat with ⟨hlaid, _⟩ | ⟨hstale, hindex, rfl⟩
        · exact absurd (hmark hlaid) (Nat.not_lt.mpr hge)
        · exact ⟨p, c, hstale, hindex, hc, hv, hd, hr, hstale ▸ hge⟩
      · rintro ⟨q, d, ha⟩
        obtain ⟨rfl, _, _⟩ := hsame ha
        have hout := ha.outside
        rwa [← ha.stale] at hout

/-- **A run keeps it**, whatever is refused on the way. -/
theorem appendEach (hs : s.Sound)
    (hwords : (Chunk.layOut size s.value valueDeclared).varlen < wordLimit)
    (h : Keeps s size valueDeclared b) (calls : List Value) :
    Keeps s size valueDeclared (b.appendEach calls) := by
  induction calls generalizing b with
  | nil => exact h
  | cons v rest ih => exact ih (h.append hs hwords v).1

end Keeps

/-- A builder that wrote what it was given has its next column's own chunk open. -/
theorem Wrote.not_astray (h : Wrote s keyDeclared valueDeclared b vs) : ¬ b.Astray p c v := by
  intro ha
  have hindex := ha.index_eq
  have hstale := ha.stale
  have hp : p < b.schema.value.length := (List.getElem?_eq_some_iff.mp ha.column_eq).1
  cases h with
  | key hl ho =>
      dsimp only at hindex
      omega
  | @value _ _ ks _ hk hl ho =>
      rw [ho.chunk_eq] at hstale
      have hlen : (s.fingerprint.toBytes ++ s.key.encode ks).length = Fingerprint.size := hstale
      rw [List.length_append, s.fingerprint.length_toBytes] at hlen
      unfold Columns.encode at hlen
      rw [List.length_append, LittleEndian.length_encode] at hlen
      unfold chunkHeaderSize at hlen
      omega
  | done room hf hc =>
      dsimp only at hindex hp
      unfold Schema.length at hindex
      omega

/-! ## 4. What runs come to -/

/-- **An append panics exactly when it is astray**, after any run of appends of which any may have been
    refused. The sums in the layouts are words, wherever in the buffer the value's chunk begins. None is astray
    where the buffer has room for a null map of the value group behind a first chunk's length, nor where no
    refused append moved the index. Handing out the bytes cannot panic at all. -/
theorem append_panics_iff_astray {version : UInt32} {key value : List Column}
    (hdef : Schema.define version key value = .ok s)
    (hnew : Builder.new s size keyDeclared valueDeclared = .ok b)
    (hwords : (Chunk.layOut size s.value valueDeclared).varlen < wordLimit)
    (calls : List Value) (v : Value) :
    (((b.appendEach calls).append v).outcome.panics = true ↔
      ∃ p c, (b.appendEach calls).Astray p c v) ∧
    (Fingerprint.size + chunkHeaderSize + s.value.nullMapSize ≤ size →
      ((b.appendEach calls).append v).outcome.panics = false) ∧
    (b.Steady calls → ((b.appendEach calls).append v).outcome.panics = false) := by
  have hs := Schema.sound_of_define hdef
  have hkeeps : Keeps s size valueDeclared (b.appendEach calls) :=
    (Keeps.of_new hs hnew).appendEach hs hwords calls
  have hiff := (hkeeps.append hs hwords v).2
  have hno : (∀ p c, ¬ (b.appendEach calls).Astray p c v) →
      ((b.appendEach calls).append v).outcome.panics = false := by
    intro hnot
    rw [Bool.eq_false_iff]
    intro hpanics
    obtain ⟨p, c, ha⟩ := hiff.mp hpanics
    exact hnot p c ha
  refine ⟨hiff, fun hsize => hno fun p c ha => ?_, fun hsteady => hno fun p c ha => ?_⟩
  · have hp : p < s.value.length := by
      have hc := ha.column_eq
      rw [hkeeps.schema_eq] at hc
      exact (List.getElem?_eq_some_iff.mp hc).1
    have hout := ha.outside
    rw [hkeeps.length_eq] at hout
    have hmap : p / 8 < s.value.nullMapSize := by
      unfold Columns.nullMapSize
      omega
    omega
  · exact ((Wrote.of_new hs hnew).appendEach hs hsteady).not_astray ha

theorem append_panics_iff_astray_label : ∃ b,
    Schema.define 1 [⟨"id", .number .int4, false⟩] [⟨"name", .utf8, true⟩] = .ok labelSchema ∧
    Builder.new labelSchema 26 0 1 = .ok b ∧
    (Chunk.layOut 26 labelSchema.value 1).varlen < wordLimit ∧
    Fingerprint.size + chunkHeaderSize + labelSchema.value.nullMapSize ≤ 26 ∧
    ∀ calls v, ((b.appendEach calls).append v).outcome.panics = false := by
  have hdef : Schema.define 1 [⟨"id", .number .int4, false⟩] [⟨"name", .utf8, true⟩] =
    .ok labelSchema := rfl
  have hnew : Builder.new labelSchema 26 0 1 = .ok _ := rfl
  have hwords : (Chunk.layOut 26 labelSchema.value 1).varlen < wordLimit := by decide
  have hsize : Fingerprint.size + chunkHeaderSize + labelSchema.value.nullMapSize ≤ 26 := by decide
  exact ⟨_, hdef, hnew, hwords, hsize, fun calls v =>
    (append_panics_iff_astray hdef hnew hwords calls v).2.1 hsize⟩

/-! ## 5. A run that leaves the buffer -/

/-- Names of different lengths. -/
def wideName (i : Nat) : String := String.ofList (List.replicate (i + 1) 'c')

theorem length_wideName (i : Nat) : (wideName i).length = i + 1 := by
  rw [wideName, String.length_ofList, List.length_replicate]

/-- Texts that may be null, enough for six bytes of null map. -/
def wideValue : List Column := (List.range 41).map fun i => ⟨wideName i, .utf8, true⟩

/-- A key of one text that may be null, and the wide value. -/
def wideSchema : Schema :=
  { version := 1
    fingerprint := Fingerprint.ofColumns (Columns.ofList [⟨"id", .utf8, true⟩])
      (Columns.ofList wideValue)
    key := Columns.ofList [⟨"id", .utf8, true⟩]
    value := Columns.ofList wideValue }

theorem define_wide : Schema.define 1 [⟨"id", .utf8, true⟩] wideValue = .ok wideSchema := by
  have hnames : wideValue.map (·.name) = (List.range 41).map wideName := List.map_map
  have hvalue : ((List.range 41).map wideName).Nodup := by
    refine List.Pairwise.map _ (fun i j hne heq => hne ?_) List.nodup_range
    have hlen := congrArg String.length heq
    rw [length_wideName, length_wideName] at hlen
    exact Nat.succ.inj hlen
  have hkey : "id" ∉ (List.range 41).map wideName := by
    intro hid
    obtain ⟨i, _, hi⟩ := List.mem_map.mp hid
    have hlist := congrArg String.toList hi
    rw [wideName, String.toList_ofList, List.replicate_succ] at hlist
    exact absurd (List.cons.inj hlist).1 (by decide)
  refine Schema.define_of_nodup 1 (List.cons_ne_nil _ _) ?_
  rw [List.map_append, hnames]
  exact List.nodup_cons.mpr ⟨hkey, hvalue⟩

/-- **An append leaves the buffer.** One text is declared for the key, and the key is given a null: closing the
    key's chunk refuses that append with the index already moved. The nulls for the next forty columns write
    nothing. The text of the last column finds an entry and room in the key's chunk, and its null map bit would
    lie in the byte behind the buffer's last. -/
theorem append_panics_wide : ∃ b,
    Schema.define 1 [⟨"id", .utf8, true⟩] wideValue = .ok wideSchema ∧
    Builder.new wideSchema 17 1 0 = .ok b ∧
    (Chunk.layOut 17 wideSchema.value 0).varlen < wordLimit ∧
    ((b.appendEach (List.replicate 41 .undefined)).append (.utf8 "")).outcome.panics = true := by
  have hnew : Builder.new wideSchema 17 1 0 = .ok _ := rfl
  exact ⟨_, define_wide, hnew, by decide, by decide +kernel⟩

end Builder

end RowCodec
