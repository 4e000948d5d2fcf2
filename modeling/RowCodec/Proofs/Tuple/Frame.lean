import RowCodec.Proofs.BitSet.Indices
import RowCodec.Proofs.Schema.StableLayout
import RowCodec.Proofs.Tuple.RoundTrip

/-!
# What an append may write

All parts of a tuple lie in one buffer, at positions that the builder counts on. An append that
succeeds writes into the parts of its own column and nowhere else.

* `SameBut` -- two buffers that differ in some bits only.
* `Builder.Owns` -- the bits of an append: its column's null map bit, its slot or its table entry and
  its bytes, and the lengths of the chunks that it closes.
* `Chunk.Placed` -- the parts of the chunk lie in order; `Placed.append` is that one append keeps them so.
* `Builder.Settled` -- the bits that are behind the builder: what an append owns is settled by it
  (`settled_append`), and no later append owns what is settled (`Settled.not_owns`).
* `append_owns` -- the whole of it, for every builder that appends lead to.
-/

namespace RowCodec

/-! ## 1. Bits of a buffer -/

/-- The bit lies in one of the `size` bytes from `start` on. -/
def Covers (start size bit : Nat) : Prop := start ≤ bit / 8 ∧ bit / 8 < start + size

/-- **Two buffers that differ in some bits only**: they are of one length, and every bit that is not
    `owned` is the same. -/
structure SameBut (owned : Nat → Prop) (old new : List UInt8) : Prop where
  length_eq : new.length = old.length
  bit_eq : ∀ bit, ¬ owned bit → bitAt new bit = bitAt old bit

namespace SameBut

variable {owned owned' : Nat → Prop} {first second third new : List UInt8} {offset : Nat}

theorem refl (owned : Nat → Prop) (bytes : List UInt8) : SameBut owned bytes bytes :=
  ⟨rfl, fun _ _ => rfl⟩

theorem mono (h : SameBut owned first second) (hle : ∀ bit, owned bit → owned' bit) :
    SameBut owned' first second :=
  ⟨h.length_eq, fun bit hbit => h.bit_eq bit fun ho => hbit (hle bit ho)⟩

theorem trans (h : SameBut owned first second) (h' : SameBut owned second third) :
    SameBut owned first third :=
  ⟨h'.length_eq.trans h.length_eq, fun bit hbit => (h'.bit_eq bit hbit).trans (h.bit_eq bit hbit)⟩

/-- A write changes bits of the bytes that it covers. -/
theorem overwrite {size : Nat} (hn : new.length = size) (h : offset + size ≤ first.length) :
    SameBut (Covers offset size) first (RowCodec.overwrite first offset new) := by
  subst hn
  refine ⟨length_overwrite h, fun bit hbit => ?_⟩
  have hout : ¬ (offset ≤ bit / 8 ∧ bit / 8 < offset + new.length) := hbit
  unfold bitAt
  rw [getElem?_overwrite h, if_neg hout]

/-- Adding one bit changes that bit. -/
theorem mark (bytes : List UInt8) (start p : Nat) :
    SameBut (· = 8 * start + p) bytes (bytes.modify (start + p / 8) (· ||| bitOf p)) := by
  refine ⟨List.length_modify _ _ _, fun bit hbit => ?_⟩
  unfold bitAt
  rw [List.getElem?_modify]
  cases bytes[bit / 8]? with
  | none => rfl
  | some b =>
      rw [Option.map_eq_map, Option.map_some, Option.any_some, Option.any_some]
      by_cases hbyte : start + p / 8 = bit / 8
      · have hother : ¬ p % 8 = bit % 8 := by omega
        rw [if_pos hbyte, hasBit_or_bitOf, decide_eq_false hother, Bool.or_false]
      · rw [if_neg hbyte]

end SameBut

/-! ## 2. The bits of an append -/

namespace Chunk

/-- The chunk with a value taken: a text or byte string takes the next table entry, and its bytes move
    the end. -/
def taking (chunk : Chunk) (v : Value) : Chunk :=
  match v.payload? with
  | some bytes =>
      { chunk with varlen := chunk.varlen + bytes.length, written := chunk.written + 1 }
  | none => chunk

variable {chunk : Chunk} {v : Value}

theorem taking_of_some {bytes : List UInt8} (h : v.payload? = some bytes) : chunk.taking v =
    { chunk with varlen := chunk.varlen + bytes.length, written := chunk.written + 1 } := by
  unfold taking
  rw [h]

theorem taking_of_none (h : v.payload? = none) : chunk.taking v = chunk := by
  unfold taking
  rw [h]

/-- Taking a value moves the end and the entries in use, and no other part. -/
theorem taking_beside (chunk : Chunk) (v : Value) : (chunk.taking v).start = chunk.start ∧
    (chunk.taking v).table = chunk.table ∧ (chunk.taking v).fixed = chunk.fixed ∧
    (chunk.taking v).declared = chunk.declared ∧ chunk.varlen ≤ (chunk.taking v).varlen ∧
    chunk.written ≤ (chunk.taking v).written := by
  cases hp : v.payload? with
  | none =>
      rw [taking_of_none hp]
      exact ⟨rfl, rfl, rfl, rfl, Nat.le_refl _, Nat.le_refl _⟩
  | some bytes =>
      rw [taking_of_some hp]
      exact ⟨rfl, rfl, rfl, rfl, Nat.le_add_right _ _, Nat.le_succ _⟩

end Chunk

namespace Builder

/-- The bits that a value's own bytes take: none for a null. -/
inductive Fills (b : Builder) (v : Value) (bit : Nat) : Prop
  /-- The column's bit in the null map. -/
  | mark {g : Columns} {p : Nat} {c : Column} (hl : b.schema.locate b.index = .ok (g, p, c))
      (hd : v.isUndefined = false) (hbit : bit = 8 * (b.chunk.start + chunkHeaderSize) + p)
  /-- The column's slot, for a value of fixed size. -/
  | slot {g : Columns} {p : Nat} {c : Column} {offset : Nat}
      (hl : b.schema.locate b.index = .ok (g, p, c)) (hd : v.isUndefined = false)
      (hp : v.payload? = none) (ho : g.fixedOffset (ε := TupleError) p = .ok offset)
      (hbit : Covers (b.chunk.fixed + offset) c.type.size bit)
  /-- The next table entry, for a text or byte string. -/
  | entry {bytes : List UInt8} (hp : v.payload? = some bytes)
      (hbit : Covers (b.chunk.table + b.chunk.written * entrySize) entrySize bit)
  /-- The bytes of a text or byte string. -/
  | text {bytes : List UInt8} (hp : v.payload? = some bytes)
      (hbit : Covers b.chunk.varlen bytes.length bit)

/-- The bits that closing chunks behind the next column takes. -/
inductive Closes (b : Builder) (bit : Nat) : Prop
  /-- The chunk's length, behind the last column of a group. -/
  | own (hlast : b.index + 1 = b.schema.key.length ∨ b.index + 1 = b.schema.length)
      (hbit : Covers b.chunk.start chunkHeaderSize bit)
  /-- The length of a value chunk without columns, behind the last column of the key. -/
  | empty (hlast : b.index + 1 = b.schema.key.length) (hnone : b.schema.value.length = 0)
      (hbit : Covers b.chunk.varlen chunkHeaderSize bit)

/-- **The bits of an append**: those of its value, and those of the chunks that it closes. -/
def Owns (b : Builder) (v : Value) (bit : Nat) : Prop :=
  b.Fills v bit ∨ ({ b with chunk := b.chunk.taking v } : Builder).Closes bit

variable {b b' : Builder} {v : Value} {g : Columns} {p offset bit : Nat} {c : Column}
  {bytes : List UInt8}

/-! ## 3. What is written -/

theorem write_ok (h : b.write offset bytes = .ok b') : offset + bytes.length ≤ b.buffer.length ∧
    b' = { b with buffer := overwrite b.buffer offset bytes } := by
  unfold write at h
  dsimp only at h
  split at h
  · cases h
  · rename_i hle
    cases h
    exact ⟨Nat.not_lt.mp hle, rfl⟩

theorem setDefined_ok (h : b.setDefined p = .ok b') :
    b' = { b with
      buffer := b.buffer.modify (b.chunk.start + chunkHeaderSize + p / 8) (· ||| bitOf p) } := by
  unfold setDefined at h
  dsimp only at h
  split at h
  · cases h
    rfl
  · cases h

theorem finishChunk_ok (h : b.finishChunk = .ok b') : ∃ buffer, b' = { b with buffer } ∧
    SameBut (Covers b.chunk.start chunkHeaderSize) b.buffer buffer := by
  unfold finishChunk at h
  dsimp only at h
  split at h
  · cases h
  · obtain ⟨length, hlength, hwrite⟩ := Outcome.bind_ok h
    obtain ⟨_, rfl⟩ := chunkOffset_ok hlength
    obtain ⟨hle, rfl⟩ := write_ok hwrite
    rw [LittleEndian.length_encode] at hle
    exact ⟨_, rfl, .overwrite (LittleEndian.length_encode _ _) hle⟩

theorem closeLast_ok (h : b.closeLast.outcome = .ok ()) :
    ∃ buffer, b.closeLast = ⟨{ b with buffer }, .ok ()⟩ ∧
      SameBut (fun bit => b.index = b.schema.length ∧ Covers b.chunk.start chunkHeaderSize bit)
        b.buffer buffer := by
  unfold closeLast at h ⊢
  split at h
  · rename_i hlast
    rw [if_pos hlast]
    obtain ⟨b₁, hfin, hon⟩ := of_onward_ok h
    obtain ⟨buffer, rfl, hsame⟩ := finishChunk_ok hfin
    exact ⟨buffer, hon, hsame.mono fun bit hbit => ⟨hlast, hbit⟩⟩
  · rename_i hlast
    rw [if_neg hlast]
    exact ⟨b.buffer, rfl, .refl _ _⟩

/-- The chunk of the column behind the next one: behind the key's last column it is the value's. -/
def nextChunk (b : Builder) : Chunk :=
  if b.index + 1 = b.schema.key.length then
    .layOut b.chunk.varlen b.schema.value b.valueDeclared
  else b.chunk

/-- **An advance that succeeds** writes the lengths of the chunks that it closes. -/
theorem advance_ok (h : b.advance.outcome = .ok ()) : ∃ buffer,
    b.advance.builder = { b with buffer, index := b.index + 1, chunk := b.nextChunk } ∧
    SameBut b.Closes b.buffer buffer ∧
    (b.index + 1 = b.schema.key.length → b.nextChunk.varlen ≤ b.buffer.length) := by
  unfold nextChunk
  unfold advance at h ⊢
  dsimp only at h ⊢
  by_cases hlast : b.index + 1 = b.schema.key.length
  · rw [if_pos hlast] at h ⊢
    obtain ⟨b₁, hfin, hon⟩ := of_onward_ok h
    rw [hon] at h ⊢
    obtain ⟨closed, rfl, hclosed⟩ := finishChunk_ok hfin
    obtain ⟨next, hbegin, hon⟩ := of_onward_ok h
    rw [hon] at h ⊢
    obtain rfl := begin_ok hbegin
    dsimp only at h ⊢
    split at h
    · cases h
    · rename_i hroom
      rw [if_neg hroom, if_pos hlast]
      obtain ⟨buffer, hlength, hempty⟩ := closeLast_ok h
      rw [hlength]
      refine ⟨buffer, rfl, ?_, fun _ => ?_⟩
      · refine (hclosed.mono fun bit hbit => .own (Or.inl hlast) hbit).trans (hempty.mono ?_)
        rintro bit ⟨hend, hbit⟩
        have hnone : b.schema.value.length = 0 := by
          have : b.index + 1 = b.schema.key.length + b.schema.value.length := hend
          omega
        exact .empty hlast hnone hbit
      · rw [← hclosed.length_eq]
        exact Nat.not_lt.mp hroom
  · rw [if_neg hlast] at h ⊢
    rw [if_neg hlast]
    obtain ⟨buffer, hclose, hsame⟩ := closeLast_ok h
    rw [hclose]
    refine ⟨buffer, rfl, hsame.mono ?_, fun hkey => absurd hkey hlast⟩
    rintro bit ⟨hend, hbit⟩
    exact .own (Or.inr hend) hbit

/-- A column that took a value admits it. -/
theorem admits_of_append (hl : b.schema.locate b.index = .ok (g, p, c))
    (h : (b.append v).outcome = .ok ()) : c.admits v = true := by
  by_contra hv
  obtain ⟨cause, hrefused⟩ := append_unadmitted hl hv
  rw [hrefused] at h
  cases h

/-- A text or byte string found its place, and writes its entry, its bytes and its mark. -/
theorem append_fills_payload (hl : b.schema.locate b.index = .ok (g, p, c)) (hv : c.admits v = true)
    (hp : v.payload? = some bytes) (h : (b.append v).outcome = .ok ()) :
    b.Places bytes ∧ ∃ buffer, SameBut (b.Fills v) b.buffer buffer ∧
      b.append v = advance { b with buffer, chunk := b.chunk.taking v } := by
  obtain ⟨actual, hk, happ⟩ := append_of_payload (b := b) hv hp
  rw [happ] at h ⊢
  have hplaces : b.Places bytes := by
    by_contra hplaces
    obtain ⟨buffer, cause, hrefused, _⟩ := appendVarlen_refused hl hk hplaces
    rw [hrefused] at h
    cases h
  rw [appendVarlen_eq hl hk hplaces] at h ⊢
  obtain ⟨b₁, hmark, hon⟩ := of_onward_ok h
  obtain rfl := setDefined_ok hmark
  have hentry := SameBut.overwrite
    (LittleEndian.length_encode entrySize (b.chunk.varlen - b.chunk.start)) hplaces.entry
  have hroom := hplaces.room
  rw [← hentry.length_eq] at hroom
  have htext := SameBut.overwrite rfl hroom
  rw [Chunk.taking_of_some hp]
  refine ⟨hplaces, _, ?_, hon⟩
  refine (hentry.mono fun bit hbit => ?_).trans
    ((htext.mono fun bit hbit => ?_).trans ((SameBut.mark _ _ p).mono fun bit hbit => ?_))
  · exact .entry hp hbit
  · exact .text hp hbit
  · exact .mark hl (Value.isUndefined_of_payload hp) hbit

/-- A value of fixed size writes its slot and its mark. -/
theorem append_fills_fixed (hg : g.LaidOut) (hl : b.schema.locate b.index = .ok (g, p, c))
    (hc : g.columns[p]? = some c) (hv : c.admits v = true) (hp : v.payload? = none)
    (hd : v.isUndefined = false) (h : (b.append v).outcome = .ok ()) :
    ∃ buffer, SameBut (b.Fills v) b.buffer buffer ∧ b.append v = advance { b with buffer } := by
  have hst := Column.stores_of_admits hv
  have hf := Column.isFixedSize_of_none hst hp hd
  obtain ⟨actual, hk, happ⟩ := append_of_fixed hl hv hp hd
  rw [happ, appendFixed_eq hg hl hc hf hk] at h ⊢
  obtain ⟨b₁, hwrite, hon⟩ := of_onward_ok h
  rw [hon] at h ⊢
  obtain ⟨hle, rfl⟩ := write_ok hwrite
  obtain ⟨b₂, hmark, hon⟩ := of_onward_ok h
  rw [hon]
  obtain rfl := setDefined_ok hmark
  refine ⟨_, ?_, rfl⟩
  refine ((SameBut.overwrite rfl hle).mono fun bit hbit => ?_).trans
    ((SameBut.mark _ _ p).mono fun bit hbit => ?_)
  · refine .slot hl hd hp (hg.fixedOffset_eq hc hf) ⟨hbit.1, ?_⟩
    exact Nat.lt_of_lt_of_le hbit.2 (Nat.add_le_add_left (Column.length_fixedBytes_le hst) _)
  · exact .mark hl hd hbit

/-- **What an append that succeeds writes before it advances**: bits of its value, where a text or byte
    string has found its place. -/
theorem append_fills (hs : b.schema.Sound) (h : (b.append v).outcome = .ok ()) :
    ∃ g p c buffer, b.schema.locate b.index = .ok (g, p, c) ∧
      (∀ bytes, v.payload? = some bytes → b.Places bytes) ∧
      SameBut (b.Fills v) b.buffer buffer ∧
      b.append v = advance { b with buffer, chunk := b.chunk.taking v } := by
  have hin : b.index < b.schema.length := by
    apply Nat.not_le.mp
    intro hout
    rw [append_out hout] at h
    cases h
  obtain ⟨c, hcolumn⟩ := Schema.exists_column hin
  obtain ⟨g, p, hl⟩ := Schema.locate_of_column hcolumn
  obtain ⟨hgroup, hc, _⟩ := Schema.of_locate hl
  have hv := admits_of_append hl h
  refine ⟨g, p, c, ?_⟩
  cases hp : v.payload? with
  | some bytes =>
      obtain ⟨hplaces, buffer, hsame, happ⟩ := append_fills_payload hl hv hp h
      exact ⟨buffer, hl, fun _ hbytes => Option.some.inj hbytes ▸ hplaces, hsame, happ⟩
  | none =>
      rw [Chunk.taking_of_none hp]
      cases hd : v.isUndefined with
      | true =>
          obtain rfl := Value.eq_undefined hd
          exact ⟨b.buffer, hl, (by simp), .refl _ _, append_null hl hv⟩
      | false =>
          obtain ⟨buffer, hsame, happ⟩ :=
            append_fills_fixed (hs.group_laidOut hgroup) hl hc hv hp hd h
          exact ⟨buffer, hl, (by simp), hsame, happ⟩

/-! ## 4. The order of the parts -/

/-- **The parts of the chunk of a group lie in order** in a buffer of the given size, behind the
    fingerprint. -/
structure Placed (chunk : Chunk) (g : Columns) (size : Nat) : Prop where
  start_le : Fingerprint.size ≤ chunk.start
  table_eq : chunk.table = chunk.start + chunkHeaderSize + g.nullMapSize
  fixed_eq : chunk.fixed = chunk.table + chunk.declared * entrySize
  data_le : chunk.fixed + g.fixedSize ≤ chunk.varlen
  varlen_le : chunk.varlen ≤ size
  written_le : chunk.written ≤ chunk.declared

/-- The chunk that the builder writes is its column's own, and lies in the reserved bytes. -/
def Stands (b : Builder) : Prop := Placed b.chunk (b.schema.group b.index).1 b.buffer.length

theorem placed_layOut {start declared size : Nat} (hstart : Fingerprint.size ≤ start)
    (hroom : (Chunk.layOut start g declared).varlen ≤ size) :
    Placed (.layOut start g declared) g size :=
  ⟨hstart, rfl, rfl, Nat.le_refl _, hroom, Nat.zero_le _⟩

/-- A value that finds its place leaves the parts in order. -/
theorem Placed.taking (h : Placed b.chunk g b.buffer.length)
    (hplaces : ∀ bytes, v.payload? = some bytes → b.Places bytes) :
    Placed (b.chunk.taking v) g b.buffer.length := by
  cases hp : v.payload? with
  | none =>
      rw [Chunk.taking_of_none hp]
      exact h
  | some bytes =>
      rw [Chunk.taking_of_some hp]
      have hfull := hplaces bytes hp
      exact ⟨h.start_le, h.table_eq, h.fixed_eq, Nat.le_trans h.data_le (Nat.le_add_right _ _),
        hfull.room, hfull.declared⟩

theorem Placed.start_le_varlen {chunk : Chunk} {size : Nat} (h : Placed chunk g size) :
    chunk.start + chunkHeaderSize + g.nullMapSize + chunk.declared * entrySize + g.fixedSize ≤
      chunk.varlen := by
  have htable := h.table_eq
  have hfixed := h.fixed_eq
  have hdata := h.data_le
  omega

/-- **One append**: what it writes, where the builder stands afterwards, and that the parts are in order
    there. -/
theorem append_stands (hs : b.schema.Sound) (hb : b.Stands) (h : (b.append v).outcome = .ok ()) :
    ∃ buffer, (b.append v).builder = { b with
        buffer, index := b.index + 1, chunk := nextChunk { b with chunk := b.chunk.taking v } } ∧
      SameBut (b.Owns v) b.buffer buffer ∧ (b.append v).builder.Stands := by
  obtain ⟨g, p, c, filled, hl, hplaces, hfills, happ⟩ := append_fills hs h
  rw [happ] at h ⊢
  obtain ⟨buffer, hadv, hcloses, hroom⟩ := advance_ok h
  have hsame : SameBut (b.Owns v) b.buffer buffer := by
    refine (hfills.mono fun bit hbit => Or.inl hbit).trans (hcloses.mono fun bit hbit => Or.inr ?_)
    cases hbit with
    | own hlast hbit => exact .own hlast hbit
    | empty hlast hnone hbit => exact .empty hlast hnone hbit
  refine ⟨buffer, hadv, hsame, ?_⟩
  rw [hadv]
  have htaking := Placed.taking hb hplaces
  unfold Stands
  dsimp only
  rw [hsame.length_eq]
  by_cases hlast : b.index + 1 = b.schema.key.length
  · rw [hlast, Schema.group_key_length]
    have hnext : nextChunk { b with buffer := filled, chunk := b.chunk.taking v } =
        .layOut (b.chunk.taking v).varlen b.schema.value b.valueDeclared := if_pos hlast
    have hroom : (nextChunk _).varlen ≤ filled.length := hroom hlast
    rw [hnext] at hroom ⊢
    have hlength : filled.length = b.buffer.length := hfills.length_eq
    rw [hlength] at hroom
    refine placed_layOut ?_ hroom
    have hstart := htaking.start_le
    have hle := htaking.start_le_varlen
    omega
  · have hnext : nextChunk { b with buffer := filled, chunk := b.chunk.taking v } =
        b.chunk.taking v := if_neg hlast
    rw [Schema.group_succ hlast, hnext]
    exact htaking

/-! ## 5. What is behind -/

/-- The bits of a chunk that its first `p` columns have taken, and all bits before the chunk. -/
inductive Behind (chunk : Chunk) (g : Columns) (p bit : Nat) : Prop
  | before (hbit : bit / 8 < chunk.start)
  | mark {q : Nat} (hq : q < p) (hbit : bit = 8 * (chunk.start + chunkHeaderSize) + q)
  | slot (hbit : Covers chunk.fixed (Columns.widths (g.columns.take p)) bit)
  | entry (hbit : Covers chunk.table (chunk.written * entrySize) bit)
  | text (hfrom : chunk.fixed + g.fixedSize ≤ bit / 8) (hto : bit / 8 < chunk.varlen)

/-- **The bits that are settled**: those behind the builder, and behind the last column all. -/
def Settled (b : Builder) (bit : Nat) : Prop :=
  b.index = b.schema.length ∨
    Behind b.chunk (b.schema.group b.index).1 (b.schema.group b.index).2 bit

section Column

variable {size : Nat} (hg : g.LaidOut) (hc : g.columns[p]? = some c)

include hg hc

/-- A fixed offset is what the columns before take. -/
theorem offset_eq (ho : g.fixedOffset (ε := TupleError) p = .ok offset) :
    offset = Columns.widths (g.columns.take p) := by
  cases hf : c.isFixedSize with
  | true =>
      cases (hg.fixedOffset_eq hc hf).symm.trans ho
      rfl
  | false =>
      unfold Columns.fixedOffset Columns.column? at ho
      rw [hc] at ho
      simp only [hf] at ho
      cases ho

/-- The parts that the next column takes lie in the chunk's own, one behind the other. -/
theorem Placed.bounds {chunk : Chunk} (hp : Placed chunk g size) :
    chunk.start + chunkHeaderSize + p / 8 < chunk.table ∧
    chunk.table + chunk.written * entrySize ≤ chunk.fixed ∧
    Columns.widths (g.columns.take p) + c.type.size ≤ g.fixedSize ∧
    chunk.fixed + g.fixedSize ≤ chunk.varlen := by
  have hlt : p < g.columns.length := (List.getElem?_eq_some_iff.mp hc).1
  have hmap : g.nullMapSize = (g.columns.length + 7) / 8 := rfl
  have htable := hp.table_eq
  have hwritten := Nat.mul_le_mul_right entrySize hp.written_le
  refine ⟨by omega, ?_, ?_, hp.data_le⟩
  · rw [hp.fixed_eq]
    exact Nat.add_le_add_left hwritten _
  · rw [hg.fixedSize_eq]
    exact Columns.widths_take_le hc

/-- What is behind a column lies before the chunk's end. -/
theorem Behind.lt_varlen {chunk : Chunk} (h : Behind chunk g (p + 1) bit) (hp : Placed chunk g size) :
    bit / 8 < chunk.varlen := by
  obtain ⟨hmap, hentries, hslots, hdata⟩ := hp.bounds hg hc
  cases h with
  | before hbit => omega
  | mark hq hbit => omega
  | slot hbit =>
      rw [Columns.widths_take_succ hc] at hbit
      have := hbit.2
      omega
  | entry hbit =>
      have := hbit.2
      omega
  | text hfrom hto => exact hto

omit hg in
/-- What is behind stays behind when the next column takes its value. -/
theorem Behind.next {chunk : Chunk} (h : Behind chunk g p bit) (v : Value) :
    Behind (chunk.taking v) g (p + 1) bit := by
  obtain ⟨hstart, htable, hfixed, _, hvarlen, hwritten⟩ := Chunk.taking_beside chunk v
  cases h with
  | before hbit => exact .before (hstart ▸ hbit)
  | mark hq hbit => exact .mark (Nat.lt_succ_of_lt hq) (hstart ▸ hbit)
  | slot hbit =>
      refine .slot ⟨hfixed ▸ hbit.1, Nat.lt_of_lt_of_le hbit.2 ?_⟩
      rw [hfixed, Columns.widths_take_succ hc]
      omega
  | entry hbit =>
      refine .entry ⟨htable ▸ hbit.1, Nat.lt_of_lt_of_le hbit.2 ?_⟩
      have := Nat.mul_le_mul_right entrySize hwritten
      omega
  | text hfrom hto => exact .text (hfixed ▸ hfrom) (Nat.lt_of_lt_of_le hto hvarlen)

/-- The bits of the next column's value are behind it when it is taken. -/
theorem Fills.behind (h : b.Fills v bit) (hl : b.schema.locate b.index = .ok (g, p, c))
    (hp : Placed b.chunk g size) : Behind (b.chunk.taking v) g (p + 1) bit := by
  obtain ⟨hstart, htable, hfixed, _, _, _⟩ := Chunk.taking_beside b.chunk v
  cases h with
  | mark hl' hd hbit =>
      cases hl.symm.trans hl'
      exact .mark (Nat.lt_succ_self p) (hstart ▸ hbit)
  | slot hl' hd hv ho hbit =>
      cases hl.symm.trans hl'
      obtain rfl := offset_eq hg hc ho
      refine .slot ⟨?_, ?_⟩
      · rw [hfixed]
        exact Nat.le_trans (Nat.le_add_right _ _) hbit.1
      · rw [hfixed, Columns.widths_take_succ hc, ← Nat.add_assoc]
        exact hbit.2
  | entry hv hbit =>
      rw [Chunk.taking_of_some hv]
      refine .entry ⟨Nat.le_trans (Nat.le_add_right _ _) hbit.1, ?_⟩
      rw [Nat.succ_mul, ← Nat.add_assoc]
      exact hbit.2
  | text hv hbit =>
      rw [Chunk.taking_of_some hv]
      exact .text (Nat.le_trans hp.data_le hbit.1) hbit.2

/-- No column takes what is behind. -/
theorem Behind.not_fills (h : Behind b.chunk g p bit) (hl : b.schema.locate b.index = .ok (g, p, c))
    (hp : Placed b.chunk g size) (hplaces : ∀ bytes, v.payload? = some bytes → b.Places bytes) :
    ¬ b.Fills v bit := by
  obtain ⟨hmap, hentries, hslots, hdata⟩ := hp.bounds hg hc
  intro hfills
  cases hfills with
  | mark hl' hd hown =>
      cases hl.symm.trans hl'
      rcases h with hbit | ⟨hq, hbit⟩ | ⟨hbit, _⟩ | ⟨hbit, _⟩ | ⟨hfrom, _⟩ <;> omega
  | slot hl' hd hv ho hown =>
      cases hl.symm.trans hl'
      obtain rfl := offset_eq hg hc ho
      obtain ⟨hfrom, hto⟩ := hown
      rcases h with hbit | ⟨hq, hbit⟩ | ⟨_, hbit⟩ | ⟨_, hbit⟩ | ⟨hbit, _⟩ <;> omega
  | entry hv hown =>
      obtain ⟨hfrom, hto⟩ := hown
      have hnext := Nat.mul_le_mul_right entrySize (hplaces _ hv).declared
      rw [Nat.succ_mul] at hnext
      have hfixed := hp.fixed_eq
      rcases h with hbit | ⟨hq, hbit⟩ | ⟨hbit, _⟩ | ⟨_, hbit⟩ | ⟨hbit, _⟩ <;> omega
  | text hv hown =>
      obtain ⟨hfrom, _⟩ := hown
      rcases h with hbit | ⟨hq, hbit⟩ | ⟨_, hbit⟩ | ⟨_, hbit⟩ | ⟨_, hbit⟩ <;> omega

/-- Closing a chunk does not touch what is behind in it. -/
theorem Behind.not_closes (h : Behind b.chunk g (p + 1) bit) (hp : Placed b.chunk g size) :
    ¬ b.Closes bit := by
  have hend := h.lt_varlen hg hc hp
  obtain ⟨hmap, hentries, _, _⟩ := hp.bounds hg hc
  intro hcloses
  cases hcloses with
  | own _ hown =>
      obtain ⟨hfrom, hto⟩ := hown
      rcases h with hbit | ⟨hq, hbit⟩ | ⟨hbit, _⟩ | ⟨hbit, _⟩ | ⟨hbit, _⟩ <;> omega
  | empty _ _ hown =>
      obtain ⟨hfrom, _⟩ := hown
      omega

end Column

/-! ## 6. Later appends -/

section Append

variable (hs : b.schema.Sound) (hb : b.Stands) (h : (b.append v).outcome = .ok ())

include hs hb h

/-- **No append takes what is settled.** -/
theorem Settled.not_owns (hbit : b.Settled bit) : ¬ b.Owns v bit := by
  obtain ⟨g, p, c, _, hl, hplaces, _⟩ := append_fills hs h
  obtain ⟨hgroup, hc, hlt⟩ := Schema.of_locate hl
  have hg := hs.group_laidOut hgroup
  unfold Settled at hbit
  unfold Stands at hb
  rw [hgroup] at hbit hb
  rcases hbit with hend | hbehind
  · exact absurd hend (Nat.ne_of_lt hlt)
  · rintro (hfills | hcloses)
    · exact hbehind.not_fills hg hc hl hb hplaces hfills
    · exact Behind.not_closes hg hc (hbehind.next hc v) (Placed.taking hb hplaces) hcloses

/-- **What an append takes is settled by it**, and what was settled stays so. -/
theorem settled_append (hbit : b.Settled bit ∨ b.Owns v bit) : (b.append v).builder.Settled bit := by
  obtain ⟨g, p, c, _, hl, hplaces, _⟩ := append_fills hs h
  obtain ⟨hgroup, hc, hlt⟩ := Schema.of_locate hl
  have hg := hs.group_laidOut hgroup
  obtain ⟨buffer, hafter, _⟩ := append_stands hs hb h
  unfold Stands at hb
  rw [hgroup] at hb
  have htaking := Placed.taking hb hplaces
  rw [hafter]
  unfold Settled nextChunk
  dsimp only
  have hnext : Behind (b.chunk.taking v) g (p + 1) bit →
      b.index + 1 = b.schema.length ∨ Behind
        (if b.index + 1 = b.schema.key.length then
          .layOut (b.chunk.taking v).varlen b.schema.value b.valueDeclared
        else b.chunk.taking v)
        (b.schema.group (b.index + 1)).1 (b.schema.group (b.index + 1)).2 bit := by
    intro hbehind
    refine Or.inr ?_
    by_cases hlast : b.index + 1 = b.schema.key.length
    · rw [if_pos hlast]
      exact .before (hbehind.lt_varlen hg hc htaking)
    · rw [if_neg hlast, Schema.group_succ hlast, hgroup]
      exact hbehind
  rcases hbit with (hend | hbehind) | (hfills | hcloses)
  · exact absurd hend (Nat.ne_of_lt hlt)
  · rw [hgroup] at hbehind
    exact hnext (hbehind.next hc v)
  · exact hnext (hfills.behind hg hc hl hb)
  · cases hcloses with
    | own hlast hown =>
        rcases hlast with hkey | hend
        · have hle := htaking.start_le_varlen
          obtain ⟨_, hto⟩ := hown
          refine Or.inr ?_
          rw [if_pos hkey]
          exact .before (Nat.lt_of_lt_of_le hto (by dsimp only [Chunk.layOut]; omega))
        · exact Or.inl hend
    | empty hlast hnone hown =>
        refine Or.inl (hlast.trans ?_)
        unfold Schema.length
        rw [hnone, Nat.add_zero]

end Append

/-- What is settled stays as it is, whatever is appended. -/
theorem Settled.bit_eq : ∀ {later : List Value} {b : Builder}, b.schema.Sound → b.Stands →
    (b.appendAll later).outcome = .ok () → b.Settled bit →
      bitAt (b.appendAll later).builder.buffer bit = bitAt b.buffer bit
  | [], _, _, _, _, _ => rfl
  | v :: rest, b, hs, hb, h, hbit => by
      obtain ⟨hv, hcons⟩ := of_appendAll_ok h
      rw [hcons] at h ⊢
      obtain ⟨buffer, hafter, hsame, hstands⟩ := append_stands hs hb hv
      have hrest := Settled.bit_eq (schema_append b v ▸ hs) hstands h
        (settled_append hs hb hv (Or.inl hbit))
      rw [hrest, hafter]
      exact hsame.bit_eq bit (hbit.not_owns hs hb hv)

/-! ## 7. Every builder that appends lead to -/

variable {version : UInt32} {key value : List Column} {s : Schema}
  {size keyDeclared valueDeclared : Nat} {b₀ : Builder} {row : List Value}

/-- A new builder stands at the key's chunk. -/
theorem stands_new (hs : s.Sound) (h : Builder.new s size keyDeclared valueDeclared = .ok b) :
    b.Stands := by
  unfold Builder.new at h
  obtain ⟨chunk, hbegin, h⟩ := Outcome.bind_ok h
  obtain rfl := begin_ok hbegin
  split at h
  · cases h
  · rename_i hsize
    split at h
    · cases h
    · cases h
      have hgroup : s.group 0 = (s.key, 0) := if_pos hs.key_pos
      have hroom := Nat.not_lt.mp hsize
      have hprint := s.fingerprint.length_toBytes
      unfold Stands
      dsimp only
      rw [hgroup, List.length_append, List.length_replicate, hprint]
      refine placed_layOut (Nat.le_refl _) ?_
      omega

/-- Appends that all succeed leave the parts in order. -/
theorem Stands.appendAll : ∀ {row : List Value} {b : Builder}, b.schema.Sound → b.Stands →
    (b.appendAll row).outcome = .ok () → (b.appendAll row).builder.Stands
  | [], _, _, hb, _ => hb
  | v :: rest, b, hs, hb, h => by
      obtain ⟨hv, hcons⟩ := of_appendAll_ok h
      rw [hcons] at h ⊢
      obtain ⟨buffer, _, _, hstands⟩ := append_stands hs hb hv
      exact Stands.appendAll (schema_append b v ▸ hs) hstands h

/-- The chunk of the column behind some values: the key's behind the fingerprint, or the value's behind the
    finished key, with what its own group was given. -/
def openChunk (s : Schema) (keyDeclared valueDeclared : Nat) (row : List Value) : Chunk :=
  if row.length < s.key.length then .after Fingerprint.size s.key keyDeclared row
  else .after (Fingerprint.size + (s.key.encode (row.take s.key.length)).length) s.value
    valueDeclared (row.drop s.key.length)

/-- As long as a column is left, the chunk is that of the column's group. -/
theorem Wrote.chunk_eq (hb : Wrote s keyDeclared valueDeclared b row) (hlt : b.index < s.length) :
    b.chunk = openChunk s keyDeclared valueDeclared row := by
  have hprint := s.fingerprint.length_toBytes
  unfold openChunk
  cases hb with
  | key hl ho => rw [if_pos hl, ho.chunk_eq, hprint]
  | @value _ _ ks vs hk hl ho =>
      have hlen := hk.length_eq
      rw [if_neg (by rw [List.length_append]; omega), List.take_left' hlen, List.drop_left' hlen,
        ho.chunk_eq, List.length_append, hprint]
  | done room hf hc => exact absurd hlt (Nat.lt_irrefl _)

/-- **An append writes only its own bits.** Wherever appends that all succeed lead to, the parts of the chunk
    lie in order in the reserved bytes and are those of the next column's group. One more append that
    succeeds changes bits that it owns and no other, and no later append changes one of these. -/
theorem append_owns {b b₀ : Builder} (hdef : Schema.define version key value = .ok s)
    (hnew : Builder.new s size keyDeclared valueDeclared = .ok b₀)
    (happ : b₀.appendAll row = ⟨b, .ok ()⟩) :
    (Fingerprint.size ≤ b.chunk.start ∧ b.chunk.start ≤ b.chunk.table ∧
      b.chunk.table ≤ b.chunk.fixed ∧ b.chunk.fixed ≤ b.chunk.varlen ∧
      b.chunk.varlen ≤ b.buffer.length ∧ b.chunk.written ≤ b.chunk.declared) ∧
    (b.index = row.length ∧
      (b.index < s.length → b.chunk = openChunk s keyDeclared valueDeclared row)) ∧
    ∀ (v : Value) (b' : Builder), b.append v = ⟨b', .ok ()⟩ →
      SameBut (b.Owns v) b.buffer b'.buffer ∧
      ∀ (later : List Value) (b'' : Builder), b'.appendAll later = ⟨b'', .ok ()⟩ →
        ∀ bit, b.Owns v bit → bitAt b''.buffer bit = bitAt b'.buffer bit := by
  have hs := Schema.sound_of_define hdef
  have hok : (b₀.appendAll row).outcome = .ok () := congrArg Step.outcome happ
  have hnewWrote := Wrote.of_new hs hnew
  have hwrote := hnewWrote.appendAll hs hok
  have hstands := Stands.appendAll (hnewWrote.schema_eq ▸ hs) (stands_new hs hnew) hok
  rw [happ, List.nil_append] at hwrote
  rw [happ] at hstands
  have hsound : b.schema.Sound := hwrote.schema_eq ▸ hs
  refine ⟨⟨hstands.start_le, ?_, ?_, ?_, hstands.varlen_le, hstands.written_le⟩,
    ⟨hwrote.index_eq, hwrote.chunk_eq⟩, fun v b' hv => ?_⟩
  · rw [hstands.table_eq, Nat.add_assoc]
    exact Nat.le_add_right _ _
  · rw [hstands.fixed_eq]
    exact Nat.le_add_right _ _
  · exact Nat.le_trans (Nat.le_add_right _ _) hstands.data_le
  · have hvok : (b.append v).outcome = .ok () := congrArg Step.outcome hv
    obtain ⟨buffer, hafter, hsame, hstands'⟩ := append_stands hsound hstands hvok
    have hsound' : (b.append v).builder.schema.Sound := schema_append b v ▸ hsound
    have hbuffer : b'.buffer = buffer := by
      rw [hv] at hafter
      exact congrArg Builder.buffer hafter
    refine ⟨hbuffer ▸ hsame, fun later b'' hlater bit hbit => ?_⟩
    have hsettled := settled_append hsound hstands hvok (Or.inr hbit)
    rw [hv] at hstands' hsound' hsettled
    have hkept := Settled.bit_eq hsound' hstands' (congrArg Step.outcome hlater) hsettled
    rwa [hlater] at hkept

/-- A new builder for a row of the sample schema. -/
def sampleBuilder : Builder :=
  { schema := sampleSchema
    buffer := sampleSchema.fingerprint.toBytes ++ List.replicate 26 0
    index := 0
    chunk := .layOut Fingerprint.size sampleSchema.key 0
    valueDeclared := 2 }

theorem eq_of_outcome {step : Step TupleError} (h : step.outcome = .ok ()) :
    step = ⟨step.builder, .ok ()⟩ :=
  h ▸ rfl

/-- A bit mask behind a number, the last of the key, and the texts and byte strings behind it. -/
theorem append_owns_sample :
    Schema.define 1 sampleKey sampleValue = .ok sampleSchema ∧
    Builder.new sampleSchema 34 0 2 = .ok sampleBuilder ∧ ∃ b b' b'',
    sampleBuilder.appendAll [.number .int4 42] = ⟨b, .ok ()⟩ ∧
    b.append (.bitSet (BitSet.ofList [0, 9])) = ⟨b', .ok ()⟩ ∧
    b'.appendAll [.utf8 "", .undefined, .blob [1, 2]] = ⟨b'', .ok ()⟩ ∧
    SameBut (b.Owns (.bitSet (BitSet.ofList [0, 9]))) b.buffer b'.buffer ∧
    ∀ bit, b.Owns (.bitSet (BitSet.ofList [0, 9])) bit → bitAt b''.buffer bit = bitAt b'.buffer bit := by
  have hdef : Schema.define 1 sampleKey sampleValue = .ok sampleSchema := rfl
  have hnew : Builder.new sampleSchema 34 0 2 = .ok sampleBuilder := rfl
  have happ : sampleBuilder.appendAll [.number .int4 42] = ⟨_, .ok ()⟩ := eq_of_outcome rfl
  obtain ⟨_, _, happend⟩ := append_owns hdef hnew happ
  obtain ⟨hsame, hlater⟩ := happend (.bitSet (BitSet.ofList [0, 9])) _ (eq_of_outcome rfl)
  exact ⟨hdef, hnew, _, _, _, happ, eq_of_outcome rfl, eq_of_outcome rfl, hsame,
    hlater _ _ (eq_of_outcome rfl)⟩

end Builder

end RowCodec
