import RowCodec.Proofs.Tuple.Append

/-!
# A whole row, column by column

The builder's invariant, from `Builder.new` to `Builder.build`.

* `Builder.Wrote` -- the builder has taken the values `vs`: the key's chunk lies open, or the value's
  behind the finished key, or both are finished and only room is left.
* `Wrote.append_ok`, `Wrote.append_kept` -- an append that succeeds adds its value; one that is
  refused and leaves the index changes nothing. An append that is refused and moves the index leaves
  the invariant behind: nothing is said about the builder after it.
* `Wrote.build` -- the bytes handed out are `Schema.encode` of the row.
-/

namespace RowCodec

namespace Builder

variable {b b' : Builder} {s : Schema} {keyDeclared valueDeclared : Nat} {g : Columns}
  {declared : Nat} {before : List UInt8} {vs ks : List Value} {v : Value}

/-! ## 1. Closing a chunk -/

/-- An answer that lets an append succeed. -/
theorem of_onward_ok {α : Type} {outcome : Outcome TupleError α} {next : α → Step TupleError}
    (h : (b.onward outcome next).outcome = .ok ()) :
    ∃ a, outcome = .ok a ∧ b.onward outcome next = next a := by
  cases outcome with
  | error fault => cases h
  | ok a => exact ⟨a, rfl, rfl⟩

theorem chunkOffset_ok {index relative : Nat} {bytes : List UInt8}
    (h : chunkOffset index relative = .ok bytes) :
    relative ≤ maxChunkOffset ∧ bytes = LittleEndian.encode chunkHeaderSize relative := by
  unfold chunkOffset at h
  split at h
  · rename_i hle
    cases h
    exact ⟨hle, rfl⟩
  · cases h

theorem begin_ok {start : Nat} {chunk : Chunk} (h : Chunk.begin start g declared = .ok chunk) :
    chunk = Chunk.layOut start g declared := by
  unfold Chunk.begin at h
  dsimp only at h
  split at h
  · cases h
    rfl
  · cases h

/-- **A chunk that can be closed** has taken as many texts and byte strings as declared, and behind it
    there is only room. -/
theorem finishChunk_open (hg : g.LaidOut) (ho : Chunk.Open g declared before vs b.chunk b.buffer)
    (hl : vs.length = g.length) (h : b.finishChunk = .ok b') :
    g.Fits vs ∧ b.chunk.varlen = (before ++ g.encode vs).length ∧
      ∃ room, b' = { b with buffer := before ++ g.encode vs ++ List.replicate room 0 } := by
  unfold finishChunk at h
  split at h
  · cases h
  · rename_i hw
    have hw : b.chunk.written = b.chunk.declared := Decidable.of_not_not hw
    obtain ⟨hvar, room, hover, hroom⟩ := ho.close hg hl hw
    have hstart : b.chunk.start = before.length := by
      rw [ho.chunk_eq]
      rfl
    obtain ⟨length, hx, hwrite⟩ := Outcome.bind_ok h
    obtain ⟨hle, rfl⟩ := chunkOffset_ok hx
    rw [hvar, Nat.add_sub_cancel_left] at hle
    rw [write_of_le] at hwrite
    · cases hwrite
      refine ⟨⟨hl, ho.admits, hle⟩, ?_, room, ?_⟩
      · rw [hvar, hstart, List.length_append]
      · rw [hover]
    · rw [LittleEndian.length_encode, hroom, hvar]
      unfold Columns.encode
      rw [List.length_append, LittleEndian.length_encode]
      omega

/-- Past the last column every value is refused. -/
theorem append_out (hi : b.schema.length ≤ b.index) (v : Value) :
    b.append v = ⟨b, Outcome.refuse (.columnOutOfRange b.index b.schema.length)⟩ := by
  have hcolumn : b.column = Outcome.refuse (.columnOutOfRange b.index b.schema.length) := by
    unfold column
    rw [Schema.locate_out hi]
    rfl
  have hcolumnOf : ∀ actual, b.columnOf actual =
      Outcome.refuse (.columnOutOfRange b.index b.schema.length) := by
    intro actual
    unfold columnOf
    rw [hcolumn]
    rfl
  cases v with
  | undefined => simp [append, appendNull, hcolumn]
  | bitSet bits => simp [append, appendBitSet, hcolumn]
  | number kind word => simp [append, appendFixed, hcolumnOf]
  | uuid id => simp [append, appendFixed, hcolumnOf]
  | utf8 text => simp [append, appendVarlen, hcolumnOf]
  | blob bytes => simp [append, appendVarlen, hcolumnOf]

/-! ## 2. The invariant -/

/-- **The values that a builder has taken**, and where it stands. -/
inductive Wrote (s : Schema) (keyDeclared valueDeclared : Nat) : Builder → List Value → Prop
  /-- The key's chunk lies open. -/
  | key {buffer : List UInt8} {chunk : Chunk} {vs : List Value} (hl : vs.length < s.key.length)
      (ho : Chunk.Open s.key keyDeclared s.fingerprint.toBytes vs chunk buffer) :
      Wrote s keyDeclared valueDeclared ⟨s, buffer, vs.length, chunk, valueDeclared⟩ vs
  /-- The value's chunk lies open behind the key's. -/
  | value {buffer : List UInt8} {chunk : Chunk} {ks vs : List Value} (hk : s.key.Fits ks)
      (hl : vs.length < s.value.length)
      (ho : Chunk.Open s.value valueDeclared (s.fingerprint.toBytes ++ s.key.encode ks) vs chunk
        buffer) :
      Wrote s keyDeclared valueDeclared
        ⟨s, buffer, s.key.length + vs.length, chunk, valueDeclared⟩ (ks ++ vs)
  /-- Both chunks are finished. -/
  | done {chunk : Chunk} {row : List Value} (room : Nat) (hf : s.Fits row)
      (hc : chunk.varlen = (s.encode row).length) :
      Wrote s keyDeclared valueDeclared
        ⟨s, s.encode row ++ List.replicate room 0, s.length, chunk, valueDeclared⟩ row

namespace Wrote

theorem index_eq (h : Wrote s keyDeclared valueDeclared b vs) : b.index = vs.length := by
  cases h with
  | key hl ho => rfl
  | value hk hl ho => rw [List.length_append, hk.length_eq]
  | done room hf hc => exact hf.length_eq.symm

theorem schema_eq (h : Wrote s keyDeclared valueDeclared b vs) : b.schema = s := by
  cases h <;> rfl

/-- A new builder has taken nothing. -/
theorem of_new (hs : s.Sound) {size : Nat}
    (h : Builder.new s size keyDeclared valueDeclared = .ok b) :
    Wrote s keyDeclared valueDeclared b [] := by
  unfold Builder.new at h
  obtain ⟨chunk, hbegin, h⟩ := Outcome.bind_ok h
  obtain rfl := begin_ok hbegin
  split at h
  · cases h
  · rename_i hsize
    split at h
    · cases h
    · cases h
      have hbefore := s.fingerprint.length_toBytes
      have hfull : Fingerprint.size ≤ (Chunk.layOut Fingerprint.size s.key keyDeclared).varlen := by
        show Fingerprint.size ≤ Fingerprint.size + chunkHeaderSize + s.key.nullMapSize
          + keyDeclared * entrySize + s.key.fixedSize
        omega
      have hpos : ([] : List Value).length < s.key.length := hs.key_pos
      refine key hpos ?_
      rw [← hbefore]
      refine Chunk.Open.start hs.key rfl ?_
      rw [List.length_append, List.length_replicate, hbefore]
      omega

/-- Closing the last chunk finishes the row. -/
theorem closeLast_value (hs : s.Sound) (hk : s.key.Fits ks) (hl : vs.length ≤ s.value.length)
    {buffer : List UInt8} {chunk : Chunk}
    (ho : Chunk.Open s.value valueDeclared (s.fingerprint.toBytes ++ s.key.encode ks) vs chunk buffer)
    (h : (closeLast ⟨s, buffer, s.key.length + vs.length, chunk, valueDeclared⟩).outcome = .ok ()) :
    Wrote s keyDeclared valueDeclared
      (closeLast ⟨s, buffer, s.key.length + vs.length, chunk, valueDeclared⟩).builder (ks ++ vs) := by
  unfold closeLast at h ⊢
  by_cases hlast : vs.length = s.value.length
  · have hi : s.key.length + vs.length = s.length := congrArg (s.key.length + ·) hlast
    rw [if_pos hi] at h ⊢
    obtain ⟨b', hfin, hon⟩ := of_onward_ok h
    obtain ⟨hv, hvar, room, rfl⟩ := finishChunk_open hs.value ho hlast hfin
    rw [hon, ← Schema.encode_append hk.length_eq]
    show Wrote s keyDeclared valueDeclared ⟨s, _, s.key.length + vs.length, chunk, valueDeclared⟩ _
    rw [hi]
    refine done room (Schema.Fits.append hk hv) ?_
    rw [Schema.encode_append hk.length_eq]
    exact hvar
  · have hi : ¬ s.key.length + vs.length = s.length := by
      unfold Schema.length
      omega
    rw [if_neg hi]
    exact value hk (by omega) ho

/-- An advance inside the value's chunk, or behind its last column. -/
theorem advance_value (hs : s.Sound) (hk : s.key.Fits ks) (hl : (vs ++ [v]).length ≤ s.value.length)
    {buffer : List UInt8} {chunk : Chunk}
    (ho : Chunk.Open s.value valueDeclared (s.fingerprint.toBytes ++ s.key.encode ks) (vs ++ [v])
      chunk buffer)
    (h : (advance ⟨s, buffer, s.key.length + vs.length, chunk, valueDeclared⟩).outcome = .ok ()) :
    Wrote s keyDeclared valueDeclared
      (advance ⟨s, buffer, s.key.length + vs.length, chunk, valueDeclared⟩).builder
      (ks ++ (vs ++ [v])) := by
  have hi : ¬ s.key.length + vs.length + 1 = s.key.length := by omega
  have hadv : advance ⟨s, buffer, s.key.length + vs.length, chunk, valueDeclared⟩ =
      closeLast ⟨s, buffer, s.key.length + (vs ++ [v]).length, chunk, valueDeclared⟩ := by
    unfold advance
    rw [List.length_append]
    exact if_neg hi
  rw [hadv] at h ⊢
  exact closeLast_value hs hk hl ho h

/-- An advance inside the key's chunk, or behind its last column. -/
theorem advance_key (hs : s.Sound) (hl : (vs ++ [v]).length ≤ s.key.length)
    {buffer : List UInt8} {chunk : Chunk}
    (ho : Chunk.Open s.key keyDeclared s.fingerprint.toBytes (vs ++ [v]) chunk buffer)
    (h : (advance ⟨s, buffer, vs.length, chunk, valueDeclared⟩).outcome = .ok ()) :
    Wrote s keyDeclared valueDeclared
      (advance ⟨s, buffer, vs.length, chunk, valueDeclared⟩).builder (vs ++ [v]) := by
  have hlen : (vs ++ [v]).length = vs.length + 1 := List.length_append
  unfold advance at h ⊢
  dsimp only at h ⊢
  by_cases hlast : vs.length + 1 = s.key.length
  · -- The key's last column: its chunk is closed and the value's is begun.
    rw [if_pos hlast] at h ⊢
    obtain ⟨b₁, hfin, hon⟩ := of_onward_ok h
    rw [hon] at h ⊢
    obtain ⟨hk, hvar, room, rfl⟩ := finishChunk_open hs.key ho (hlen.trans hlast) hfin
    obtain ⟨next, hbegin, hon⟩ := of_onward_ok h
    rw [hon] at h ⊢
    have hbefore : next = Chunk.layOut (s.fingerprint.toBytes ++ s.key.encode (vs ++ [v])).length
        s.value valueDeclared := by
      rw [← hvar]
      exact begin_ok hbegin
    dsimp only at h ⊢
    split at h
    · cases h
    · rename_i hroom
      rw [if_neg hroom]
      have hopen := Chunk.Open.start hs.value rfl (hbefore ▸ Nat.not_lt.mp hroom)
      rw [← hbefore] at hopen
      rw [hlast] at h ⊢
      have hclosed : Wrote s keyDeclared valueDeclared _ (vs ++ [v] ++ []) :=
        closeLast_value hs hk (Nat.zero_le _) hopen h
      rw [List.append_nil] at hclosed
      exact hclosed
  · -- A column before the last: the chunk stays open.
    rw [if_neg hlast]
    unfold closeLast
    have hi : ¬ vs.length + 1 = s.length := by
      unfold Schema.length
      omega
    rw [if_neg hi, ← hlen]
    exact key (by omega) ho

/-- **What an append does to the values taken**: it advances, and if that succeeds the value is added,
    or it is refused and they stay, whatever it leaves of the bytes. -/
theorem append_split (hs : s.Sound) (hb : Wrote s keyDeclared valueDeclared b vs) (v : Value) :
    (∃ b₁ : Builder, b.append v = b₁.advance ∧ b₁.index = b.index ∧ (b₁.advance.outcome = .ok () →
      Wrote s keyDeclared valueDeclared b₁.advance.builder (vs ++ [v]))) ∨
    (∃ buffer cause, b.append v = ⟨{ b with buffer }, Outcome.refuse cause⟩ ∧
      buffer.length = b.buffer.length ∧ Wrote s keyDeclared valueDeclared { b with buffer } vs) := by
  cases hb with
  | @key buffer chunk vs hl ho =>
      obtain ⟨c, hc⟩ := Columns.exists_column hl
      have hloc := Schema.locate_key hc
      by_cases hv : c.admits v = true ∧ takes ⟨s, buffer, vs.length, chunk, valueDeclared⟩ v
      · obtain ⟨chunk', buffer', happ, _, hopen⟩ := append_admitted hs.key hloc hc ho hv.1 hv.2
        exact Or.inl ⟨_, happ, rfl, advance_key hs (Chunk.Open.length_append_le hc) hopen⟩
      · obtain ⟨buffer', cause, happ, hlen, hopen⟩ := append_refused hs.key hloc ho hv
        exact Or.inr ⟨_, _, happ, hlen, key hl hopen⟩
  | @value buffer chunk ks vs hk hl ho =>
      obtain ⟨c, hc⟩ := Columns.exists_column hl
      have hloc := Schema.locate_value hc
      by_cases hv : c.admits v = true ∧
          takes ⟨s, buffer, s.key.length + vs.length, chunk, valueDeclared⟩ v
      · obtain ⟨chunk', buffer', happ, _, hopen⟩ := append_admitted hs.value hloc hc ho hv.1 hv.2
        refine Or.inl ⟨_, happ, rfl, ?_⟩
        rw [List.append_assoc]
        exact advance_value hs hk (Chunk.Open.length_append_le hc) hopen
      · obtain ⟨buffer', cause, happ, hlen, hopen⟩ := append_refused hs.value hloc ho hv
        exact Or.inr ⟨_, _, happ, hlen, value hk hl hopen⟩
  | @done chunk vs room hf hc =>
      have hout : s.length ≤ s.length := Nat.le_refl _
      exact Or.inr ⟨_, _, append_out hout v, rfl, done room hf hc⟩

/-- **An append that succeeds adds its value.** -/
theorem append_ok (hs : s.Sound) (hb : Wrote s keyDeclared valueDeclared b vs)
    (h : (b.append v).outcome = .ok ()) :
    Wrote s keyDeclared valueDeclared (b.append v).builder (vs ++ [v]) := by
  rcases hb.append_split hs v with ⟨b₁, happ, _, hwrote⟩ | ⟨buffer, cause, happ, _⟩
  · rw [happ] at h ⊢
    exact hwrote h
  · rw [happ] at h
    cases h

/-- What a refused append that leaves the index leaves of the builder: all but bytes. -/
theorem append_spoils (hs : s.Sound) (hb : Wrote s keyDeclared valueDeclared b vs)
    (hi : (b.append v).builder.index = b.index) :
    ∃ buffer cause, b.append v = ⟨{ b with buffer }, Outcome.refuse cause⟩ ∧
      buffer.length = b.buffer.length ∧ Wrote s keyDeclared valueDeclared { b with buffer } vs := by
  rcases hb.append_split hs v with ⟨b₁, happ, hi₁, _⟩ | hkept
  · rw [happ, advance_beside.2] at hi
    have : b₁.index + 1 = b.index := hi
    omega
  · exact hkept

/-- **A refused append that leaves the index changes nothing.** -/
theorem append_kept (hs : s.Sound) (hb : Wrote s keyDeclared valueDeclared b vs)
    (hi : (b.append v).builder.index = b.index) :
    Wrote s keyDeclared valueDeclared (b.append v).builder vs := by
  obtain ⟨buffer, cause, happ, _, hwrote⟩ := hb.append_spoils hs hi
  rw [happ]
  exact hwrote

/-- Appends that all succeed add their values in order. -/
theorem appendAll (hs : s.Sound) : ∀ {row vs : List Value} {b : Builder},
    Wrote s keyDeclared valueDeclared b vs → (b.appendAll row).outcome = .ok () →
      Wrote s keyDeclared valueDeclared (b.appendAll row).builder (vs ++ row)
  | [], vs, b, hb, _ => by
      rw [List.append_nil]
      exact hb
  | v :: rest, vs, b, hb, h => by
      obtain ⟨hv, hcons⟩ := of_appendAll_ok h
      rw [hcons] at h ⊢
      have hrest := appendAll hs (hb.append_ok hs hv) h
      rwa [List.append_assoc, List.singleton_append] at hrest

/-- **The bytes of a finished row.** -/
theorem build (hb : Wrote s keyDeclared valueDeclared b vs) {t : EncodedTuple}
    (h : b.build = .ok t) : s.Fits vs ∧ t.bytes = s.encode vs := by
  unfold Builder.build at h
  split at h
  · cases h
  · rename_i hindex
    split at h
    · cases h
    · rename_i hfull
      cases h
      cases hb with
      | key hl ho =>
          refine absurd ?_ hindex
          show ¬ vs.length = s.length
          unfold Schema.length
          omega
      | @value _ _ _ vs hk hl ho =>
          refine absurd ?_ hindex
          show ¬ s.key.length + vs.length = s.length
          unfold Schema.length
          omega
      | done room hf hc =>
          refine ⟨hf, ?_⟩
          have hroom : room = 0 := by
            have hlen := Decidable.of_not_not hfull
            rw [hc, List.length_append, List.length_replicate] at hlen
            omega
          rw [hroom]
          exact List.append_nil _

end Wrote

end Builder

end RowCodec
