import RowCodec.Proofs.Bytes.Splice
import RowCodec.Proofs.Tuple.Renaming
import RowCodec.Tuple.Builder

/-!
# Two builders side by side

Two builders that stand at the same column and whose chunks lie at the same places. Their schemas may differ
in names, and their buffers in bytes, as long as the relation between the buffers is one that writing keeps.
An append looks at neither, so the two go on side by side.

* `WriteStable` -- a relation of buffers that every write behind the fingerprint keeps, made in both.
* `Chunk.Behind` -- no part of the chunk being written lies before the end of the fingerprint, so no
  write goes there.
* `Builder.Paired` -- the relation; `new_paired` makes it, `write`, `setDefined`, `finishChunk` and
  `advance` keep it, and **`append`** keeps it for every value and ends the same way in both.
* `Paired.build` -- both hand out tuples, with bytes that are related, or refuse for the same cause.
-/

namespace RowCodec

variable {ρ : String → String} {s s' : Schema} {R : List UInt8 → List UInt8 → Prop}

/-- **A relation of buffers that writing keeps**: related buffers have one length, and the same write or
    change behind the fingerprint leaves related buffers. -/
structure WriteStable (R : List UInt8 → List UInt8 → Prop) : Prop where
  length_eq : ∀ {x y : List UInt8}, R x y → y.length = x.length
  overwrite : ∀ {x y bytes : List UInt8} {offset : Nat}, R x y → Fingerprint.size ≤ offset →
    offset + bytes.length ≤ x.length → R (overwrite x offset bytes) (overwrite y offset bytes)
  modify : ∀ {x y : List UInt8} {i : Nat} (f : UInt8 → UInt8), R x y → Fingerprint.size ≤ i →
    R (x.modify i f) (y.modify i f)

/-! ## 1. Chunks -/

/-- The chunk lies behind the fingerprint. -/
structure Chunk.Behind (c : Chunk) : Prop where
  start : Fingerprint.size ≤ c.start
  table : Fingerprint.size ≤ c.table
  fixed : Fingerprint.size ≤ c.fixed
  varlen : Fingerprint.size ≤ c.varlen

theorem Chunk.begin_alike {start : Nat} (h : Fingerprint.size ≤ start) (g : Columns) (declared : Nat) :
    Outcome.Alike (fun c c' => c' = c ∧ c.Behind) (Chunk.begin start g declared)
      (Chunk.begin start (g.rename ρ) declared) := by
  have hsame : layOut start (g.rename ρ) declared = layOut start g declared := by
    unfold layOut
    rw [Columns.nullMapSize_rename, Columns.fixedSize_rename]
  have htable : Fingerprint.size ≤ start + chunkHeaderSize + g.nullMapSize := by omega
  have hfixed := Nat.le_add_right_of_le (k := declared * entrySize) htable
  have hbehind : (layOut start g declared).Behind :=
    ⟨h, htable, hfixed, Nat.le_add_right_of_le hfixed⟩
  unfold Chunk.begin
  rw [hsame]
  dsimp only
  split
  · exact .ok ⟨rfl, hbehind⟩
  · exact .error _

/-! ## 2. Two builders -/

/-- **The two builders are at one place**, with related buffers. -/
inductive Builder.Paired (R : List UInt8 → List UInt8 → Prop) (s s' : Schema) : Builder → Builder → Prop
  | intro {buffer buffer' : List UInt8} {index valueDeclared : Nat} {chunk : Chunk} (h : chunk.Behind)
      (hb : R buffer buffer') :
      Paired R s s' ⟨s, buffer, index, chunk, valueDeclared⟩ ⟨s', buffer', index, chunk, valueDeclared⟩

/-- The two steps end the same way and leave builders that are at one place. -/
structure Step.Paired {ε : Type} (R : List UInt8 → List UInt8 → Prop) (s s' : Schema)
    (step step' : Step ε) : Prop where
  builder : Builder.Paired R s s' step.builder step'.builder
  outcome : step'.outcome = step.outcome

namespace Builder.Paired

variable {b b' : Builder} (h : Builder.Paired R s s' b b')

include h

theorem schema_eq : b.schema = s ∧ b'.schema = s' := by
  cases h
  exact ⟨rfl, rfl⟩

theorem index_eq : b'.index = b.index := by
  cases h
  rfl

theorem chunk_eq : b'.chunk = b.chunk := by
  cases h
  rfl

theorem behind : b.chunk.Behind := by
  cases h
  assumption

theorem buffer : R b.buffer b'.buffer := by
  cases h
  assumption

theorem withIndex (index : Nat) : Builder.Paired R s s' { b with index } { b' with index } := by
  cases h
  exact .intro ‹_› ‹_›

theorem withChunk {chunk : Chunk} (hc : chunk.Behind) :
    Builder.Paired R s s' { b with chunk } { b' with chunk } := by
  cases h
  exact .intro hc ‹_›

/-- Two appends that go on alike from what they found. -/
theorem onward {α β : Type} {Q : α → β → Prop} {x : Outcome TupleError α} {y : Outcome TupleError β}
    {next : α → Step TupleError} {next' : β → Step TupleError} (hx : x.Alike Q y)
    (hnext : ∀ a a', Q a a' → Step.Paired R s s' (next a) (next' a')) :
    Step.Paired R s s' (b.onward x next) (b'.onward y next') := by
  cases hx with
  | ok ha => exact hnext _ _ ha
  | error fault => exact ⟨h, rfl⟩

/-- Both appends are refused. -/
theorem refuse {ε : Type} (e : ε) :
    Step.Paired R s s' ⟨b, Outcome.refuse e⟩ ⟨b', Outcome.refuse e⟩ := ⟨h, rfl⟩

/-! ### Bytes -/

variable (hR : WriteStable R)

include hR

theorem write {offset : Nat} (ho : Fingerprint.size ≤ offset) (bytes : List UInt8) :
    Outcome.Alike (Builder.Paired R s s') (b.write offset bytes) (b'.write offset bytes) := by
  unfold Builder.write
  dsimp only
  rw [hR.length_eq h.buffer, h.index_eq]
  split
  · exact .error _
  · rename_i hroom
    have hwritten := hR.overwrite h.buffer ho (Nat.not_lt.mp hroom)
    cases h
    exact .ok (.intro ‹_› hwritten)

theorem setDefined (position : Nat) :
    Outcome.Alike (Builder.Paired R s s') (b.setDefined position) (b'.setDefined position) := by
  have ho : Fingerprint.size ≤ b.chunk.start + chunkHeaderSize + position / 8 :=
    Nat.le_add_right_of_le (Nat.le_add_right_of_le h.behind.start)
  unfold Builder.setDefined
  dsimp only
  rw [hR.length_eq h.buffer, h.chunk_eq]
  split
  · have hmarked := hR.modify (· ||| bitOf position) h.buffer ho
    cases h
    exact .ok (.intro ‹_› hmarked)
  · exact .error _

/-! ### Chunks -/

theorem finishChunk :
    Outcome.Alike (Builder.Paired R s s') b.finishChunk b'.finishChunk := by
  unfold Builder.finishChunk
  rw [h.chunk_eq, h.index_eq]
  dsimp only
  split
  · exact .error _
  · refine .after _ ?_
    intro length
    exact h.write hR h.behind.start length

variable (hs : s.Renames ρ s')

include hs

theorem closeLast : Step.Paired R s s' b.closeLast b'.closeLast := by
  unfold Builder.closeLast
  rw [h.schema_eq.1, h.schema_eq.2, h.index_eq, hs.length_eq]
  split
  · exact h.onward (h.finishChunk hR) fun _ _ h => ⟨h, rfl⟩
  · exact ⟨h, rfl⟩

/-- Both move on to the next column, and from the key to the value at the same one. -/
theorem advance : Step.Paired R s s' b.advance b'.advance := by
  have hnext := h.withIndex (b.index + 1)
  cases h
  unfold Builder.advance
  dsimp only at hnext ⊢
  rw [hs.key_eq, Columns.length_rename]
  split
  · refine hnext.onward (hnext.finishChunk hR) ?_
    intro b b' h
    have hclosed := h
    cases h
    dsimp only
    -- The value's chunk begins where the key's ends: it lies behind the fingerprint as well.
    rw [hs.value_eq]
    refine hclosed.onward (Chunk.begin_alike hclosed.behind.varlen _ _) ?_
    rintro chunk _ ⟨rfl, hchunk⟩
    have hbegun := hclosed.withChunk hchunk
    rw [hR.length_eq hclosed.buffer]
    split
    · exact hbegun.refuse _
    · exact hbegun.closeLast hR hs
  · exact hnext.closeLast hR hs

/-! ### Columns -/

omit hR in
theorem column : Outcome.Alike (Schema.Renames.Located ρ) b.column b'.column := by
  unfold Builder.column
  rw [h.schema_eq.1, h.schema_eq.2, h.index_eq]
  exact hs.locate_alike b.index

omit hR in
theorem columnOf (actual : ColumnType) :
    Outcome.Alike (Schema.Renames.Located ρ) (b.columnOf actual) (b'.columnOf actual) := by
  refine (h.column hs).bind ?_
  rintro ⟨g, p, c⟩ _ rfl
  rw [h.index_eq]
  show Outcome.Alike _ (if c.type.sameKind actual = true then _ else _)
    (if c.type.sameKind actual = true then _ else _)
  split
  · exact .ok rfl
  · exact .error _

theorem appendNull : Step.Paired R s s' b.appendNull b'.appendNull := by
  refine h.onward (h.column hs) ?_
  rintro ⟨g, p, c⟩ _ rfl
  rw [h.index_eq]
  show Step.Paired R s s' (if c.nullable = true then _ else _) (if c.nullable = true then _ else _)
  split
  · exact h.advance hR hs
  · exact h.refuse _

theorem appendFixed (actual : ColumnType) (bytes : List UInt8) :
    Step.Paired R s s' (b.appendFixed actual bytes) (b'.appendFixed actual bytes) := by
  refine h.onward (h.columnOf hs actual) ?_
  rintro ⟨g, p, c⟩ _ rfl
  dsimp only
  rw [Columns.fixedOffset_rename, h.chunk_eq]
  refine h.onward (.same _) ?_
  rintro offset _ rfl
  refine h.onward (h.write hR (Nat.le_add_right_of_le h.behind.fixed) bytes) ?_
  intro b b' h
  exact h.onward (h.setDefined hR p) fun _ _ h => h.advance hR hs

theorem appendVarlen (actual : ColumnType) (bytes : List UInt8) :
    Step.Paired R s s' (b.appendVarlen actual bytes) (b'.appendVarlen actual bytes) := by
  refine h.onward (h.columnOf hs actual) ?_
  rintro ⟨g, p, c⟩ _ rfl
  dsimp only
  rw [h.chunk_eq, h.index_eq]
  split
  · exact h.refuse _
  · refine h.onward (.same _) ?_
    rintro relative _ rfl
    refine h.onward (h.write hR (Nat.le_add_right_of_le h.behind.table) relative) ?_
    intro b b' h
    rw [h.chunk_eq]
    refine h.onward (h.write hR h.behind.varlen bytes) ?_
    intro b b' h
    have hgrown : Chunk.Behind { b.chunk with
        varlen := b.chunk.varlen + bytes.length, written := b.chunk.written + 1 } :=
      ⟨h.behind.start, h.behind.table, h.behind.fixed, Nat.le_add_right_of_le h.behind.varlen⟩
    rw [h.chunk_eq]
    have h := h.withChunk hgrown
    exact h.onward (h.setDefined hR p) fun _ _ h => h.advance hR hs

theorem appendBitSet (bits : BitSet) :
    Step.Paired R s s' (b.appendBitSet bits) (b'.appendBitSet bits) := by
  have happend := h.appendFixed hR hs (.bitmask (UInt32.ofNat bits.length)) bits.bytes
  refine h.onward (h.column hs) ?_
  rintro ⟨g, p, name, type, nullable⟩ _ rfl
  rw [h.index_eq]
  cases type with
  | bitmask width =>
      show Step.Paired R s s' (if width.toNat < bits.length then _ else _)
        (if width.toNat < bits.length then _ else _)
      split
      · exact h.refuse _
      · exact happend
  | _ => exact happend

/-- **An append is the same append at both**, however their names and bytes differ. -/
theorem append (v : Value) : Step.Paired R s s' (b.append v) (b'.append v) := by
  cases v with
  | undefined => exact h.appendNull hR hs
  | number kind word => exact h.appendFixed hR hs _ _
  | uuid id => exact h.appendFixed hR hs _ _
  | bitSet bits => exact h.appendBitSet hR hs bits
  | utf8 text => exact h.appendVarlen hR hs _ _
  | blob bytes => exact h.appendVarlen hR hs _ _

/-! ### Tuples -/

theorem build : Outcome.Alike (fun t t' : EncodedTuple => R t.bytes t'.bytes)
    (Outcome.ofExcept b.build) (Outcome.ofExcept b'.build) := by
  have hlen := hR.length_eq h.buffer
  cases h
  unfold Builder.build
  dsimp only at hlen ⊢
  rw [hs.length_eq, hlen]
  split
  · exact .error _
  · split
    · exact .error _
    · exact .ok ‹_›

end Builder.Paired

/-- New builders are at one place, if the buffers they start with are related. -/
theorem Builder.new_paired (hs : s.Renames ρ s')
    (hfresh : ∀ room, R (s.fingerprint.toBytes ++ List.replicate room 0)
      (s'.fingerprint.toBytes ++ List.replicate room 0))
    (size keyDeclared valueDeclared : Nat) :
    Outcome.Alike (Builder.Paired R s s') (Builder.new s size keyDeclared valueDeclared)
      (Builder.new s' size keyDeclared valueDeclared) := by
  unfold Builder.new
  rw [hs.key_eq]
  refine (Chunk.begin_alike (Nat.le_refl _) s.key keyDeclared).bind ?_
  rintro chunk _ ⟨rfl, hchunk⟩
  split
  · exact .error _
  · split
    · exact .error _
    · exact .ok (.intro hchunk (hfresh _))

end RowCodec
