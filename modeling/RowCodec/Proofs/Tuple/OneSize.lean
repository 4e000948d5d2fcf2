import RowCodec.Proofs.Tuple.Measured
import RowCodec.Proofs.Tuple.RoundTrip

/-!
# The one size of a row

Capacity and counts are checked piece by piece: the key's static part when the builder is made, the value's
when its chunk is begun, each text when it is appended, each count when its chunk is closed, and the whole
when the bytes are handed out. Together these checks let through one size and one pair of counts.

* `Builder.make` -- a tuple in one go: a builder, the row's values in order, and the bytes.
* `Builder.Tallied` -- the counts that were declared are those of the chunks that are closed; an append that
  succeeds keeps it (`Wrote.tallied_append`), so a row that was appended does (`Wrote.tallied`).
* `Builder.make_exact` -- **a row is made into a tuple with its own counts and size only.** Too few bytes are
  found out before the last value is taken, too many when the tuple is handed out.
-/

namespace RowCodec.Builder

variable {b b' : Builder} {s : Schema} {g : Columns} {keyDeclared valueDeclared declared size : Nat}
  {before : List UInt8} {row vs : List Value} {v : Value}

/-- The tuple of a row, made in one go: the first fault ends it. -/
def make (s : Schema) (size keyDeclared valueDeclared : Nat) (row : List Value) :
    Outcome TupleError EncodedTuple := do
  let b ← Builder.new s size keyDeclared valueDeclared
  let step := b.appendAll row
  step.outcome
  Outcome.ofExcept step.builder.build

theorem make_ok {t : EncodedTuple} (h : make s size keyDeclared valueDeclared row = .ok t) :
    ∃ b, Builder.new s size keyDeclared valueDeclared = .ok b ∧ (b.appendAll row).outcome = .ok () ∧
      (b.appendAll row).builder.build = .ok t := by
  obtain ⟨b, hnew, h⟩ := Outcome.bind_ok h
  obtain ⟨_, happ, h⟩ := Outcome.bind_ok h
  exact ⟨b, hnew, happ, Outcome.ofExcept_ok h⟩

/-! ## 1. Counts -/

/-- **The declared counts are those of the values**, as far as chunks are closed. -/
structure Tallied (s : Schema) (keyDeclared valueDeclared : Nat) (vs : List Value) : Prop where
  key : s.key.length ≤ vs.length → keyDeclared = (payloads (vs.take s.key.length)).length
  value : s.length ≤ vs.length → valueDeclared = (payloads (vs.drop s.key.length)).length

/-- A chunk that can be closed has as many texts and byte strings as were declared. -/
theorem finishChunk_count (ho : Chunk.Open g declared before vs b.chunk b.buffer)
    (h : b.finishChunk = .ok b') : declared = (payloads vs).length := by
  unfold finishChunk at h
  split at h
  · cases h
  · rename_i hw
    have hwritten : b.chunk.written = b.chunk.declared := Decidable.of_not_not hw
    rw [ho.chunk_eq] at hwritten
    exact hwritten.symm

theorem closeLast_count (ho : Chunk.Open g declared before vs b.chunk b.buffer)
    (hi : b.index = b.schema.length) (h : b.closeLast.outcome = .ok ()) :
    declared = (payloads vs).length := by
  unfold closeLast at h
  rw [if_pos hi] at h
  obtain ⟨b', hfin, _⟩ := of_onward_ok h
  exact finishChunk_count ho hfin

/-- Behind the key's last column its count is right, and so is the value's if there is no value. -/
theorem advance_count (hs : s.Sound) {buffer : List UInt8} {chunk : Chunk}
    (ho : Chunk.Open s.key keyDeclared s.fingerprint.toBytes (vs ++ [v]) chunk buffer)
    (hlast : vs.length + 1 = s.key.length)
    (h : (advance ⟨s, buffer, vs.length, chunk, valueDeclared⟩).outcome = .ok ()) :
    keyDeclared = (payloads (vs ++ [v])).length ∧ (s.length ≤ s.key.length → valueDeclared = 0) := by
  unfold advance at h
  dsimp only at h
  rw [if_pos hlast] at h
  obtain ⟨b₁, hfin, hon⟩ := of_onward_ok h
  rw [hon] at h
  obtain ⟨hk, hvar, room, rfl⟩ :=
    finishChunk_open hs.key ho (List.length_append.trans hlast) hfin
  refine ⟨finishChunk_count ho hfin, fun hempty => ?_⟩
  obtain ⟨next, hbegin, hon⟩ := of_onward_ok h
  rw [hon] at h
  obtain rfl := begin_ok hbegin
  dsimp only at h hvar
  split at h
  · cases h
  · rename_i hroom
    have hopen : Chunk.Open s.value valueDeclared _ [] _ _ :=
      Chunk.Open.start hs.value rfl (hvar ▸ Nat.not_lt.mp hroom)
    rw [← hvar] at hopen
    have hend : vs.length + 1 = s.length := by
      unfold Schema.length at hempty ⊢
      omega
    exact closeLast_count hopen hend h

/-- **An append that succeeds keeps the counts right.** -/
theorem Wrote.tallied_append (hs : s.Sound) (hb : Wrote s keyDeclared valueDeclared b vs)
    (ht : Tallied s keyDeclared valueDeclared vs) (h : (b.append v).outcome = .ok ()) :
    Tallied s keyDeclared valueDeclared (vs ++ [v]) := by
  cases hb with
  | @key buffer chunk vs hl ho =>
      obtain ⟨c, hc⟩ := Columns.exists_column hl
      obtain ⟨chunk', buffer', happ, _, hopen⟩ :=
        append_taken hs.key (Schema.locate_key hc) hc ho h
      rw [happ] at h
      have hlen : (vs ++ [v]).length = vs.length + 1 := List.length_append
      have hkey : s.key.length ≤ s.length := Nat.le_add_right _ _
      have hcounts := fun hlast => advance_count hs hopen hlast h
      refine ⟨fun hfull => ?_, fun hfull => ?_⟩
      · rw [List.take_of_length_le (by omega)]
        exact (hcounts (by omega)).1
      · rw [List.drop_eq_nil_of_le (by omega)]
        exact (hcounts (by omega)).2 (by omega)
  | @value buffer chunk ks vs hk hl ho =>
      obtain ⟨c, hc⟩ := Columns.exists_column hl
      obtain ⟨chunk', buffer', happ, _, hopen⟩ :=
        append_taken hs.value (Schema.locate_value hc) hc ho h
      rw [happ] at h
      have hkeys := hk.length_eq
      have hkcount := ht.key (by rw [List.length_append]; omega)
      rw [List.take_left' hkeys] at hkcount
      have hkey : ¬ s.key.length + vs.length + 1 = s.key.length := by omega
      have hadvance : advance ⟨s, buffer', s.key.length + vs.length, chunk', valueDeclared⟩ =
          closeLast ⟨s, buffer', s.key.length + vs.length + 1, chunk', valueDeclared⟩ := if_neg hkey
      dsimp only at h
      rw [hadvance] at h
      rw [List.append_assoc]
      refine ⟨fun _ => ?_, fun hfull => ?_⟩
      · rw [List.take_left' hkeys]
        exact hkcount
      · rw [List.drop_left' hkeys]
        refine closeLast_count hopen ?_ h
        rw [List.length_append, List.length_append, List.length_singleton] at hfull
        show s.key.length + vs.length + 1 = s.key.length + s.value.length
        unfold Schema.length at hfull
        omega
  | @done chunk row room hf hc =>
      rw [append_out (Nat.le_refl _)] at h
      cases h

/-- **A row that was appended has the counts that were declared.** -/
theorem Wrote.tallied (hs : s.Sound) (hb : Wrote s keyDeclared valueDeclared b vs)
    (ht : Tallied s keyDeclared valueDeclared vs) (h : (b.appendAll row).outcome = .ok ()) :
    Tallied s keyDeclared valueDeclared (vs ++ row) := by
  induction row generalizing b vs with
  | nil =>
      rw [List.append_nil]
      exact ht
  | cons v rest ih =>
      cases hv : (b.append v).outcome with
      | error fault =>
          rw [appendAll_of_error hv] at h
          cases h
      | ok u =>
          rw [appendAll_of_ok hv] at h
          have hrest := ih (hb.append_ok hs hv) (hb.tallied_append hs ht hv) h
          rwa [List.append_assoc, List.singleton_append] at hrest

/-! ## 2. Sizes -/

/-- A row that a builder with the right counts has taken fits into its bytes. -/
theorem Counted.rowBytes_le (hs : s.Sound) (hb : s.Bounded row) (h : Counted s row size b row) :
    s.rowBytes row ≤ size := by
  obtain ⟨chunk, room, hf, _, rfl⟩ := h.wrote.finished hb.length_eq
  rw [← h.room, ← hf.length_encode hs, List.length_append]
  exact Nat.le_add_right _ _

/-- **With the right counts a row is taken or finds no room**, and what is taken is handed out if it is as
    long as the buffer. -/
theorem make_counted (hs : s.Sound) (hb : s.Bounded row) (ht : s.TakesBelow row s.length)
    (hsize : size ≤ maxBufferSize) {b : Builder}
    (hnew : Builder.new s size (payloads (row.take s.key.length)).length
      (payloads (row.drop s.key.length)).length = .ok b) :
    (b.appendAll row).Room size (s.rowBytes row) fun b' => s.rowBytes row ≤ size ∧
      b'.build = if size = s.rowBytes row then .ok ⟨s.encode row⟩
        else .error (.sizeMismatch size (s.rowBytes row)) := by
  rcases Counted.of_new hs hb hsize with ⟨b', hnew', h⟩ | ⟨required, hnew', _⟩
  · cases hnew.symm.trans hnew'
    rw [← hb.length_eq] at ht
    have hall := h.appendAll_take hs hb (Nat.le_refl _) ht
    rw [List.take_length] at hall
    exact hall.imp fun b' h' => ⟨h'.rowBytes_le hs hb, h'.build_eq hs hb⟩
  · cases hnew.symm.trans hnew'

/-- No buffer is larger than half the address space. -/
theorem size_le_of_new (h : Builder.new s size keyDeclared valueDeclared = .ok b) :
    size ≤ maxBufferSize := by
  unfold Builder.new at h
  obtain ⟨chunk, _, h⟩ := Outcome.bind_ok h
  split at h
  · cases h
  · split at h
    · cases h
    · rename_i hsize
      exact Nat.not_lt.mp hsize

/-- A tuple that was made has its row's counts and size. -/
theorem counts_of_make (hs : s.Sound) {t : EncodedTuple}
    (h : make s size keyDeclared valueDeclared row = .ok t) :
    keyDeclared = (payloads (row.take s.key.length)).length ∧
      valueDeclared = (payloads (row.drop s.key.length)).length ∧ size = s.rowBytes row := by
  obtain ⟨b, hnew, happ, hbuild⟩ := make_ok h
  obtain ⟨hf, _⟩ := fits_of_build hs hnew happ hbuild
  have hpos := hs.key_pos
  have hle : s.key.length ≤ s.length := Nat.le_add_right _ _
  have hstart : Tallied s keyDeclared valueDeclared [] :=
    ⟨fun hfull => absurd (Nat.lt_of_lt_of_le hpos hfull) (Nat.lt_irrefl _),
      fun hfull => absurd (Nat.lt_of_lt_of_le hpos (Nat.le_trans hle hfull)) (Nat.lt_irrefl _)⟩
  have htally := (Wrote.of_new hs hnew).tallied hs hstart happ
  rw [List.nil_append] at htally
  obtain rfl := htally.key (hf.length_eq ▸ hle)
  obtain rfl := htally.value (Nat.le_of_eq hf.length_eq.symm)
  refine ⟨rfl, rfl, ?_⟩
  have hroom := make_counted hs (hf.to_bounded hs) (hf.takesBelow _) (size_le_of_new hnew) hnew
  cases hstep : b.appendAll row with
  | mk b' outcome =>
      rw [hstep] at hroom happ hbuild
      cases hroom with
      | exceeds _ _ => cases happ
      | goes hafter =>
          have heq := hafter.2
          rw [hbuild] at heq
          by_contra hne
          rw [if_neg hne] at heq
          cases heq

/-! ## 3. What comes of a size -/

/-- **With the row's counts and too few bytes** no tuple is made: what is missing is found out when the
    builder is made or when a value is appended. -/
theorem make_short (hs : s.Sound) (hb : s.Bounded row) (ht : s.TakesBelow row s.length)
    (hsize : size < s.rowBytes row) :
    ∃ index required, size < required ∧
      (Builder.new s size (payloads (row.take s.key.length)).length
          (payloads (row.drop s.key.length)).length =
        Outcome.refuse (.capacityExceeded index required size) ∨
      ∃ b b', Builder.new s size (payloads (row.take s.key.length)).length
          (payloads (row.drop s.key.length)).length = .ok b ∧
        b.appendAll row = ⟨b', Outcome.refuse (.capacityExceeded index required size)⟩) := by
  have hmax : size ≤ maxBufferSize := Nat.le_trans (Nat.le_of_lt hsize) hb.rowBytes_le_max
  rcases Counted.of_new hs hb hmax with ⟨b, hnew, _⟩ | ⟨required, hnew, hlt, _⟩
  · have hroom := make_counted hs hb ht hmax hnew
    cases hstep : b.appendAll row with
    | mk b' outcome =>
        rw [hstep] at hroom
        cases hroom with
        | goes hafter => exact absurd hafter.1 (Nat.not_le.mpr hsize)
        | exceeds hlt _ => exact ⟨_, _, hlt, Or.inr ⟨b, b', hnew, hstep⟩⟩
  · exact ⟨0, required, hlt, Or.inl hnew⟩

/-- **With the row's counts and enough bytes** every value is taken, and the tuple is handed out if no byte
    is left over. -/
theorem make_enough (hs : s.Sound) (hb : s.Bounded row) (ht : s.TakesBelow row s.length)
    (hsize : s.rowBytes row ≤ size) (hmax : size ≤ maxBufferSize) :
    ∃ b b', Builder.new s size (payloads (row.take s.key.length)).length
        (payloads (row.drop s.key.length)).length = .ok b ∧
      b.appendAll row = ⟨b', .ok ()⟩ ∧
      b'.build = if size = s.rowBytes row then .ok ⟨s.encode row⟩
        else .error (.sizeMismatch size (s.rowBytes row)) := by
  rcases Counted.of_new hs hb hmax with ⟨b, hnew, _⟩ | ⟨required, _, hlt, hle⟩
  · obtain ⟨b', happ, _, hbuild⟩ := (make_counted hs hb ht hmax hnew).goes_of_le hsize
    exact ⟨b, b', hnew, happ, hbuild⟩
  · exact absurd (Nat.le_trans hle hsize) (Nat.not_le.mpr hlt)

/-- No buffer of more bytes can be had. -/
theorem new_of_too_large (hb : s.Bounded row) (hsize : maxBufferSize < size) :
    Builder.new s size (payloads (row.take s.key.length)).length
      (payloads (row.drop s.key.length)).length = Outcome.abort .allocation := by
  have hword := hb.rowBytes_le_max
  obtain ⟨hbegin, hvar⟩ := begin_key_full hb
  unfold Builder.new
  rw [hbegin, Outcome.ok_bind, if_neg (by omega), if_pos hsize]

/-- **A row is made into a tuple with its own counts and its own size, and with no others.** The values are
    ones that their columns admit, in chunks whose lengths a 32-bit word can say; the size is the one that is
    computed from their statistics. With the right counts, too few bytes are found out while the tuple is
    written, and too many when it is handed out. A size that no buffer can have reserves nothing. -/
theorem make_exact {version : UInt32} {key value : List Column} {keyStatistic valueStatistic : Statistic}
    (hdef : Schema.define version key value = .ok s) (hlen : row.length = s.length)
    (hadmits : ∀ (i : Nat) (c : Column) (v : Value), s.column? i = some c → row[i]? = some v →
      c.admits v = true)
    (hks : Statistic.ofLengths (ε := TupleError)
      ((payloads (row.take s.key.length)).map List.length) = .ok keyStatistic)
    (hvs : Statistic.ofLengths (ε := TupleError)
      ((payloads (row.drop s.key.length)).map List.length) = .ok valueStatistic)
    (hkey : s.key.chunkBytes keyStatistic ≤ maxChunkOffset)
    (hvalue : s.value.chunkBytes valueStatistic ≤ maxChunkOffset) :
    ∃ total, s.tupleSize (ε := TupleError) keyStatistic valueStatistic = .ok total ∧
      (∀ size keyDeclared valueDeclared,
        (∃ t, make s size keyDeclared valueDeclared row = .ok t) ↔
          keyDeclared = keyStatistic.nonNull ∧ valueDeclared = valueStatistic.nonNull ∧
          size = total) ∧
      (∀ size < total, ∃ e : TupleError, e.code = "TUPLE_007" ∧
        (Builder.new s size keyStatistic.nonNull valueStatistic.nonNull = Outcome.refuse e ∨
        ∃ b b', Builder.new s size keyStatistic.nonNull valueStatistic.nonNull = .ok b ∧
          b.appendAll row = ⟨b', Outcome.refuse e⟩)) ∧
      (∀ size, total < size → size ≤ maxBufferSize → ∃ b b',
        Builder.new s size keyStatistic.nonNull valueStatistic.nonNull = .ok b ∧
        b.appendAll row = ⟨b', .ok ()⟩ ∧
        ∃ e : TupleError, b'.build = .error e ∧ e.code = "TUPLE_011") ∧
      ∀ size, maxBufferSize < size →
        Builder.new s size keyStatistic.nonNull valueStatistic.nonNull =
          Outcome.abort .allocation := by
  have hs := Schema.sound_of_define hdef
  obtain rfl := Columns.eq_rowStatistic hks
  obtain rfl := Columns.eq_rowStatistic hvs
  have hb : s.Bounded row := Schema.Bounded.of_length hlen hkey hvalue
  have ht : s.TakesBelow row s.length := fun i c v _ => hadmits i c v
  refine ⟨s.rowBytes row, hb.tupleSize, fun size keyDeclared valueDeclared => ⟨?sound, ?complete⟩,
    fun size hsize => ?short, fun size hsize hmax => ?long, fun size => new_of_too_large hb⟩
  case sound =>
    rintro ⟨t, hmake⟩
    exact counts_of_make hs hmake
  case complete =>
    rintro ⟨rfl, rfl, rfl⟩
    obtain ⟨b, b', hnew, happ, hbuild⟩ := make_enough hs hb ht (Nat.le_refl _) hb.rowBytes_le_max
    rw [if_pos rfl] at hbuild
    refine ⟨⟨s.encode row⟩, ?_⟩
    unfold make
    simp only [rowStatistic, hnew, happ, hbuild, Outcome.ok_bind, Outcome.ofExcept_eq]
  case short =>
    obtain ⟨index, required, _, h⟩ := make_short hs hb ht hsize
    exact ⟨_, rfl, h⟩
  case long =>
    obtain ⟨b, b', hnew, happ, hbuild⟩ := make_enough hs hb ht (Nat.le_of_lt hsize) hmax
    rw [if_neg (Nat.ne_of_gt hsize)] at hbuild
    exact ⟨b, b', hnew, happ, _, hbuild, rfl⟩

theorem make_exact_sample :
    Schema.define 1 sampleKey sampleValue = .ok sampleSchema ∧
    sampleSchema.tupleSize (ε := TupleError) ⟨0, 0⟩ ⟨2, 2⟩ = .ok 34 ∧
    ∀ size keyDeclared valueDeclared,
      (∃ t, make sampleSchema size keyDeclared valueDeclared sampleRow = .ok t) ↔
        keyDeclared = 0 ∧ valueDeclared = 2 ∧ size = 34 := by
  have hdef : Schema.define 1 sampleKey sampleValue = .ok sampleSchema := rfl
  have hall : ∀ i < 5, (sampleSchema.column? i).all (fun c => sampleRow[i]?.all c.admits) = true := by
    decide
  have hadmits : ∀ (i : Nat) (c : Column) (v : Value), sampleSchema.column? i = some c →
      sampleRow[i]? = some v → c.admits v = true := by
    intro i c v hc hv
    have h := hall i (List.getElem?_eq_some_iff.mp hv).1
    rw [hc, hv] at h
    exact h
  have hks : Statistic.ofLengths (ε := TupleError)
    ((payloads (sampleRow.take sampleSchema.key.length)).map List.length) = .ok ⟨0, 0⟩ := rfl
  have hvs : Statistic.ofLengths (ε := TupleError)
    ((payloads (sampleRow.drop sampleSchema.key.length)).map List.length) = .ok ⟨2, 2⟩ := rfl
  obtain ⟨total, htotal, hmake, _⟩ :=
    make_exact hdef rfl hadmits hks hvs (by decide) (by decide)
  cases htotal
  exact ⟨hdef, rfl, hmake⟩

end RowCodec.Builder
