import RowCodec.Proofs.Tuple.RoundTrip

/-!
# Appending on after a refusal

A caller may go on with the builder that a refused append leaves behind.

* `Builder.appendEach` -- a run of appends of which any may be refused; `Builder.taken` lists the ones
  that succeeded, each with the index it was made at.
* `Builder.Steady` -- no refused append moved the index. Only one that is refused while its group is
  closed moves it (`last_of_moved`).
* `build_sound_iff_steady` -- a tuple that comes out at the end of a run holds every column's value,
  each taken once, **exactly when the run was steady**.
* `build_accepts_unfinished` -- a run that is not steady can end in a tuple with a column that no
  append gave and that no reader accepts.
-/

namespace RowCodec.Builder

variable {b : Builder} {s : Schema} {size keyDeclared valueDeclared : Nat} {calls vs : List Value}
  {t : EncodedTuple}

/-! ## 1. Runs -/

/-- Appends contents in order, going on with the builder that a refusal leaves behind. -/
def appendEach (b : Builder) : List Value → Builder
  | [] => b
  | v :: rest => (b.append v).builder.appendEach rest

/-- The contents that were taken, each with the index of the column it was given for. -/
def taken (b : Builder) : List Value → List (Nat × Value)
  | [] => []
  | v :: rest =>
    let step := b.append v
    match step.outcome with
    | .ok () => (b.index, v) :: step.builder.taken rest
    | .error _ => step.builder.taken rest

/-- Whether every append either succeeds or leaves the index where it is. -/
def Steady (b : Builder) : List Value → Prop
  | [] => True
  | v :: rest =>
    ((b.append v).outcome = .ok () ∨ (b.append v).builder.index = b.index) ∧
      (b.append v).builder.Steady rest

theorem taken_of_ok {v : Value} (h : (b.append v).outcome = .ok ()) :
    b.taken (v :: calls) = (b.index, v) :: (b.append v).builder.taken calls := by
  conv => lhs; unfold taken
  dsimp only
  rw [h]

theorem taken_of_error {v : Value} {fault : Fault TupleError}
    (h : (b.append v).outcome = .error fault) :
    b.taken (v :: calls) = (b.append v).builder.taken calls := by
  conv => lhs; unfold taken
  dsimp only
  rw [h]

/-- A refused append moves the index behind the last column of a group only. -/
theorem last_of_moved {v : Value} (h : (b.append v).outcome ≠ .ok ())
    (hi : (b.append v).builder.index ≠ b.index) :
    b.index + 1 = b.schema.key.length ∨ b.index + 1 = b.schema.length := by
  obtain ⟨b', ⟨hs, hi'⟩, ⟨fault, happ⟩ | happ⟩ := append_ends b v
  · rw [happ] at hi
    exact absurd hi' hi
  · rw [← hs, ← hi']
    by_cases hk : b'.index + 1 = b'.schema.key.length
    · exact Or.inl hk
    · by_cases hl : b'.index + 1 = b'.schema.length
      · exact Or.inr hl
      · refine absurd ?_ h
        rw [happ]
        unfold advance
        dsimp only
        rw [if_neg hk]
        unfold closeLast
        rw [if_neg hl]

theorem schema_appendEach : ∀ (calls : List Value) (b : Builder),
    (b.appendEach calls).schema = b.schema
  | [], _ => rfl
  | v :: rest, b => (schema_appendEach rest (b.append v).builder).trans (schema_append b v)

/-! ## 2. Steady runs -/

theorem Steady.index_of_error {v : Value} {fault : Fault TupleError} (h : b.Steady (v :: calls))
    (hv : (b.append v).outcome = .error fault) : (b.append v).builder.index = b.index := by
  rcases h.1 with hok | hi
  · rw [hv] at hok
    cases hok
  · exact hi

/-- A steady run takes its values in column order. -/
theorem index_taken_of_steady : ∀ {calls : List Value} {b : Builder}, b.Steady calls →
    (b.taken calls).map Prod.fst = List.range' b.index (b.taken calls).length
  | [], _, _ => rfl
  | v :: rest, b, h => by
      have ih := index_taken_of_steady h.2
      cases hv : (b.append v).outcome with
      | ok u =>
          have hi := index_append_of_ok hv
          rw [taken_of_ok hv, List.map_cons, List.length_cons, List.range'_succ, ih, hi]
      | error fault =>
          rw [taken_of_error hv, ih, h.index_of_error hv]

/-- **A steady run keeps the invariant**: the builder has taken what the successful appends gave. -/
theorem Wrote.appendEach (hs : s.Sound) : ∀ {calls vs : List Value} {b : Builder},
    Wrote s keyDeclared valueDeclared b vs → b.Steady calls →
      Wrote s keyDeclared valueDeclared (b.appendEach calls) (vs ++ (b.taken calls).map Prod.snd)
  | [], vs, b, hb, _ => by
      show Wrote s keyDeclared valueDeclared b (vs ++ [])
      rw [List.append_nil]
      exact hb
  | v :: rest, vs, b, hb, h => by
      cases hv : (b.append v).outcome with
      | ok u =>
          have hrest := Wrote.appendEach hs (hb.append_ok hs hv) h.2
          rw [taken_of_ok hv, List.map_cons]
          rwa [List.append_assoc, List.singleton_append] at hrest
      | error fault =>
          rw [taken_of_error hv]
          exact Wrote.appendEach hs (hb.append_kept hs (h.index_of_error hv)) h.2

/-! ## 3. Runs that are not steady -/

theorem le_index_appendEach : ∀ (calls : List Value) (b : Builder),
    b.index ≤ (b.appendEach calls).index
  | [], _ => Nat.le_refl _
  | v :: rest, b => by
      exact Nat.le_trans (le_index_append b v) (le_index_appendEach rest (b.append v).builder)

/-- Nothing is taken for a column before the one that the run starts at. -/
theorem le_of_mem_taken : ∀ {calls : List Value} {b : Builder} {i : Nat},
    i ∈ (b.taken calls).map Prod.fst → b.index ≤ i
  | [], _, _, h => absurd h List.not_mem_nil
  | v :: rest, b, i, h => by
      have hle := le_index_append b v
      cases hv : (b.append v).outcome with
      | ok u =>
          rw [taken_of_ok hv, List.map_cons, List.mem_cons] at h
          rcases h with rfl | h
          · exact Nat.le_refl _
          · exact Nat.le_trans hle (le_of_mem_taken h)
      | error fault =>
          rw [taken_of_error hv] at h
          exact Nat.le_trans hle (le_of_mem_taken h)

/-- **A run that is not steady passes over a column** that no append was taken for. -/
theorem exists_missed : ∀ {calls : List Value} {b : Builder}, ¬ b.Steady calls →
    ∃ i, i < (b.appendEach calls).index ∧ b.index ≤ i ∧ i ∉ (b.taken calls).map Prod.fst
  | [], _, h => absurd trivial h
  | v :: rest, b, h => by
      show ∃ i, i < ((b.append v).builder.appendEach rest).index ∧ _
      cases hv : (b.append v).outcome with
      | ok u =>
          have hi := index_append_of_ok hv
          obtain ⟨i, hlt, hle, hmem⟩ := exists_missed fun hrest => h ⟨Or.inl hv, hrest⟩
          refine ⟨i, hlt, by omega, ?_⟩
          rw [taken_of_ok hv, List.map_cons, List.mem_cons]
          rintro (he | hm)
          · have he : i = b.index := he
            omega
          · exact hmem hm
      | error fault =>
          rw [taken_of_error hv]
          by_cases hi : (b.append v).builder.index = b.index
          · obtain ⟨i, hlt, hle, hmem⟩ := exists_missed fun hrest => h ⟨Or.inr hi, hrest⟩
            exact ⟨i, hlt, by omega, hmem⟩
          · -- The append that was refused and moved the index: its own column is the one.
            have hi := index_append_of_moved hi
            have hend := le_index_appendEach rest (b.append v).builder
            refine ⟨b.index, by omega, Nat.le_refl _, fun hm => ?_⟩
            have := le_of_mem_taken hm
            omega

theorem index_of_build (h : b.build = .ok t) : b.index = b.schema.length := by
  unfold Builder.build at h
  split at h
  · cases h
  · rename_i hindex
    exact Decidable.of_not_not hindex

/-! ## 4. What comes out -/

/-- A value that was taken for a column is the row's value there. -/
theorem getElem?_taken (hi : (b.taken calls).map Prod.fst = List.range' 0 (b.taken calls).length)
    {i : Nat} {v : Value} (h : (i, v) ∈ b.taken calls) :
    ((b.taken calls).map Prod.snd)[i]? = some v := by
  obtain ⟨k, hk⟩ := List.mem_iff_getElem?.mp h
  have hfst : ((b.taken calls).map Prod.fst)[k]? = some i := by
    rw [List.getElem?_map, hk]
    rfl
  have hki : k = i := by
    have hlt := (List.getElem?_eq_some_iff.mp hk).1
    rw [hi, List.getElem?_range' hlt] at hfst
    have := Option.some.inj hfst
    omega
  rw [← hki, List.getElem?_map, hk]
  rfl

/-- **A tuple holds what was appended exactly when the run was steady.** Otherwise the builder passed
    over a column, and handed out the bytes all the same. -/
theorem build_sound_iff_steady {version : UInt32} {key value : List Column}
    (hdef : Schema.define version key value = .ok s)
    (hnew : Builder.new s size keyDeclared valueDeclared = .ok b)
    (hbuild : (b.appendEach calls).build = .ok t) :
    ((∀ i < s.length, ((b.taken calls).map Prod.fst).count i = 1) ∧
      ∃ view, View.new s t.bytes = .ok view ∧
        ∀ (i : Nat) (v : Value), (i, v) ∈ b.taken calls → view.value i = .ok v) ↔
    b.Steady calls := by
  have hs := Schema.sound_of_define hdef
  have hwrote := Wrote.of_new hs hnew
  have hzero : b.index = 0 := hwrote.index_eq
  constructor
  · rintro ⟨hcount, _⟩
    apply Classical.byContradiction
    intro hsteady
    obtain ⟨i, hlt, _, hmiss⟩ := exists_missed hsteady
    rw [index_of_build hbuild, schema_appendEach, hwrote.schema_eq] at hlt
    have hone := hcount i hlt
    rw [List.count_eq_zero.mpr hmiss] at hone
    cases hone
  · intro hsteady
    have hi := index_taken_of_steady hsteady
    rw [hzero] at hi
    obtain ⟨hf, hbytes⟩ := (hwrote.appendEach hs hsteady).build hbuild
    rw [List.nil_append] at hf hbytes
    refine ⟨fun i hlt => ?_, s.view ((b.taken calls).map Prod.snd), ?_, fun i v hm => ?_⟩
    · have hlen : (b.taken calls).length = s.length := by
        rw [← hf.length_eq, List.length_map]
      have hnodup : (List.range' 0 s.length).Nodup := List.nodup_range'
      rw [hi, hlen, hnodup.count, if_pos]
      exact List.mem_range'_1.mpr ⟨Nat.zero_le i, by omega⟩
    · rw [hbytes]
      exact Schema.new_encode hs hf
    · obtain ⟨g, part, p, c, hat, _⟩ := View.at_view hs hf (getElem?_taken hi hm)
      exact hat.value_eq

/-- Calls of which two are refused where they stand: a text for a bit mask, and one value too many. -/
def retriedCalls : List Value :=
  [.number .int4 42, .utf8 "x", .bitSet (BitSet.ofList [0, 9]), .utf8 "", .undefined, .blob [1, 2],
    .undefined]

theorem build_sound_retried : ∃ b t,
    Schema.define 1 sampleKey sampleValue = .ok sampleSchema ∧
    Builder.new sampleSchema 34 0 2 = .ok b ∧ (b.appendEach retriedCalls).build = .ok t ∧
    b.Steady retriedCalls ∧
    (∀ i < sampleSchema.length, ((b.taken retriedCalls).map Prod.fst).count i = 1) ∧
    ∃ view, View.new sampleSchema t.bytes = .ok view ∧
      ∀ (i : Nat) (v : Value), (i, v) ∈ b.taken retriedCalls → view.value i = .ok v := by
  have hdef : Schema.define 1 sampleKey sampleValue = .ok sampleSchema := rfl
  have hnew : Builder.new sampleSchema 34 0 2 = .ok _ := rfl
  refine ⟨_, _, hdef, hnew, rfl, ?steady, (build_sound_iff_steady hdef hnew rfl).mpr ?steady⟩
  exact ⟨Or.inl rfl, Or.inr rfl, Or.inl rfl, Or.inl rfl, Or.inl rfl, Or.inl rfl, Or.inr rfl, trivial⟩

/-! ## 5. A column that is passed over -/

/-- A number and a text that may be null. -/
def labelSchema : Schema :=
  { version := 1
    fingerprint := Fingerprint.ofColumns (Columns.ofList [⟨"id", .number .int4, false⟩])
      (Columns.ofList [⟨"name", .utf8, true⟩])
    key := Columns.ofList [⟨"id", .number .int4, false⟩]
    value := Columns.ofList [⟨"name", .utf8, true⟩] }

/-- **The builder hands out an unfinished tuple.** One text is declared and the text column is given a
    null. Closing the value's chunk refuses that append with the index already moved, and the builder
    counts the column as given: the chunk's length is never filled in, and no reader accepts the
    bytes. -/
theorem build_accepts_unfinished : ∃ b t,
    Schema.define 1 [⟨"id", .number .int4, false⟩] [⟨"name", .utf8, true⟩] = .ok labelSchema ∧
    Builder.new labelSchema 26 0 1 = .ok b ∧
    (b.appendEach [.number .int4 42, .undefined]).build = .ok t ∧
    ¬ (∀ i < labelSchema.length,
      ((b.taken [.number .int4 42, .undefined]).map Prod.fst).count i = 1) ∧
    View.new labelSchema t.bytes = Outcome.refuse (.corrupted (.shortChunk 17 0 5)) := by
  have hnew : Builder.new labelSchema 26 0 1 = .ok _ := rfl
  refine ⟨_, _, rfl, hnew, rfl, fun hcount => ?_, ?_⟩
  · have hone : ([0] : List Nat).count 1 = 1 := hcount 1 (by decide)
    cases hone
  · decide +kernel

end RowCodec.Builder
