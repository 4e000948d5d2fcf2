import RowCodec.Proofs.Binding.RoundTrip
import RowCodec.Proofs.Tuple.Accepted
import RowCodec.Proofs.Tuple.Measured

/-!
# How writing a row ends

A serializer measures a row before it writes it, so its builder is made for the row: what can still be
refused is a column's value.

* `Shape.row` -- the values of the columns of a shape's object, each its field's.
* `GroupBinding.Gives` -- what a bound group makes of an object: the values of its columns, all of
  their columns' kinds (`Bound.gives`). `GroupBinding.Writes` is the same of an object that is no whole
  null, with the reports (`Bound.writes`).
* `Gives.statistic_eq` -- the texts and byte strings that are counted are those of the row.
* `Writes.write_eq`, `Writes.write_refused` -- columns are written as their values are appended; the
  first that is refused is reported.
* `Serializer.Measures` -- a row that can be measured: a builder is reserved that is made for it
  (`Measures.reserves`), and nothing but its values decides how it ends.
* `Schema.Ends` -- **how writing a row ends**; `Serializer.serialize_outcome` says so of every row of two
  objects.
-/

namespace RowCodec

variable {index slot offset p : Nat} {c : Column} {v : Value} {a : Accessor} {mode : Mode}
  {e : TupleError} {fields : List Field} {o : Object} {shape : Shape} {columns : List Column}
  {redact : Bool}

/-! ## 1. Rows of objects -/

namespace Shape

/-- The value of a column: its field's, or the whole object. -/
def columnValue (shape : Shape) (o : Object) (c : Column) : Value :=
  match shape with
  | scalar _ => o.get 0
  | record fields => ((slot? fields c.name).map o.get).getD .undefined

/-- The values of columns. -/
def row (shape : Shape) (columns : List Column) (o : Object) : List Value :=
  columns.map (shape.columnValue o)

@[simp] theorem length_row (shape : Shape) (columns : List Column) (o : Object) :
    (shape.row columns o).length = columns.length := List.length_map _

end Shape

/-- The accessor of each column. -/
theorem Accessor.TieAll.ties {accessors : List Accessor}
    (h : TieAll fields offset columns accessors) :
    ∀ (p : Nat) (a : Accessor) (c : Column), accessors[p]? = some a → columns[p]? = some c →
      ∃ slot, a.Ties fields c (offset + p) slot := by
  induction h with
  | nil =>
      intro p a c ha
      cases ha
  | @cons offset slot c rest a more head tail ih =>
      intro p b d hb hd
      cases p with
      | zero =>
          cases hb
          cases hd
          exact ⟨slot, head⟩
      | succ p =>
          obtain ⟨own, h⟩ := ih p b d hb hd
          rw [Nat.add_assoc, Nat.add_comm 1 p] at h
          exact ⟨own, h⟩

namespace Accessor

/-- What an accessor makes of an object: its column's value, which is of the column's kind. -/
structure Gives (a : Accessor) (shape : Shape) (c : Column) (o : Object) : Prop where
  value_eq : a.value o = shape.columnValue o c
  suits : c.suits (a.value o) = true

/-- An accessor that has something to write: what it gives is not a whole object that is null. -/
structure Writes (a : Accessor) (shape : Shape) (c : Column) (o : Object) : Prop extends
    a.Gives shape c o where
  present : (a.isWhole && (a.value o).isUndefined) = false

theorem Ties.writes (h : a.Ties fields c index slot) (ho : (Shape.record fields).holds o = true) :
    a.Writes (.record fields) c o := by
  obtain ⟨hvalue, hholds⟩ := h.holds_value ho
  refine ⟨⟨?_, ?_⟩, ?_⟩
  · unfold Shape.columnValue
    dsimp only
    rw [h.slot_eq, hvalue]
    rfl
  · rw [hvalue]
    exact ((Mode.holds_iff_suits h.accepts).mp hholds).1
  · unfold isWhole
    rw [h.target_eq]
    rfl

theorem TiesWhole.gives (h : a.TiesWhole mode c index) (ho : (Shape.ofMode mode).holds o = true) :
    a.Gives (.ofMode mode) c o := by
  obtain ⟨hobject, hholds⟩ := h.holds_value ho
  refine ⟨?_, ?_⟩
  · conv => rhs; rw [hobject]
    rfl
  · rw [h.mode_eq] at hholds
    exact ((Mode.holds_iff_suits h.accepts).mp hholds).1

/-- What is no null of a whole object is appended, and a refusal reported. -/
theorem write_eq (h : (a.isWhole && (a.value o).isUndefined) = false) (b : Builder) :
    a.write o b = (b.append (a.value o)).mapCause fun e => a.failure .write e.diagnostic := by
  unfold write
  rw [if_neg (by rw [h]; exact Bool.false_ne_true)]

end Accessor

namespace GroupBinding

variable {g : GroupBinding}

/-- What a bound group makes of an object: one value a column. -/
structure Gives (g : GroupBinding) (shape : Shape) (columns : List Column) (o : Object) : Prop where
  length_eq : g.accessors.length = columns.length
  accessor : ∀ (p : Nat) (a : Accessor) (c : Column), g.accessors[p]? = some a →
    columns[p]? = some c → a.Gives shape c o

/-- What a bound group writes of an object: a value for each column, in the reports under the column's
    index. -/
structure Writes (g : GroupBinding) (shape : Shape) (columns : List Column) (offset : Nat)
    (redact : Bool) (o : Object) : Prop where
  length_eq : g.accessors.length = columns.length
  accessor : ∀ (p : Nat) (a : Accessor) (c : Column), g.accessors[p]? = some a →
    columns[p]? = some c → a.Writes shape c o
  failure_eq : ∀ (p : Nat) (a : Accessor) (c : Column), g.accessors[p]? = some a →
    columns[p]? = some c → ∀ cause, a.failure .write cause = c.failure (offset + p) redact .write cause

theorem Writes.gives (h : g.Writes shape columns offset redact o) : g.Gives shape columns o :=
  ⟨h.length_eq, fun p a c ha hc => (h.accessor p a c ha hc).toGives⟩

/-- **What a group is bound to is what it gives.** -/
theorem Bound.gives (h : g.Bound shape columns offset redact) (ho : shape.holds o = true) :
    g.Gives shape columns o := by
  cases h.ties with
  | @whole a c mode hc ha =>
      subst hc
      refine ⟨rfl, fun p b d hb hd => ?_⟩
      cases p with
      | zero =>
          cases hb
          cases hd
          exact ha.gives ho
      | succ p => cases hd
  | @record fields accessors ha =>
      refine ⟨ha.length_eq, fun p b d hb hd => ?_⟩
      obtain ⟨slot, hties⟩ := ha.ties p b d hb hd
      exact (hties.writes ho).toGives

/-- **What a group is bound to is what it writes**, if that is no null. -/
theorem Bound.writes (h : g.Bound shape columns offset redact) (ho : shape.holds o = true)
    (hn : g.isNull o = false) : g.Writes shape columns offset redact o := by
  have hgives := h.gives ho
  cases h.ties with
  | @whole a c mode hc ha =>
      subst hc
      refine ⟨rfl, fun p b d hb hd => ?_, fun p b d hb hd => ?_⟩
      · cases p with
        | zero =>
            cases hb
            refine ⟨hgives.accessor 0 _ d rfl hd, ?_⟩
            rw [show (a.value o).isUndefined = false from hn, Bool.and_false]
        | succ p => cases hd
      · have hreports := h.reports p b d hb hd
        cases p with
        | zero =>
            cases hb
            cases hd
            exact hreports.failure_eq ha.index_eq .write
        | succ p => cases hd
  | @record fields accessors ha =>
      refine ⟨ha.length_eq, fun p b d hb hd => ?_, fun p b d hb hd => ?_⟩
      · obtain ⟨slot, hties⟩ := ha.ties p b d hb hd
        exact hties.writes ho
      · obtain ⟨slot, hties⟩ := ha.ties p b d hb hd
        exact (h.reports p b d hb hd).failure_eq hties.index_eq .write

namespace Gives

theorem row_eq (h : g.Gives shape columns o) : g.row o = shape.row columns o := by
  unfold row Shape.row
  apply List.ext_getElem
  · rw [List.length_map, List.length_map, h.length_eq]
  · intro p hp hq
    rw [List.length_map] at hp hq
    rw [List.getElem_map, List.getElem_map]
    exact (h.accessor p _ _ (List.getElem?_eq_getElem hp) (List.getElem?_eq_getElem hq)).value_eq

theorem suits (h : g.Gives shape columns o) : Suits columns (shape.row columns o) := by
  intro p c v hc hv
  rw [← h.row_eq] at hv
  unfold row at hv
  rw [List.getElem?_map] at hv
  obtain ⟨a, ha, rfl⟩ := Option.map_eq_some_iff.mp hv
  exact (h.accessor p a c ha hc).suits

end Gives

/-! ## 2. Measuring -/

/-- Columns that hold texts, byte strings and nulls are counted from a position on. -/
theorem recordValues_eq {ε : Type} : ∀ {part before : List Value} (stat : Statistic),
    g.row o = before ++ part → (∀ v ∈ part, v.payload?.isSome = !v.isUndefined) →
      g.recordValues (ε := ε) o (List.range' before.length part.length) stat =
        .ok (((payloads part).map List.length).foldl Statistic.record stat)
  | [], _, _, _, _ => rfl
  | v :: part, before, _, h, hp => by
      have hv : g.value (ε := ε) o before.length = .ok v := by
        rw [value_eq_row, h, List.getElem?_append_right (Nat.le_refl _), Nat.sub_self]
        rfl
      have ih : ∀ stat, g.recordValues (ε := ε) o (List.range' (before.length + 1) part.length) stat =
          .ok (((payloads part).map List.length).foldl Statistic.record stat) := by
        intro stat
        have hrest : g.row o = (before ++ [v]) ++ part := by
          rw [h, List.append_assoc]
          rfl
        have hcount := recordValues_eq (ε := ε) stat hrest fun w hw => hp w (List.mem_cons_of_mem v hw)
        rwa [List.length_append] at hcount
      have hkind := hp v List.mem_cons_self
      rw [List.length_cons, List.range'_succ]
      unfold recordValues
      rw [hv, Outcome.ok_bind]
      cases v with
      | undefined => exact ih _
      | utf8 text => exact ih _
      | blob bytes => exact ih _
      | _ => cases hkind

/-- **What is recorded is the row**: the columns from the first of variable length on hold every text and
    byte string, and nothing else but nulls. -/
theorem Gives.recordValues_eq {ε : Type} {columns : Columns} (h : g.Gives shape columns.columns o)
    (hg : columns.LaidOut) :
    g.recordValues (ε := ε) o (columns.varlenBefore columns.length) .empty =
      .ok (rowStatistic (shape.row columns.columns o)) := by
  have hlen : (shape.row columns.columns o).length = columns.length := Shape.length_row _ _ _
  have hle := hg.fixedCount_le
  have hfixed := Columns.payloads_take_fixedCount hg h.suits hlen
  have hpart : payloads ((shape.row columns.columns o).drop columns.fixedCount) =
      payloads (shape.row columns.columns o) := by
    conv => rhs; rw [← List.take_append_drop columns.fixedCount (shape.row columns.columns o)]
    rw [payloads_append, hfixed, List.nil_append]
  -- Behind the fixed-size columns there is no number, UUID or bit set to stop the count.
  have hkinds : ∀ v ∈ (shape.row columns.columns o).drop columns.fixedCount,
      v.payload?.isSome = !v.isUndefined := by
    intro v hv
    obtain ⟨p, hp⟩ := List.getElem?_of_mem hv
    rw [List.getElem?_drop] at hp
    have hlt := (List.getElem?_eq_some_iff.mp hp).1
    rw [hlen] at hlt
    obtain ⟨c, hc⟩ := Columns.exists_column hlt
    refine Column.isSome_payload (h.suits _ c v hc hp) (Bool.eq_false_iff.mpr fun hf => ?_)
    have := (hg.isFixedSize_iff hc).mp hf
    omega
  have hsplit : g.row o = (shape.row columns.columns o).take columns.fixedCount
      ++ (shape.row columns.columns o).drop columns.fixedCount := by
    rw [h.row_eq, List.take_append_drop]
  have hcount := GroupBinding.recordValues_eq (ε := ε) .empty hsplit hkinds
  rw [List.length_take, List.length_drop, hlen, Nat.min_eq_left hle, hpart,
    Columns.foldl_payloads] at hcount
  rw [Columns.varlenBefore_eq hg hle (Nat.le_refl _), hcount]

/-- **What is counted is the row.** -/
theorem Gives.statistic_eq {ε : Type} {columns : Columns} (h : g.Gives shape columns.columns o)
    (hg : columns.LaidOut)
    (hmax : columns.chunkBytes (rowStatistic (shape.row columns.columns o)) ≤ maxChunkOffset) :
    g.statistic (ε := ε) columns o = .ok (rowStatistic (shape.row columns.columns o)) := by
  unfold statistic
  rw [h.recordValues_eq hg, Outcome.ok_bind]
  exact Columns.checked_rowStatistic hmax

/-! ## 3. Writing -/

theorem writeAll_append : ∀ {first rest : List Accessor} {b b' : Builder},
    writeAll o first b = ⟨b', .ok ()⟩ → writeAll o (first ++ rest) b = writeAll o rest b'
  | [], _, _, _, h => by
      cases h
      rfl
  | a :: first, rest, b, b', h => by
      cases hstep : (a.write o b).outcome with
      | error fault =>
          rw [writeAll_of_error hstep] at h
          cases h
      | ok u =>
          rw [writeAll_of_ok hstep] at h
          rw [List.cons_append, writeAll_of_ok hstep]
          exact writeAll_append h

/-- Columns whose values are appended are written. -/
theorem writeAll_of_appendAll : ∀ {accessors : List Accessor} {b b' : Builder},
    (∀ a ∈ accessors, (a.isWhole && (a.value o).isUndefined) = false) →
    b.appendAll (accessors.map fun a => a.value o) = ⟨b', .ok ()⟩ →
      writeAll o accessors b = ⟨b', .ok ()⟩
  | [], _, _, _, h => by
      cases h
      rfl
  | a :: rest, b, b', hp, h => by
      have hwrite := Accessor.write_eq (hp a List.mem_cons_self) b
      rw [List.map_cons] at h
      obtain ⟨happ, hcons⟩ := Builder.of_appendAll_ok (congrArg Step.outcome h)
      rw [hcons] at h
      have hstep : (a.write o b).outcome = .ok () := by
        rw [hwrite, Step.mapCause, happ]
        rfl
      rw [writeAll_of_ok hstep, hwrite]
      exact writeAll_of_appendAll (fun a ha => hp a (List.mem_cons_of_mem _ ha)) h

namespace Writes

theorem present (h : g.Writes shape columns offset redact o) :
    ∀ a ∈ g.accessors, (a.isWhole && (a.value o).isUndefined) = false := by
  intro a ha
  obtain ⟨p, hp⟩ := List.getElem?_of_mem ha
  have hlt := (List.getElem?_eq_some_iff.mp hp).1
  rw [h.length_eq] at hlt
  exact (h.accessor p a _ hp (List.getElem?_eq_getElem hlt)).present

/-- The first columns are written if their values are appended. -/
theorem written {b b' : Builder} (h : g.Writes shape columns offset redact o) {n : Nat}
    (happ : b.appendAll ((shape.row columns o).take n) = ⟨b', .ok ()⟩) :
    writeAll o (g.accessors.take n) b = ⟨b', .ok ()⟩ := by
  refine writeAll_of_appendAll (fun a ha => h.present a (List.mem_of_mem_take ha)) ?_
  rw [← h.gives.row_eq, row, ← List.map_take] at happ
  exact happ

/-- All columns are written if all values are appended. -/
theorem write_eq {b b' : Builder} (h : g.Writes shape columns offset redact o)
    (happ : b.appendAll (shape.row columns o) = ⟨b', .ok ()⟩) : g.write o b = ⟨b', .ok ()⟩ := by
  unfold write
  refine writeAll_of_appendAll h.present ?_
  rwa [← h.gives.row_eq] at happ

/-- **The first column that is refused is reported.** -/
theorem write_refused {b b' : Builder} (h : g.Writes shape columns offset redact o)
    (hc : columns[p]? = some c) (hv : (shape.row columns o)[p]? = some v)
    (happ : b.appendAll ((shape.row columns o).take p) = ⟨b', .ok ()⟩)
    (hr : b'.append v = ⟨b', Outcome.refuse e⟩) :
    (g.write o b).outcome = Outcome.refuse (c.failure (offset + p) redact .write e.diagnostic) := by
  have hp : p < g.accessors.length := by
    rw [h.length_eq]
    exact (List.getElem?_eq_some_iff.mp hc).1
  have ha := List.getElem?_eq_getElem hp
  have hvalue : g.accessors[p].value o = v := by
    rw [← h.gives.row_eq, row, List.getElem?_map, ha] at hv
    exact Option.some.inj hv
  have hstep : (g.accessors[p].write o b').outcome =
      Outcome.refuse (c.failure (offset + p) redact .write e.diagnostic) := by
    rw [Accessor.write_eq (h.accessor p _ c ha hc).present, hvalue, hr, Step.mapCause,
      Outcome.mapCause_refuse, h.failure_eq p _ c ha hc]
  unfold write
  rw [eq_take_cons_drop ha, writeAll_append (h.written happ), writeAll_of_error hstep]
  rfl

end Writes

end GroupBinding

/-! ## 4. Both sides -/

/-- The row of a key and a value. -/
def Schema.rowOf (schema : Schema) (key value : Shape) (k v : Object) : List Value :=
  key.row schema.key.columns k ++ value.row schema.value.columns v

namespace Schema

theorem take_rowOf (schema : Schema) (key value : Shape) (k v : Object) :
    (schema.rowOf key value k v).take schema.key.length = key.row schema.key.columns k :=
  List.take_left' (Shape.length_row _ _ _)

theorem drop_rowOf (schema : Schema) (key value : Shape) (k v : Object) :
    (schema.rowOf key value k v).drop schema.key.length = value.row schema.value.columns v :=
  List.drop_left' (Shape.length_row _ _ _)

variable {schema : Schema} {row : List Value} {i : Nat}

/-- The lowest column that does not take its value. -/
structure StopsAt (schema : Schema) (row : List Value) (i : Nat) (c : Column) (e : TupleError) :
    Prop where
  column : schema.column? i = some c
  refused : ∃ v, row[i]? = some v ∧ c.Refuses i v e
  before : ∀ (j : Nat) (d : Column) (w : Value), j < i → schema.column? j = some d →
    row[j]? = some w → d.Takes w

/-- **How writing a row ends.** -/
structure Ends (schema : Schema) (row : List Value) (redact : Bool)
    (result : Outcome Diagnostic EncodedTuple) : Prop where
  /-- There is a tuple exactly when each column takes its value. -/
  answered_iff : (∃ t, result = .ok t) ↔ ∀ (i : Nat) (c : Column) (v : Value),
    schema.column? i = some c → row[i]? = some v → c.Takes v
  bytes_eq : ∀ t, result = .ok t → t.bytes = schema.encode row
  /-- Otherwise the lowest column that does not is reported. -/
  refused : (∀ t, result ≠ .ok t) → ∃ i c e failure, schema.StopsAt row i c e ∧
    failure = c.failure i redact .write e.diagnostic ∧ result = Outcome.refuse failure ∧
    failure.code = "MARSHAL_010" ∧ failure.causes = [e.diagnostic.report] ∧
    e.code ∈ ["TUPLE_004", "TUPLE_009"]

theorem Suits.takesBelow_iff (hs : schema.Suits row) (n : Nat) :
    schema.TakesBelow row n ↔ ∀ (i : Nat) (c : Column) (v : Value), i < n →
      schema.column? i = some c → row[i]? = some v → c.Takes v := by
  refine ⟨fun h i c v hi hc hv => ?_, fun h i c v hi hc hv => ?_⟩
  · exact (Column.takes_iff (hs i c v hc hv)).mpr (h i c v hi hc hv)
  · exact (Column.takes_iff (hs i c v hc hv)).mp (h i c v hi hc hv)

/-- A written row: each column takes its value. -/
theorem Ends.of_ok (hs : schema.Suits row) (ht : schema.TakesBelow row schema.length) :
    schema.Ends row redact (.ok ⟨schema.encode row⟩) := by
  refine ⟨⟨fun _ i c v hc hv => ?_, fun _ => ⟨_, rfl⟩⟩, fun t ht => ?_, fun hno => absurd rfl (hno _)⟩
  · exact (hs.takesBelow_iff _).mp ht i c v (exists_column_iff.mp ⟨c, hc⟩) hc hv
  · cases ht
    rfl

/-- A row that stopped at the lowest column that refuses its value. -/
theorem Ends.of_refused (hs : schema.Suits row) (hc : schema.column? i = some c)
    (hv : row[i]? = some v) (ht : schema.TakesBelow row i) (hr : c.Refuses i v e) :
    schema.Ends row redact (Outcome.refuse (c.failure i redact .write e.diagnostic)) := by
  obtain ⟨hcode, hcauses⟩ := c.failure_chain i redact .write e
  have hstop : schema.StopsAt row i c e := ⟨hc, ⟨v, hv, hr⟩, (hs.takesBelow_iff i).mp ht⟩
  refine ⟨⟨?_, fun hall => ?_⟩, ?_,
    fun _ => ⟨i, c, e, _, hstop, rfl, rfl, hcode, hcauses, hr.code_mem⟩⟩
  · rintro ⟨t, ht⟩
    cases ht
  · have hadmits := (Column.takes_iff (hs i c v hc hv)).mp (hall i c v hc hv)
    rw [hr.not_admits] at hadmits
    cases hadmits
  · intro t ht
    cases ht

/-- The codes that a failed write reports: that of the failure, of a null, and of a bit set that is too
    long. -/
theorem Ends.code_mem {result : Outcome Diagnostic EncodedTuple} {d : Diagnostic}
    (h : schema.Ends row redact result) (hd : result = Outcome.refuse d) :
    ∀ r ∈ d.report :: d.causes, r.code ∈ ["MARSHAL_010", "TUPLE_004", "TUPLE_009"] := by
  have hno : ∀ t, result ≠ .ok t := by
    intro t ht
    cases hd.symm.trans ht
  obtain ⟨i, c, e, failure, _, rfl, hresult, _, _, he⟩ := h.refused hno
  cases hd.symm.trans hresult
  exact Column.failure_codes he

end Schema

namespace Serializer

section

variable {s : Serializer} {key value : Shape} {k v : Object} {b : Builder}

/-- A row that a serializer can measure: the values that its groups give, in chunks whose lengths are
    32-bit words. The key has something to write. -/
structure Measures (s : Serializer) (key value : Shape) (redact : Bool) (k v : Object) : Prop where
  sound : s.schema.Sound
  key_writes : s.key.Writes key s.schema.key.columns 0 redact k
  value_gives : s.value.Gives value s.schema.value.columns v
  bounded : s.schema.Bounded (s.schema.rowOf key value k v)

theorem Measures.suits (h : s.Measures key value redact k v) :
    s.schema.Suits (s.schema.rowOf key value k v) :=
  .append h.key_writes.gives.suits h.value_gives.suits (Shape.length_row _ _ _)

/-- **What is measured is the row.** -/
theorem Measures.statistics_eq (h : s.Measures key value redact k v) :
    s.statistics k (some v) = .ok (rowStatistic (key.row s.schema.key.columns k),
      rowStatistic (value.row s.schema.value.columns v)) := by
  have hkmax := h.bounded.key.chunk_le
  have hvmax := h.bounded.value.chunk_le
  rw [Schema.take_rowOf] at hkmax
  rw [Schema.drop_rowOf] at hvmax
  unfold statistics
  rw [h.key_writes.gives.statistic_eq h.sound.key hkmax, Outcome.ok_bind]
  dsimp only
  rw [h.value_gives.statistic_eq h.sound.value hvmax]
  rfl

/-- The builder that is reserved for a key and a value. -/
def Reserves (s : Serializer) (k v : Object) (b : Builder) : Prop :=
  ∃ keyStatistic valueStatistic size,
    s.statistics k (some v) = .ok (keyStatistic, valueStatistic) ∧
    s.schema.tupleSize (ε := Diagnostic) keyStatistic valueStatistic = .ok size ∧
    Builder.new s.schema size keyStatistic.nonNull valueStatistic.nonNull = .ok b

/-- **A measured row has a builder made for it.** -/
theorem Measures.reserves (h : s.Measures key value redact k v) :
    ∃ b, s.Reserves k v b ∧ Builder.MadeFor s.schema (s.schema.rowOf key value k v) b [] := by
  obtain ⟨b, hnew, hmade⟩ := Builder.MadeFor.of_new h.sound h.bounded
  have hsize := h.bounded.tupleSize (ε := Diagnostic)
  rw [Schema.take_rowOf, Schema.drop_rowOf] at hnew hsize
  exact ⟨b, ⟨_, _, _, h.statistics_eq, hsize, hnew⟩, hmade⟩

/-- What is left of serializing once the row was measured and its bytes reserved. -/
theorem Reserves.serialize_eq (h : s.Reserves k v b) (hn : s.key.isNull k = false) :
    s.serialize k (some v) = (do
      (s.key.write k b).outcome
      (s.value.write v (s.key.write k b).builder).outcome
      Outcome.ofExcept ((s.value.write v (s.key.write k b).builder).builder.build.mapError
        TupleError.diagnostic)) := by
  obtain ⟨keyStatistic, valueStatistic, size, hstat, hsize, hnew⟩ := h
  unfold serialize
  rw [if_neg (by rw [hn]; exact Bool.false_ne_true)]
  dsimp only
  rw [hstat, Outcome.ok_bind]
  dsimp only
  rw [hsize, Outcome.ok_bind, hnew]
  rfl

/-- The key is written if each of its columns takes its value. -/
theorem Measures.write_key (h : s.Measures key value redact k v)
    (hmade : Builder.MadeFor s.schema (s.schema.rowOf key value k v) b []) {n : Nat}
    (hn : s.schema.key.length ≤ n) (htakes : s.schema.TakesBelow (s.schema.rowOf key value k v) n) :
    ∃ b', b.appendAll (key.row s.schema.key.columns k) = ⟨b', .ok ()⟩ ∧
      s.key.write k b = ⟨b', .ok ()⟩ := by
  obtain ⟨b', happ, _⟩ := hmade.appendAll_take h.sound h.bounded h.bounded.key_le
    fun i c w hi => htakes i c w (Nat.lt_of_lt_of_le hi hn)
  rw [Schema.take_rowOf] at happ
  exact ⟨b', happ, h.key_writes.write_eq happ⟩

/-- Writing the key stops at its first column that refuses its value. -/
theorem Measures.key_refused (h : s.Measures key value redact k v)
    (hmade : Builder.MadeFor s.schema (s.schema.rowOf key value k v) b []) {i : Nat} {w : Value}
    (hi : i < s.schema.key.length) (hc : s.schema.column? i = some c)
    (hw : (s.schema.rowOf key value k v)[i]? = some w)
    (htakes : s.schema.TakesBelow (s.schema.rowOf key value k v) i) (hr : c.Refuses i w e) :
    (s.key.write k b).outcome = Outcome.refuse (c.failure i redact .write e.diagnostic) := by
  have hklen : (key.row s.schema.key.columns k).length = s.schema.key.length := Shape.length_row _ _ _
  obtain ⟨b', happ, hrefused⟩ := hmade.stops h.sound h.bounded hc hw htakes hr
  unfold Schema.rowOf at hw happ
  rw [Schema.column?_key hi] at hc
  rw [List.take_append_of_le_length (by omega)] at happ
  rw [List.getElem?_append_left (by omega)] at hw
  have hkey := h.key_writes.write_refused hc hw happ hrefused
  rwa [Nat.zero_add] at hkey

/-- **A value that is there is written** behind the key, if each column takes its value. -/
theorem Measures.write_both (h : s.Measures key value redact k v)
    (hvalue : s.value.Writes value s.schema.value.columns s.schema.key.length redact v)
    (hmade : Builder.MadeFor s.schema (s.schema.rowOf key value k v) b [])
    (htakes : s.schema.TakesBelow (s.schema.rowOf key value k v) s.schema.length) :
    ∃ b₁ b₂, s.key.write k b = ⟨b₁, .ok ()⟩ ∧ s.value.write v b₁ = ⟨b₂, .ok ()⟩ ∧
      b₂.build = .ok ⟨s.schema.encode (s.schema.rowOf key value k v)⟩ := by
  have hlen := h.bounded.length_eq
  obtain ⟨b₁, hb₁, hkey⟩ := h.write_key hmade (Nat.le_add_right _ _) htakes
  obtain ⟨b₂, hb₂, hmade₂⟩ :=
    hmade.appendAll_take h.sound h.bounded (Nat.le_of_eq hlen.symm) htakes
  rw [← hlen, List.take_length] at hb₂ hmade₂
  unfold Schema.rowOf at hb₂
  rw [Builder.appendAll_append hb₁] at hb₂
  exact ⟨b₁, b₂, hkey, hvalue.write_eq hb₂, hmade₂.build_eq h.sound h.bounded⟩

/-- Writing the value stops at its first column that refuses its value; the key was written as a whole. -/
theorem Measures.value_refused (h : s.Measures key value redact k v)
    (hvalue : s.value.Writes value s.schema.value.columns s.schema.key.length redact v)
    (hmade : Builder.MadeFor s.schema (s.schema.rowOf key value k v) b []) {w : Value}
    (hc : s.schema.value.columns[p]? = some c)
    (hw : (s.schema.rowOf key value k v)[s.schema.key.length + p]? = some w)
    (htakes : s.schema.TakesBelow (s.schema.rowOf key value k v) (s.schema.key.length + p))
    (hr : c.Refuses (s.schema.key.length + p) w e) :
    ∃ b₁, s.key.write k b = ⟨b₁, .ok ()⟩ ∧ (s.value.write v b₁).outcome =
      Outcome.refuse (c.failure (s.schema.key.length + p) redact .write e.diagnostic) := by
  have hklen : (key.row s.schema.key.columns k).length = s.schema.key.length := Shape.length_row _ _ _
  have hcolumn := (Schema.column?_value s.schema p).trans hc
  obtain ⟨b', happ, hrefused⟩ := hmade.stops h.sound h.bounded hcolumn hw htakes hr
  obtain ⟨b₁, hb₁, hkey⟩ := h.write_key hmade (Nat.le_add_right _ _) htakes
  unfold Schema.rowOf at hw happ
  rw [← hklen, List.take_length_add_append, Builder.appendAll_append hb₁] at happ
  rw [← hklen, List.getElem?_append_right (Nat.le_add_right _ _), Nat.add_sub_cancel_left] at hw
  exact ⟨b₁, hkey, hvalue.write_refused hc hw happ hrefused⟩

/-- **A measured row is written**, or stops at its first column that refuses its value. -/
theorem Measures.ends (h : s.Measures key value redact k v) (hn : s.key.isNull k = false)
    (hvalue : s.value.Writes value s.schema.value.columns s.schema.key.length redact v) :
    s.schema.Ends (s.schema.rowOf key value k v) redact (s.serialize k (some v)) := by
  obtain ⟨b, hreserved, hmade⟩ := h.reserves
  rw [hreserved.serialize_eq hn]
  rcases Schema.takesBelow_or_refuses h.suits h.bounded.length_eq _ (Nat.le_refl _) with
    htakes | ⟨i, c, w, e, _, hc, hw, htakes, hr⟩
  · obtain ⟨b₁, b₂, hkey, hwrite, hbuild⟩ := h.write_both hvalue hmade htakes
    simp only [hkey, hwrite, hbuild, Outcome.ok_bind, Outcome.mapError_eq, Outcome.ofExcept_eq]
    exact .of_ok h.suits htakes
  · rcases Schema.column?_cases hc with ⟨hside, _⟩ | ⟨p, rfl, hd⟩
    · rw [h.key_refused hmade hside hc hw htakes hr, Outcome.refuse_bind]
      exact .of_refused h.suits hc hw htakes hr
    · obtain ⟨b₁, hkey, hwrite⟩ := h.value_refused hvalue hmade hd hw htakes hr
      simp only [hkey, hwrite, Outcome.ok_bind, Outcome.refuse_bind]
      exact .of_refused h.suits hc hw htakes hr

/-- **How serializing ends.** For any row of objects without a null for a whole key or value, whose
    chunks have lengths that can be said: there is a tuple exactly when nulls stand in nullable columns
    and bit sets are within their masks. Otherwise the lowest column where that fails is reported. No
    report says that something else went wrong -- a type, an index, a capacity, a count or a size. -/
theorem serialize_outcome {version : UInt32} {keyColumns valueColumns : List Column} {schema : Schema}
    {config : Config} (hdef : Schema.define version keyColumns valueColumns = .ok schema)
    (hkstd : key.IsStandard) (hvstd : value.IsStandard)
    (hnew : Serializer.new schema config key value = .ok s)
    (hk : key.holds k = true) (hv : value.holds v = true)
    (hnk : s.key.isNull k = false) (hnv : s.value.isNull v = false)
    (hkmax : schema.key.chunkBytes (rowStatistic (key.row schema.key.columns k)) ≤ maxChunkOffset)
    (hvmax : schema.value.chunkBytes (rowStatistic (value.row schema.value.columns v)) ≤
      maxChunkOffset) :
    s.statistics k (some v) = .ok (rowStatistic (key.row schema.key.columns k),
      rowStatistic (value.row schema.value.columns v)) ∧
    schema.Ends (schema.rowOf key value k v) config.redactSensitive (s.serialize k (some v)) ∧
    ∀ d, s.serialize k (some v) = Outcome.refuse d → ∀ r ∈ d.report :: d.causes,
      r.code ∉ ["TUPLE_003", "TUPLE_006", "TUPLE_007", "TUPLE_008", "TUPLE_010", "TUPLE_011"] := by
  have hs := Schema.sound_of_define hdef
  obtain ⟨rfl, hkey, hvalue⟩ := bound_of_new hs hkstd hvstd hnew
  have hmeasures : s.Measures key value config.redactSensitive k v :=
    ⟨hs, hkey.writes hk hnk, hvalue.gives hv,
      .append ⟨Shape.length_row _ _ _, hkmax⟩ ⟨Shape.length_row _ _ _, hvmax⟩⟩
  have hends := hmeasures.ends hnk (hvalue.writes hv hnv)
  have hother : ∀ code ∈ ["MARSHAL_010", "TUPLE_004", "TUPLE_009"], code ∉
      ["TUPLE_003", "TUPLE_006", "TUPLE_007", "TUPLE_008", "TUPLE_010", "TUPLE_011"] := by decide
  exact ⟨hmeasures.statistics_eq, hends, fun d hd r hr => hother _ (hends.code_mem hd r hr)⟩

end

/-- A mask of four bits, and a name that must be there. -/
def maskSchema : Schema :=
  let key := Columns.ofList [⟨"id", .number .int4, false⟩]
  let value := Columns.ofList [⟨"name", .utf8, false⟩, ⟨"flags", .bitmask 4, true⟩]
  { version := 1, fingerprint := Fingerprint.ofColumns key value, key, value }

def maskShape : Shape := .record
  [⟨"name", .encoded .utf8, .undefined⟩, ⟨"flags", .encoded .bitmask, .undefined⟩]

/-- Bit 9 is too far, and the name is missing. -/
def maskRecord : Object := .record [.undefined, .bitSet (BitSet.ofList [0, 9])]

/-- Of the two columns that do not take their values, the mask is the lower one. -/
theorem serialize_outcome_mask : ∃ s failure,
    Schema.define 1 [⟨"id", .number .int4, false⟩]
      [⟨"name", .utf8, false⟩, ⟨"flags", .bitmask 4, true⟩] = .ok maskSchema ∧
    (Shape.ofMode (.nullable .int4)).IsStandard ∧ maskShape.IsStandard ∧
    Serializer.new maskSchema Config.standard (.ofMode (.nullable .int4)) maskShape = .ok s ∧
    (Shape.ofMode (.nullable .int4)).holds (.whole (.number .int4 42)) = true ∧
    maskShape.holds maskRecord = true ∧
    s.key.isNull (.whole (.number .int4 42)) = false ∧ s.value.isNull maskRecord = false ∧
    s.serialize (.whole (.number .int4 42)) (some maskRecord) = Outcome.refuse failure ∧
    failure.code = "MARSHAL_010" ∧
    failure.causes = [(TupleError.bitmaskTooLong 1 10 4).diagnostic.report] := by
  have hdef : Schema.define 1 [⟨"id", .number .int4, false⟩]
      [⟨"name", .utf8, false⟩, ⟨"flags", .bitmask 4, true⟩] = .ok maskSchema := rfl
  have hkstd : (Shape.ofMode (.nullable .int4)).IsStandard := rfl
  have hvstd : maskShape.IsStandard := trivial
  have hnew : Serializer.new maskSchema Config.standard (.ofMode (.nullable .int4)) maskShape =
      .ok _ := rfl
  have hk : (Shape.ofMode (.nullable .int4)).holds (.whole (.number .int4 42)) = true := rfl
  have hv : maskShape.holds maskRecord = true := rfl
  obtain ⟨_, hends, _⟩ := serialize_outcome hdef hkstd hvstd hnew hk hv rfl rfl (by decide) (by decide)
  have hmask : ¬ Column.Takes ⟨"flags", .bitmask 4, true⟩ (.bitSet (BitSet.ofList [0, 9])) :=
    fun h => absurd (h.bits _ 4 rfl rfl) (by decide)
  obtain ⟨i, c, e, failure, hstop, _, hrefused, hcode, hcauses, _⟩ := hends.refused fun t ht =>
    hmask (hends.answered_iff.mp ⟨t, ht⟩ 1 _ _ rfl rfl)
  obtain ⟨w, hw, hr⟩ := hstop.refused
  have hc := hstop.column
  have hi : i ≤ 1 := Nat.not_lt.mp fun hlt => hmask (hstop.before 1 _ _ hlt rfl rfl)
  have he : e = .bitmaskTooLong 1 10 4 := by
    match i, hi with
    | 0, _ =>
        cases hw
        cases hr
    | 1, _ =>
        cases hc
        cases hw
        cases hr with
        | tooLong ht hlt =>
            cases ht
            rfl
  rw [he] at hcauses
  exact ⟨_, failure, hdef, hkstd, hvstd, hnew, hk, hv, rfl, rfl, hrefused, hcode, hcauses⟩

end Serializer

end RowCodec
