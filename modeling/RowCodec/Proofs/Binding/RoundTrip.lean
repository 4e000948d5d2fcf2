import RowCodec.Binding.Serializer
import RowCodec.Proofs.Binding.Bound
import RowCodec.Proofs.Tuple.RoundTrip

/-!
# From objects to bytes and back

A serializer measures, writes and reads through its accessors, so its round trip is the tuple's.

* `Mode.holds_iff_suits` -- the values of a type are those of the kind of its columns.
* `GroupBinding.row` -- the values that a bound group stores of an object.
* `of_serialize` -- an answer of `Serializer.serialize` is a tuple of the two rows.
* `Shape.restored` -- what reading gives back: the fields that columns are bound to as they were, the
  others as in a fresh object.
* `decode_serialize` -- **both sides are read back.**
-/

namespace RowCodec

variable {t : View} {index slot : Nat} {c : Column} {v : Value} {a : Accessor} {mode : Mode}
  {fields : List Field} {o : Object}

/-! ## 1. The value of an accessor -/

/-- The values of a type: those of its columns' kind, a null only if the type has one. -/
theorem Mode.holds_iff (mode : Mode) (v : Value) : mode.holds v = true ↔
    v.type?.all (fun type => mode.columnType.sameKind type) = true ∧
      (mode.isPrimitive = true → v ≠ .undefined) := by
  cases mode <;> cases v <;>
    simp [holds, columnType, isPrimitive, Value.type?, ColumnType.sameKind]

/-- **The values of a type are those of the kind of every column that stores the type.** -/
theorem Mode.holds_iff_suits (ha : mode.accepts c.type = true) : mode.holds v = true ↔
    c.suits v = true ∧ (mode.isPrimitive = true → v ≠ .undefined) := by
  unfold Column.suits
  rw [holds_iff, funext (ColumnType.sameKind_congr (sameKind_of_accepts ha))]

/-- The value of a field is one of the field's type. -/
theorem Accessor.Ties.holds_value (h : a.Ties fields c index slot)
    (ho : (Shape.record fields).holds o = true) :
    a.value o = o.get slot ∧ a.mode.holds (o.get slot) = true := by
  obtain ⟨f, hf, ht⟩ := h.type_eq
  refine ⟨?_, ?_⟩
  · unfold Accessor.value
    rw [h.target_eq]
    rfl
  · cases o with
    | whole v => cases ho
    | record values =>
        obtain ⟨hlen, hall⟩ := Shape.holds_record.mp ho
        have hslot : slot < values.length := hlen ▸ (List.getElem?_eq_some_iff.mp hf).1
        have hv := List.getElem?_eq_getElem hslot
        have hholds : f.type.holds values[slot] = true := hall slot f values[slot] hf hv
        rw [ht] at hholds
        simpa [Object.get, hv] using hholds

theorem Accessor.TiesWhole.holds_value (h : a.TiesWhole mode c index)
    (ho : (Shape.ofMode mode).holds o = true) :
    o = .whole (a.value o) ∧ a.mode.holds (a.value o) = true := by
  cases o with
  | record values => cases ho
  | whole v =>
      have hv : a.value (.whole v) = v := by
        unfold Accessor.value
        rw [h.target_eq]
        rfl
      rw [hv, h.mode_eq]
      exact ⟨rfl, ho⟩

/-! ## 2. Writing -/

namespace GroupBinding

/-- The values that a bound group stores of an object, in column order. -/
def row (g : GroupBinding) (o : Object) : List Value := g.accessors.map fun a => a.value o

theorem value_eq_row {ε : Type} (g : GroupBinding) (o : Object) (p : Nat) :
    g.value (ε := ε) o p = match (g.row o)[p]? with
      | some v => .ok v
      | none => Outcome.abort .outOfBounds := by
  unfold value row
  rw [List.getElem?_map]
  cases g.accessors[p]? <;> rfl

theorem writeAll_of_ok {rest : List Accessor} {b : Builder} (h : (a.write o b).outcome = .ok ()) :
    writeAll o (a :: rest) b = writeAll o rest (a.write o b).builder := by
  conv => lhs; unfold writeAll
  dsimp only
  rw [h]

theorem writeAll_of_error {rest : List Accessor} {b : Builder} {fault : Fault Diagnostic}
    (h : (a.write o b).outcome = .error fault) :
    writeAll o (a :: rest) b = ⟨(a.write o b).builder, .error fault⟩ := by
  unfold writeAll
  dsimp only
  rw [h]

/-- Writing columns that succeeds is appending their values. -/
theorem appendAll_of_writeAll : ∀ {accessors : List Accessor} {b : Builder},
    (writeAll o accessors b).outcome = .ok () →
      b.appendAll (accessors.map fun a => a.value o) =
        ⟨(writeAll o accessors b).builder, .ok ()⟩
  | [], _, _ => rfl
  | a :: rest, b, h => by
      cases hstep : (a.write o b).outcome with
      | error fault =>
          rw [writeAll_of_error hstep] at h
          cases h
      | ok u =>
          have happ : a.write o b = (b.append (a.value o)).mapCause fun e =>
              a.failure .write e.diagnostic := by
            unfold Accessor.write at hstep ⊢
            split at hstep
            · cases hstep
            · rename_i hnull
              rw [if_neg hnull]
          have hok : (b.append (a.value o)).outcome = .ok () := by
            rw [happ] at hstep
            exact Outcome.mapCause_ok hstep
          rw [writeAll_of_ok hstep] at h ⊢
          have ih := appendAll_of_writeAll h
          rw [happ] at ih ⊢
          rw [List.map_cons, Builder.appendAll_of_ok hok]
          exact ih

end GroupBinding

/-- **An answer of a serializer** is the tuple of a builder that took both rows. -/
theorem Serializer.of_serialize {s : Serializer} {k v : Object} {t : EncodedTuple}
    (h : s.serialize k (some v) = .ok t) :
    ∃ size keyDeclared valueDeclared b,
      Builder.new s.schema size keyDeclared valueDeclared = .ok b ∧
      (b.appendAll (s.key.row k ++ s.value.row v)).outcome = .ok () ∧
      (b.appendAll (s.key.row k ++ s.value.row v)).builder.build = .ok t := by
  unfold serialize at h
  split at h
  · cases h
  · obtain ⟨⟨keyStatistic, valueStatistic⟩, _, h⟩ := Outcome.bind_ok h
    obtain ⟨size, _, h⟩ := Outcome.bind_ok h
    obtain ⟨b, hnew, h⟩ := Outcome.bind_ok h
    obtain ⟨_, hkey, h⟩ := Outcome.bind_ok h
    obtain ⟨_, hvalue, h⟩ := Outcome.bind_ok h
    have hks := GroupBinding.appendAll_of_writeAll hkey
    have hvs := GroupBinding.appendAll_of_writeAll hvalue
    have hall : b.appendAll (s.key.row k ++ s.value.row v) =
        ⟨(s.value.write v (s.key.write k b).builder).builder, .ok ()⟩ :=
      (Builder.appendAll_append hks).trans hvs
    refine ⟨size, keyStatistic.nonNull, valueStatistic.nonNull, b, Outcome.mapCause_ok hnew, ?_, ?_⟩
    · rw [hall]
    · rw [hall]
      exact Outcome.mapError_ok (Outcome.ofExcept_ok h)

/-! ## 3. Reading -/

namespace Accessor

variable {g : Columns} {part : List Value} {p : Nat}

theorem readValue_eq (hi : a.index = index) (ha : a.mode.accepts c.type = true)
    (h : t.At index g part p c v) : a.readValue t = .ok v := by
  simp [readValue_eq_valueAs, hi, h.valueAs (Mode.sameKind_of_accepts ha)]

/-- A column's value is read as a value of the accessor's mode. -/
theorem readAs_eq (hi : a.index = index) (ha : a.mode.accepts c.type = true)
    (hv : a.mode.holds v = true) (h : t.At index g part p c v) : a.readAs t a.mode = .ok v := by
  have hread := readValue_eq hi ha h
  have hconvert : a.mode.convert v = .ok v := if_pos hv
  cases hm : a.mode with
  | required kind =>
      rw [hm] at hv
      cases v with
      | number kind' word =>
          have hk : kind = kind' := of_decide_eq_true hv
          subst hk
          simp [readAs, hi, h.number]
      | _ => cases hv
  | _ =>
      rw [hm] at hconvert
      simp [readAs, hread, hconvert]

/-- Reading a field sets it to the column's value. -/
theorem Ties.read (ha : a.Ties fields c index slot) (hv : a.mode.holds v = true)
    (h : t.At index g part p c v) (o : Object) : a.read o t = .ok (o.set slot v) := by
  simp [Accessor.read, ha.target_eq, readAs_eq ha.index_eq ha.accepts hv h]

theorem TiesWhole.read (ha : a.TiesWhole mode c index) (hv : a.mode.holds v = true)
    (h : t.At index g part p c v) : a.readWhole t = .ok (.whole v) := by
  have hm := ha.mode_eq
  have hconvert : mode.convert v = .ok v := if_pos (by rwa [hm] at hv)
  simp [readWhole, ha.target_eq, readValue_eq ha.index_eq (hm ▸ ha.accepts) h, hconvert]

end Accessor

/-- A view has a row in some columns, the first of which has the index `offset`. -/
def View.HasRow (t : View) (offset : Nat) (columns : List Column) (row : List Value) : Prop :=
  ∀ (p : Nat) (c : Column) (v : Value), columns[p]? = some c → row[p]? = some v →
    ∃ g part q, t.At (offset + p) g part q c v

theorem View.HasRow.tail {offset : Nat} {columns : List Column} {row : List Value}
    (h : t.HasRow offset (c :: columns) (v :: row)) : t.HasRow (offset + 1) columns row := by
  intro p d w hd hw
  rw [Nat.add_assoc, Nat.add_comm 1 p]
  exact h (p + 1) d w hd hw

namespace Shape

/-- The slots that columns are bound to. -/
def slots (fields : List Field) (columns : List Column) : List Nat :=
  columns.filterMap fun c => slot? fields c.name

/-- **What reading gives back**: the whole value, or a record whose fields are as they were where a
    column is bound to them, and as in a fresh record elsewhere. -/
def restored (shape : Shape) (columns : List Column) (o : Object) : Object :=
  match shape with
  | scalar _ => o
  | record fields => .record <| fields.mapIdx fun slot f =>
      if slot ∈ slots fields columns then o.get slot else f.initial

/-- Values with some slots taken from an object. -/
def fill (o : Object) (values : List Value) (slots : List Nat) : List Value :=
  slots.foldl (fun values slot => values.set slot (o.get slot)) values

theorem getElem?_fill : ∀ (slots : List Nat) (values : List Value) (i : Nat),
    (fill o values slots)[i]? =
      if i ∈ slots then values[i]?.map fun _ => o.get i else values[i]?
  | [], _, _ => rfl
  | slot :: rest, values, i => by
      have ih := getElem?_fill rest (values.set slot (o.get slot)) i
      unfold fill at ih ⊢
      rw [List.foldl_cons, ih, List.getElem?_set]
      by_cases hi : slot = i
      · subst hi
        by_cases hlt : slot < values.length
        · rw [if_pos rfl, if_pos hlt, if_pos List.mem_cons_self, List.getElem?_eq_getElem hlt]
          split <;> rfl
        · rw [if_pos rfl, if_neg hlt, if_pos List.mem_cons_self,
            List.getElem?_eq_none (Nat.not_lt.mp hlt)]
          split <;> rfl
      · have hmem : i ∈ slot :: rest ↔ i ∈ rest := by
          rw [List.mem_cons]
          exact ⟨fun h => h.resolve_left fun he => hi he.symm, Or.inr⟩
        rw [if_neg hi]
        simp only [hmem]

theorem fill_fresh (fields : List Field) (columns : List Column) (o : Object) :
    Object.record (fill o (fields.map (·.initial)) (slots fields columns)) =
      (record fields).restored columns o := by
  unfold restored
  dsimp only
  congr 1
  apply List.ext_getElem?
  intro i
  rw [getElem?_fill, List.getElem?_map, List.getElem?_mapIdx]
  cases fields[i]? with
  | none => split <;> rfl
  | some f => split <;> rfl

end Shape

namespace GroupBinding

/-- Reading columns in order fills their slots. -/
theorem readAll_eq {offset : Nat} {columns : List Column} {accessors : List Accessor}
    (ho : (Shape.record fields).holds o = true)
    (ha : Accessor.TieAll fields offset columns accessors) :
    t.HasRow offset columns (accessors.map fun a => a.value o) → ∀ values : List Value,
      readAll t accessors (.record values) =
        .ok (.record (Shape.fill o values (Shape.slots fields columns))) := by
  induction ha with
  | nil => exact fun _ _ => rfl
  | @cons offset slot c rest a more head tail ih =>
      intro hrow values
      obtain ⟨hvalue, hholds⟩ := head.holds_value ho
      obtain ⟨g, part, p, hat⟩ := hrow 0 c (a.value o) rfl rfl
      rw [Nat.add_zero, hvalue] at hat
      have hread := head.read hholds hat (.record values)
      have hslots : Shape.slots fields (c :: rest) = slot :: Shape.slots fields rest :=
        List.filterMap_cons_some head.slot_eq
      unfold readAll
      rw [hread, hslots, Outcome.ok_bind]
      exact ih hrow.tail (values.set slot (o.get slot))

variable {columns : List Column} {offset : Nat} {g : GroupBinding} {shape : Shape}

theorem length_row (h : g.Ties columns offset shape) (o : Object) :
    (g.row o).length = columns.length := by
  cases h with
  | whole hc ha =>
      rw [hc]
      rfl
  | record ha =>
      rw [row, List.length_map]
      exact ha.length_eq

/-- **A group is read back**: the object with the fields that no column is bound to as in a fresh
    one. -/
theorem read_eq (h : g.Ties columns offset shape) (ho : shape.holds o = true)
    (hrow : t.HasRow offset columns (g.row o)) : g.read t = .ok (shape.restored columns o) := by
  cases h with
  | @whole a c mode hc ha =>
      obtain ⟨hobject, hholds⟩ := ha.holds_value ho
      obtain ⟨g, part, p, hat⟩ := hrow 0 c (a.value o) (by rw [hc]; rfl) rfl
      rw [Nat.add_zero] at hat
      show a.readWhole t = .ok o
      rw [ha.read hholds hat, ← hobject]
  | @record fields accessors ha =>
      show readAll t accessors (.record (fields.map (·.initial))) = _
      rw [readAll_eq ho ha hrow, Shape.fill_fresh]

end GroupBinding

/-! ## 4. Both sides -/

theorem View.hasRow_key {s : Schema} {ks vs : List Value} (hs : s.Sound) (hf : s.Fits (ks ++ vs))
    (hk : ks.length = s.key.length) : (s.view (ks ++ vs)).HasRow 0 s.key.columns ks := by
  intro p c v hc hv
  have hp := (List.getElem?_eq_some_iff.mp hv).1
  have hrow : (ks ++ vs)[0 + p]? = some v := by
    rw [Nat.zero_add, List.getElem?_append_left hp, hv]
  obtain ⟨g, part, q, d, hat, hd⟩ := at_view hs hf hrow
  have hcol : s.column? (0 + p) = some c := by
    rw [Nat.zero_add, Schema.column?_key (hk ▸ hp)]
    exact hc
  rw [hcol] at hd
  cases hd
  exact ⟨g, part, q, hat⟩

theorem View.hasRow_value {s : Schema} {ks vs : List Value} (hs : s.Sound) (hf : s.Fits (ks ++ vs))
    (hk : ks.length = s.key.length) :
    (s.view (ks ++ vs)).HasRow s.key.length s.value.columns vs := by
  intro p c v hc hv
  have hrow : (ks ++ vs)[s.key.length + p]? = some v := by
    rw [List.getElem?_append_right (by omega), hk, Nat.add_sub_cancel_left, hv]
  obtain ⟨g, part, q, d, hat, hd⟩ := at_view hs hf hrow
  have hcol : s.column? (s.key.length + p) = some c := (Schema.column?_value s p).trans hc
  rw [hcol] at hd
  cases hd
  exact ⟨g, part, q, hat⟩

/-- **Decoding undoes encoding.** Whatever a serializer encodes, both sides are decoded, each column's
    field as it was and every field without a column as in a fresh object. -/
theorem Serializer.decode_serialize {version : UInt32} {keyColumns valueColumns : List Column}
    {schema : Schema} {config : Config} {key value : Shape} {s : Serializer} {k v : Object}
    {t : EncodedTuple} (hdef : Schema.define version keyColumns valueColumns = .ok schema)
    (hkstd : key.IsStandard) (hvstd : value.IsStandard)
    (hnew : Serializer.new schema config key value = .ok s)
    (hk : key.holds k = true) (hv : value.holds v = true) (h : s.serialize k (some v) = .ok t) :
    s.decodeKey t.bytes = .ok (key.restored schema.key.columns k) ∧
    s.decodeValue t.bytes = .ok (value.restored schema.value.columns v) := by
  have hs := Schema.sound_of_define hdef
  have hnames := hs.names
  rw [List.map_append, List.nodup_append] at hnames
  obtain ⟨kg, hkey, hnew⟩ := Outcome.bind_ok hnew
  obtain ⟨vg, hvalue, hnew⟩ := Outcome.bind_ok hnew
  cases hnew
  have hkt := GroupBinding.ties_of_ofShape hkstd hnames.1 hkey
  have hvt := GroupBinding.ties_of_ofShape hvstd hnames.2.1 hvalue
  obtain ⟨size, keyDeclared, valueDeclared, b, hb, happ, hbuild⟩ := Serializer.of_serialize h
  obtain ⟨hf, hbytes⟩ := Builder.fits_of_build hs hb happ hbuild
  have hlen := GroupBinding.length_row hkt k
  have hview : Serializer.view ⟨schema, config, kg, vg⟩ t.bytes =
      .ok (schema.view (kg.row k ++ vg.row v)) := by
    unfold Serializer.view
    rw [hbytes]
    exact congrArg (Outcome.mapCause TupleError.diagnostic) (Schema.new_encode hs hf)
  refine ⟨?_, ?_⟩
  · unfold decodeKey
    rw [hview, Outcome.ok_bind]
    exact GroupBinding.read_eq hkt hk (View.hasRow_key hs hf hlen)
  · unfold decodeValue
    rw [hview, Outcome.ok_bind]
    exact GroupBinding.read_eq hvt hv (View.hasRow_value hs hf hlen)

/-- A number, two texts that may be null, and a float. -/
def scoreSchema : Schema :=
  let key := Columns.ofList [⟨"id", .number .int4, false⟩]
  let value := Columns.ofList
    [⟨"name", .utf8, true⟩, ⟨"note", .utf8, true⟩, ⟨"score", .number .float8, false⟩]
  { version := 1, fingerprint := Fingerprint.ofColumns key value, key, value }

/-- A record of which two fields have no column. -/
def scoreShape : Shape := .record
  [⟨"note", .encoded .utf8, .undefined⟩, ⟨"rank", .encoded (.required .int2), .number .int2 7⟩,
    ⟨"score", .encoded (.required .float8), .number .float8 0⟩, ⟨"name", .encoded .utf8, .undefined⟩,
    ⟨"live", .unsupported "bool", .undefined⟩]

/-- An empty note, no name, and a score that is no number. -/
def scoreRecord : Object := .record
  [.utf8 "", .number .int2 9, .number .float8 0x7ff8000000000001, .undefined, .undefined]

/-- The empty note stays a note, and the rank is that of a fresh record. -/
theorem Serializer.decode_serialize_score : ∃ s t,
    Schema.define 1 [⟨"id", .number .int4, false⟩]
      [⟨"name", .utf8, true⟩, ⟨"note", .utf8, true⟩, ⟨"score", .number .float8, false⟩] =
        .ok scoreSchema ∧
    Serializer.new scoreSchema Config.standard (.ofMode (.nullable .int4)) scoreShape = .ok s ∧
    s.serialize (.whole (.number .int4 42)) (some scoreRecord) = .ok t ∧
    s.decodeKey t.bytes = .ok (.whole (.number .int4 42)) ∧
    s.decodeValue t.bytes = .ok (.record
      [.utf8 "", .number .int2 7, .number .float8 0x7ff8000000000001, .undefined, .undefined]) := by
  have hdef : Schema.define 1 [⟨"id", .number .int4, false⟩]
      [⟨"name", .utf8, true⟩, ⟨"note", .utf8, true⟩, ⟨"score", .number .float8, false⟩] =
        .ok scoreSchema := rfl
  have hkstd : (Shape.ofMode (.nullable .int4)).IsStandard := rfl
  have hvstd : scoreShape.IsStandard := trivial
  have hnew : Serializer.new scoreSchema Config.standard (.ofMode (.nullable .int4)) scoreShape =
      .ok _ := rfl
  have hk : (Shape.ofMode (.nullable .int4)).holds (.whole (.number .int4 42)) = true := rfl
  have hv : scoreShape.holds scoreRecord = true := rfl
  exact ⟨_, _, hdef, hnew, rfl, decode_serialize hdef hkstd hvstd hnew hk hv rfl⟩

end RowCodec
