import RowCodec.Proofs.Binding.Writing

/-!
# Rows without a key or a value

A null cannot be a key, and it cannot be a value. Three checks say so at three moments: a null key is found
before anything else, a value that is not given next, and a value that is one whole null only when it is about
to be written, behind the key.

* `Shape.missing` -- an object of one whole value that is null; that is what a bound group asks
  (`Bound.isNull_eq`), and what it then cannot write (`Bound.write_null`).
* `Serializer.KeyWritten` -- the columns of the key were written without a fault; `Measures.keyWritten_iff`
  says that this is up to the key's values.
* `Serializer.serialize_panics_iff` -- **serializing panics for a null and for nothing else**, and which of the
  checks it is.
-/

namespace RowCodec

variable {shape : Shape} {columns : List Column} {offset : Nat} {redact : Bool} {o : Object}

/-- The call is aborted with a text. -/
def Outcome.PanicsWith {ε α : Type} (x : Outcome ε α) (text : String) : Prop :=
  ∃ cause, x = Outcome.abort cause ∧ cause.message = some text

theorem Outcome.PanicsWith.eq_abort {ε α : Type} {x : Outcome ε α} {text : String} {cause : Panic}
    (h : x.PanicsWith text) (hx : x = Outcome.abort cause) : cause.message = some text := by
  obtain ⟨own, hown, htext⟩ := h
  cases hx.symm.trans hown
  exact htext

theorem Outcome.PanicsWith.panics_eq {ε α : Type} {x : Outcome ε α} {text : String}
    (h : x.PanicsWith text) : x.panics = true := by
  obtain ⟨cause, rfl, _⟩ := h
  rfl

/-! ## 1. Whole nulls -/

/-- Whether an object of the shape is one whole value that is null. A record is none. -/
def Shape.missing : Shape → Object → Bool
  | scalar _, o => (o.get 0).isUndefined
  | record _, _ => false

namespace GroupBinding

variable {g : GroupBinding}

theorem Bound.isNull_eq (h : g.Bound shape columns offset redact) (o : Object) :
    g.isNull o = shape.missing o := by
  cases h.ties with
  | @whole a c mode hc ha =>
      show (a.value o).isUndefined = (o.get 0).isUndefined
      unfold Accessor.value
      rw [ha.target_eq]
  | record ha => rfl

/-- A whole null is not written: its accessor panics. -/
theorem Bound.write_null (h : g.Bound shape columns offset redact) (hn : g.isNull o = true)
    (b : Builder) : g.write o b = ⟨b, Outcome.abort .nullValue⟩ := by
  cases h.ties with
  | @whole a c mode hc ha =>
      have hwhole : a.isWhole = true := by
        unfold Accessor.isWhole
        rw [ha.target_eq]
      have hnull : (a.value o).isUndefined = true := hn
      have hstep : a.write o b = ⟨b, Outcome.abort .nullValue⟩ := by
        unfold Accessor.write
        rw [if_pos (by rw [hwhole, hnull]; rfl)]
      show writeAll o [a] b = _
      rw [writeAll_of_error (by rw [hstep]; rfl), hstep]
      rfl
  | record ha => cases hn

end GroupBinding

/-! ## 2. The key before the value -/

namespace Serializer

variable {s : Serializer} {key value : Shape} {k v : Object} {b b' : Builder}

/-- Every column of the key was written without a fault, into the builder that was reserved for the row. -/
def KeyWritten (s : Serializer) (k v : Object) : Prop :=
  ∃ b, s.Reserves k v b ∧ (s.key.write k b).outcome = .ok ()

theorem Reserves.unique (h : s.Reserves k v b) (h' : s.Reserves k v b') : b = b' := by
  obtain ⟨_, _, _, hstat, hsize, hnew⟩ := h
  obtain ⟨_, _, _, hstat', hsize', hnew'⟩ := h'
  cases hstat.symm.trans hstat'
  cases hsize.symm.trans hsize'
  exact Except.ok.inj (hnew.symm.trans hnew')

theorem Reserves.keyWritten_iff (h : s.Reserves k v b) :
    s.KeyWritten k v ↔ (s.key.write k b).outcome = .ok () := by
  refine ⟨?_, fun hok => ⟨b, h, hok⟩⟩
  rintro ⟨own, hown, hok⟩
  rw [h.unique hown]
  exact hok

/-- **The key is written**, or one of its columns refuses its value. -/
theorem Measures.key_ends (h : s.Measures key value redact k v)
    (hmade : Builder.MadeFor s.schema (s.schema.rowOf key value k v) b []) :
    (s.schema.TakesBelow (s.schema.rowOf key value k v) s.schema.key.length ∧
      ∃ b', s.key.write k b = ⟨b', .ok ()⟩) ∨
    (¬ s.schema.TakesBelow (s.schema.rowOf key value k v) s.schema.key.length ∧
      ∃ d, (s.key.write k b).outcome = Outcome.refuse d) := by
  rcases Schema.takesBelow_or_refuses h.suits h.bounded.length_eq s.schema.key.length
    (Nat.le_add_right _ _) with htakes | ⟨i, c, w, e, hi, hc, hw, htakes, hr⟩
  · obtain ⟨b', _, hkey⟩ := h.write_key hmade (Nat.le_refl _) htakes
    exact Or.inl ⟨htakes, b', hkey⟩
  · refine Or.inr ⟨fun hall => ?_, _, h.key_refused hmade hi hc hw htakes hr⟩
    have hadmits := hall i c w hi hc hw
    rw [hr.not_admits] at hadmits
    cases hadmits

/-- Whether the key is written is up to its values: nulls stand in nullable columns and bit sets are within
    their masks. -/
theorem Measures.keyWritten_iff (h : s.Measures key value redact k v) :
    s.KeyWritten k v ↔ ∀ (p : Nat) (c : Column) (w : Value), s.schema.key.columns[p]? = some c →
      (key.row s.schema.key.columns k)[p]? = some w → c.Takes w := by
  have hklen : (key.row s.schema.key.columns k).length = s.schema.key.length := Shape.length_row _ _ _
  have hrow : ∀ {p : Nat}, p < s.schema.key.length →
      (s.schema.rowOf key value k v)[p]? = (key.row s.schema.key.columns k)[p]? := by
    intro p hp
    exact List.getElem?_append_left (hklen.symm ▸ hp)
  have htakes : s.schema.TakesBelow (s.schema.rowOf key value k v) s.schema.key.length ↔
      ∀ (p : Nat) (c : Column) (w : Value), s.schema.key.columns[p]? = some c →
        (key.row s.schema.key.columns k)[p]? = some w → c.Takes w := by
    rw [h.suits.takesBelow_iff]
    constructor
    · intro hall p c w hc hw
      have hp : p < s.schema.key.length := (List.getElem?_eq_some_iff.mp hc).1
      exact hall p c w hp ((Schema.column?_key hp).trans hc) ((hrow hp).trans hw)
    · intro hall p c w hp hc hw
      exact hall p c w ((Schema.column?_key hp).symm.trans hc) ((hrow hp).symm.trans hw)
  obtain ⟨b, hreserved, hmade⟩ := h.reserves
  rw [hreserved.keyWritten_iff, ← htakes]
  rcases h.key_ends hmade with ⟨hall, b', hkey⟩ | ⟨hnot, d, hkey⟩
  · exact iff_of_true (by rw [hkey]) hall
  · refine iff_of_false (fun hok => ?_) hnot
    cases hkey.symm.trans hok

/-! ## 3. Which check fails -/

theorem serialize_of_null_key (hn : s.key.isNull k = true) (o : Option Object) :
    s.serialize k o = Outcome.abort .nullKey :=
  if_pos hn

theorem serialize_of_none (hn : s.key.isNull k = false) :
    s.serialize k none = Outcome.abort .nullValue := by
  unfold serialize
  rw [if_neg (by rw [hn]; exact Bool.false_ne_true)]

/-- **A value that is one whole null** is found when the key was written; what stops the key is reported
    before. -/
theorem Measures.serialize_of_null_value (h : s.Measures key value redact k v)
    (hvalue : s.value.Bound value s.schema.value.columns s.schema.key.length redact)
    (hnk : s.key.isNull k = false) (hnv : s.value.isNull v = true) :
    (s.KeyWritten k v ∧ s.serialize k (some v) = Outcome.abort .nullValue) ∨
    (¬ s.KeyWritten k v ∧ ∃ d, s.serialize k (some v) = Outcome.refuse d) := by
  obtain ⟨b, hreserved, hmade⟩ := h.reserves
  rw [hreserved.keyWritten_iff, hreserved.serialize_eq hnk]
  rcases h.key_ends hmade with ⟨_, b', hkey⟩ | ⟨_, d, hkey⟩
  · refine Or.inl ⟨by rw [hkey], ?_⟩
    rw [hkey, Outcome.ok_bind, hvalue.write_null hnv]
    rfl
  · refine Or.inr ⟨fun hok => ?_, d, ?_⟩
    · cases hkey.symm.trans hok
    · rw [hkey, Outcome.refuse_bind]

/-- No value can be written: none is given, or the one that is given is one whole null, and its turn comes. -/
def LacksValue (s : Serializer) (value : Shape) (k : Object) (o : Option Object) : Prop :=
  o = none ∨ ∃ v, o = some v ∧ value.missing v = true ∧ s.KeyWritten k v

/-- **How the checks for nulls end**: with one of two panics, each for its own reason, or without a panic. -/
inductive Checked (s : Serializer) (key value : Shape) (k : Object) (o : Option Object) :
    Outcome Diagnostic EncodedTuple → Prop
  | nullKey (hk : key.missing k = true) : Checked s key value k o (Outcome.abort .nullKey)
  | nullValue (hk : key.missing k = false) (ho : s.LacksValue value k o) :
      Checked s key value k o (Outcome.abort .nullValue)
  | passed {result : Outcome Diagnostic EncodedTuple} (hk : key.missing k = false)
      (ho : ¬ s.LacksValue value k o) (hr : result.panics = false) : Checked s key value k o result

namespace Checked

variable {o : Option Object} {result : Outcome Diagnostic EncodedTuple}

theorem null_key_iff (h : s.Checked key value k o result) :
    result.PanicsWith "null keys are not supported" ↔ key.missing k = true := by
  cases h with
  | nullKey hk => exact iff_of_true ⟨_, rfl, rfl⟩ hk
  | nullValue hk ho =>
      rw [hk]
      exact iff_of_false (fun h => absurd (h.eq_abort rfl) (by decide)) Bool.false_ne_true
  | passed hk ho hr =>
      rw [hk]
      refine iff_of_false (fun h => ?_) Bool.false_ne_true
      rw [h.panics_eq] at hr
      cases hr

theorem null_value_iff (h : s.Checked key value k o result) (hn : key.missing k = false) :
    result.PanicsWith "null values are not supported" ↔ s.LacksValue value k o := by
  cases h with
  | nullKey hk => cases hn.symm.trans hk
  | nullValue hk ho => exact iff_of_true ⟨_, rfl, rfl⟩ ho
  | passed hk ho hr =>
      refine iff_of_false (fun h => ?_) ho
      rw [h.panics_eq] at hr
      cases hr

/-- There is no third panic. -/
theorem panics (h : s.Checked key value k o result) (hp : result.panics = true) :
    result.PanicsWith "null keys are not supported" ∨
      result.PanicsWith "null values are not supported" := by
  cases h with
  | nullKey hk => exact Or.inl ⟨_, rfl, rfl⟩
  | nullValue hk ho => exact Or.inr ⟨_, rfl, rfl⟩
  | passed hk ho hr => cases hp.symm.trans hr

end Checked

/-- A row that was written or reported did not panic. -/
theorem panics_of_ends {schema : Schema} {row : List Value} {result : Outcome Diagnostic EncodedTuple}
    (h : schema.Ends row redact result) : result.panics = false := by
  cases result with
  | ok t => rfl
  | error fault =>
      obtain ⟨_, _, _, _, _, _, hr, _⟩ := h.refused fun t ht => by cases ht
      rw [hr]
      rfl

/-- **The checks of a bound serializer.** -/
theorem checked_of_bound {o : Option Object}
    (hkey : s.key.Bound key s.schema.key.columns 0 redact)
    (hvalue : s.value.Bound value s.schema.value.columns s.schema.key.length redact)
    (ho : ∀ v, o = some v → value.holds v = true)
    (hm : key.missing k = false → ∀ v, o = some v → s.Measures key value redact k v) :
    s.Checked key value k o (s.serialize k o) := by
  cases hk : key.missing k with
  | true =>
      rw [serialize_of_null_key ((hkey.isNull_eq k).trans hk)]
      exact .nullKey hk
  | false =>
      have hnk := (hkey.isNull_eq k).trans hk
      cases o with
      | none =>
          rw [serialize_of_none hnk]
          exact .nullValue hk (Or.inl rfl)
      | some v =>
          have hmeasures := hm hk v rfl
          -- The value that is given is the only one that could be lacking.
          have hlacks : s.LacksValue value k (some v) → value.missing v = true ∧ s.KeyWritten k v := by
            rintro (hnone | ⟨w, hw, hmissing, hwritten⟩)
            · cases hnone
            · cases hw
              exact ⟨hmissing, hwritten⟩
          cases hv : value.missing v with
          | true =>
              have hnv := (hvalue.isNull_eq v).trans hv
              rcases hmeasures.serialize_of_null_value hvalue hnk hnv with ⟨hwritten, hs⟩ | ⟨hnot, d, hs⟩
              · rw [hs]
                exact .nullValue hk (Or.inr ⟨v, rfl, hv, hwritten⟩)
              · rw [hs]
                exact .passed hk (fun h => hnot (hlacks h).2) rfl
          | false =>
              have hnv := (hvalue.isNull_eq v).trans hv
              have hends := hmeasures.ends hnk (hvalue.writes (ho v rfl) hnv)
              refine .passed hk (fun h => ?_) (panics_of_ends hends)
              cases hv.symm.trans (hlacks h).1

/-- The statistics of objects of the types are a pair of words. -/
theorem exists_statistics {o : Option Object} (hs : s.schema.Sound)
    (hkey : s.key.Gives key s.schema.key.columns k)
    (hvalue : ∀ v, o = some v → s.value.Gives value s.schema.value.columns v)
    (hkmax : s.schema.key.chunkBytes (rowStatistic (key.row s.schema.key.columns k)) ≤ maxChunkOffset)
    (hvmax : ∀ v, o = some v →
      s.schema.value.chunkBytes (rowStatistic (value.row s.schema.value.columns v)) ≤ maxChunkOffset) :
    ∃ statistics, s.statistics k o = .ok statistics := by
  unfold statistics
  rw [hkey.statistic_eq hs.key hkmax, Outcome.ok_bind]
  cases o with
  | none => exact ⟨_, rfl⟩
  | some v =>
      dsimp only
      rw [(hvalue v rfl).statistic_eq hs.value (hvmax v rfl)]
      exact ⟨_, rfl⟩

/-- **Serializing panics for a null and for nothing else.** For every key of the key's type and every value of
    the value's or none, in chunks whose lengths can be said:

    * it panics for a null key exactly when the key is one whole null;
    * with another key, it panics for a null value exactly when there is no value, or the value is one whole
      null and the columns of the key were written without a fault. That is when nulls in the key stand in
      nullable columns and its bit sets are within their masks;
    * there is no other panic.

    The texts and byte strings of any object of the type are counted: no column from the first of variable
    length on holds anything else but nulls, and each has its accessor. -/
theorem serialize_panics_iff {version : UInt32} {keyColumns valueColumns : List Column}
    {schema : Schema} {config : Config}
    (hdef : Schema.define version keyColumns valueColumns = .ok schema)
    (hkstd : key.IsStandard) (hvstd : value.IsStandard)
    (hnew : Serializer.new schema config key value = .ok s) {o : Option Object}
    (hk : key.holds k = true) (ho : ∀ v, o = some v → value.holds v = true)
    (hkmax : schema.key.chunkBytes (rowStatistic (key.row schema.key.columns k)) ≤ maxChunkOffset)
    (hvmax : ∀ v, o = some v →
      schema.value.chunkBytes (rowStatistic (value.row schema.value.columns v)) ≤ maxChunkOffset) :
    ((s.serialize k o).PanicsWith "null keys are not supported" ↔ key.missing k = true) ∧
    (key.missing k = false → ((s.serialize k o).PanicsWith "null values are not supported" ↔
      o = none ∨ ∃ v, o = some v ∧ value.missing v = true ∧ s.KeyWritten k v)) ∧
    ((s.serialize k o).panics = true → (s.serialize k o).PanicsWith "null keys are not supported" ∨
      (s.serialize k o).PanicsWith "null values are not supported") ∧
    (key.missing k = false → ∀ v, o = some v → (s.KeyWritten k v ↔
      ∀ (p : Nat) (c : Column) (w : Value), schema.key.columns[p]? = some c →
        (key.row schema.key.columns k)[p]? = some w → c.Takes w)) ∧
    (∃ statistics, s.statistics k o = .ok statistics) ∧
    (∀ k', key.holds k' = true → s.key.recordValues (ε := Diagnostic) k'
      (schema.key.varlenBefore schema.key.length) .empty =
        .ok (rowStatistic (key.row schema.key.columns k'))) ∧
    ∀ v', value.holds v' = true → s.value.recordValues (ε := Diagnostic) v'
      (schema.value.varlenBefore schema.value.length) .empty =
        .ok (rowStatistic (value.row schema.value.columns v')) := by
  have hs := Schema.sound_of_define hdef
  obtain ⟨rfl, hkey, hvalue⟩ := bound_of_new hs hkstd hvstd hnew
  have hmeasures : key.missing k = false → ∀ v, o = some v →
      s.Measures key value config.redactSensitive k v := by
    intro hnk v hv
    rw [← hkey.isNull_eq] at hnk
    exact ⟨hs, hkey.writes hk hnk, hvalue.gives (ho v hv),
      .append ⟨Shape.length_row _ _ _, hkmax⟩ ⟨Shape.length_row _ _ _, hvmax v hv⟩⟩
  have hchecked := checked_of_bound hkey hvalue ho hmeasures
  exact ⟨hchecked.null_key_iff, hchecked.null_value_iff, hchecked.panics,
    fun hnk v hv => (hmeasures hnk v hv).keyWritten_iff,
    exists_statistics hs (hkey.gives hk) (fun v hv => hvalue.gives (ho v hv)) hkmax hvmax,
    fun k' hk' => (hkey.gives hk').recordValues_eq hs.key,
    fun v' hv' => (hvalue.gives hv').recordValues_eq hs.value⟩

/-- One number for the key, one text that may be missing for the value. -/
def noteSchema : Schema :=
  { version := 1
    fingerprint := Fingerprint.ofColumns (Columns.ofList [⟨"id", .number .int4, false⟩])
      (Columns.ofList [⟨"note", .utf8, true⟩])
    key := Columns.ofList [⟨"id", .number .int4, false⟩]
    value := Columns.ofList [⟨"note", .utf8, true⟩] }

/-- The key is written, and the value turns out to be a null. -/
theorem serialize_panics_iff_note : ∃ s,
    Schema.define 1 [⟨"id", .number .int4, false⟩] [⟨"note", .utf8, true⟩] = .ok noteSchema ∧
    (Shape.ofMode (.nullable .int4)).IsStandard ∧ (Shape.ofMode .utf8).IsStandard ∧
    Serializer.new noteSchema Config.standard (.ofMode (.nullable .int4)) (.ofMode .utf8) = .ok s ∧
    (Shape.ofMode (.nullable .int4)).holds (.whole (.number .int4 42)) = true ∧
    (Shape.ofMode .utf8).holds (.whole .undefined) = true ∧
    (s.serialize (.whole (.number .int4 42)) (some (.whole .undefined))).PanicsWith
      "null values are not supported" := by
  have hdef : Schema.define 1 [⟨"id", .number .int4, false⟩] [⟨"note", .utf8, true⟩] =
    .ok noteSchema := rfl
  have hkstd : (Shape.ofMode (.nullable .int4)).IsStandard := rfl
  have hvstd : (Shape.ofMode .utf8).IsStandard := rfl
  have hnew : Serializer.new noteSchema Config.standard (.ofMode (.nullable .int4)) (.ofMode .utf8) =
    .ok _ := rfl
  have hk : (Shape.ofMode (.nullable .int4)).holds (.whole (.number .int4 42)) = true := rfl
  have hv : (Shape.ofMode .utf8).holds (.whole .undefined) = true := rfl
  obtain ⟨_, hvalue, _, hwritten, _⟩ := serialize_panics_iff hdef hkstd hvstd hnew
    (o := some (.whole .undefined)) hk (fun v h => Option.some.inj h ▸ hv) (by decide)
    (fun v h => Option.some.inj h ▸ by decide)
  refine ⟨_, hdef, hkstd, hvstd, hnew, hk, hv, (hvalue rfl).mpr (Or.inr ⟨_, rfl, rfl, ?_⟩)⟩
  refine (hwritten rfl _ rfl).mpr fun p c w hc hw => ?_
  cases p with
  | zero =>
      cases hc
      cases hw
      exact (Column.takes_iff rfl).mpr rfl
  | succ p => cases hc

end Serializer

end RowCodec
