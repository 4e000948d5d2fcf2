import RowCodec.Proofs.Binding.RoundTrip
import RowCodec.Proofs.Tuple.Decoded

/-!
# Decoding any bytes

What the two sides of a serializer make of bytes that nobody vouches for. Three tables say how a column
is read: the reader's by the column's type, the accessor's by its mode, and the typed getters of numbers
that are always there. They agree on every accepted tuple.

* `View.Blocked` -- why a column does not give its field a value.
* `Ties.read_ends`, `TiesWhole.read_ends` -- a column is read as `View.value` reads it, or is blocked.
* `View.Decodes` -- what a side is decoded to; `Bound.decodes` says so of every bound group.
* `Serializer.decode_agrees` -- **both sides of any bytes**, and `Schema.reading_panics_eq` -- nothing
  that is read from bytes panics.
-/

namespace RowCodec

variable {t : View} {index p q slot : Nat} {chunk : ChunkBytes} {c : Column} {v : Value} {a : Accessor}
  {mode : Mode} {e : TupleError} {fields : List Field}

/-! ## 1. One column -/

namespace TupleError

/-- The codes of damaged bytes. -/
theorem OfBytes.code_mem {e : TupleError} (h : e.OfBytes) :
    e.code ∈ ["TUPLE_012", "TUPLE_013", "TUPLE_014", "TUPLE_015"] := by
  cases e with
  | fingerprintMismatch expected actual => simp [code]
  | truncated required length => simp [code]
  | corrupted corruption => simp [code]
  | invalidUtf8 index => simp [code]
  | _ => cases h

end TupleError

/-- **Why a column does not give its field a value**: it cannot be read, or it is null and the field is
    a number that is always there. -/
inductive View.Blocked (t : View) (required : Bool) (index : Nat) : TupleError → Prop
  | refused {e : TupleError} (h : t.value index = Outcome.refuse e) : Blocked t required index e
  | null (hr : required = true) (h : t.value index = .ok .undefined) :
      Blocked t required index (.nullValue index)

/-- A column gives its field a value. -/
def View.Gives (t : View) (required : Bool) (index : Nat) (v : Value) : Prop :=
  t.value index = .ok v ∧ (required = true → v ≠ .undefined)

/-- A column of an accepted tuple gives a value or is blocked. -/
theorem View.Leads.gives_or_blocked (h : t.Leads index chunk p c) (required : Bool) :
    (∃ v, t.Gives required index v) ∨ ∃ e, t.Blocked required index e := by
  rcases h.value_ensures.ends with ⟨v, hv, _⟩ | ⟨e, he, _⟩
  · by_cases hnull : required = true ∧ v = .undefined
    · rw [hnull.2] at hv
      exact Or.inr ⟨_, .null hnull.1 hv⟩
    · exact Or.inl ⟨v, hv, fun hr hu => hnull ⟨hr, hu⟩⟩
  · exact Or.inr ⟨e, .refused he⟩

theorem View.Blocked.not_gives {required : Bool} (h : t.Blocked required index e) :
    ¬ t.Gives required index v := by
  rintro ⟨hv, hn⟩
  cases h with
  | refused he => cases he.symm.trans hv
  | null hr hu =>
      cases hu.symm.trans hv
      exact hn hr rfl

/-- A column is read alike as any type of its kind: the width of a bit mask does not matter. -/
theorem View.valueAs_of_sameKind {type requested : ColumnType}
    (hk : type.sameKind requested = true) : t.valueAs requested index = t.valueAs type index := by
  rcases ColumnType.sameKind_iff.mp hk with rfl | ⟨m, n, rfl, rfl⟩
  · rfl
  · rfl

namespace Accessor

theorem readValue_of_leads (hl : t.Leads a.index chunk p c) (ha : a.mode.accepts c.type = true) :
    a.readValue t = (t.value a.index).mapCause TupleError.diagnostic := by
  rw [readValue_eq_valueAs, View.valueAs_of_sameKind (Mode.sameKind_of_accepts ha), hl.value_eq]

/-- Types that can be missing are read as a value and converted. -/
theorem readAs_of_nullable (hm : mode.isPrimitive = false) : a.readAs t mode = (do
    let v ← a.readValue t
    Outcome.ofExcept ((mode.convert v).mapError ValueMismatch.diagnostic)) := by
  cases mode with
  | required kind => cases hm
  | _ => rfl

/-- What a column gives a type is a value of the type. -/
theorem holds_of_leads (hl : t.Leads a.index chunk p c) (ha : a.mode.accepts c.type = true)
    (hv : t.Gives a.mode.isPrimitive a.index v) : a.mode.holds v = true :=
  (Mode.holds_iff_suits ha).mpr ⟨(hl.holds hv.1).suits, hv.2⟩

theorem convert_of_leads (hl : t.Leads a.index chunk p c) (ha : a.mode.accepts c.type = true)
    (hv : t.Gives a.mode.isPrimitive a.index v) : a.mode.convert v = .ok v :=
  if_pos (holds_of_leads hl ha hv)

theorem readAs_required {kind : NumberKind} (hl : t.Leads a.index chunk p c)
    (ht : c.type = .number kind) :
    (∀ v, t.Gives true a.index v → a.readAs t (.required kind) = .ok v) ∧
    (∀ e, t.Blocked true a.index e →
      a.readAs t (.required kind) = Outcome.refuse e.diagnostic) := by
  have hvalue := hl.value_number ht
  have hnumber := hl.number?_eq ht
  cases hm : chunk.marked p with
  | false =>
      rw [hm] at hvalue hnumber
      refine ⟨fun v hv => ?_, fun e he => ?_⟩
      · cases hvalue.symm.trans hv.1
        exact absurd rfl (hv.2 rfl)
      · cases he with
        | refused h => cases hvalue.symm.trans h
        | null hr h => simp [readAs, View.number, hnumber]
  | true =>
      rw [hm] at hvalue hnumber
      refine ⟨fun v hv => ?_, fun e he => ?_⟩
      · cases hvalue.symm.trans hv.1
        simp [readAs, View.number, hnumber]
      · cases he with
        | refused h => cases hvalue.symm.trans h
        | null hr h => cases hvalue.symm.trans h

/-- **A column is read as `View.value` reads it**, or is blocked. -/
theorem readAs_ends (hl : t.Leads a.index chunk p c) (ha : a.mode.accepts c.type = true) :
    (∀ v, t.Gives a.mode.isPrimitive a.index v → a.readAs t a.mode = .ok v) ∧
    (∀ e, t.Blocked a.mode.isPrimitive a.index e →
      a.readAs t a.mode = Outcome.refuse e.diagnostic) := by
  cases hp : a.mode.isPrimitive with
  | true =>
      cases hm : a.mode with
      | required kind =>
          rw [hm] at ha
          exact readAs_required hl (of_decide_eq_true ha)
      | _ =>
          rw [hm] at hp
          cases hp
  | false =>
      refine ⟨fun v hv => ?_, fun e he => ?_⟩
      · have hconvert := convert_of_leads hl ha (by rw [hp]; exact hv)
        rw [readAs_of_nullable hp, readValue_of_leads hl ha, hv.1]
        simp [hconvert]
      · cases he with
        | refused h =>
            rw [readAs_of_nullable hp, readValue_of_leads hl ha, h]
            simp
        | null hr h => cases hr

/-- A bound field is set to what its column gives; a blocked column is reported. -/
theorem Ties.read_ends {redact : Bool} (ha : a.Ties fields c index slot) (hr : a.Reports c redact)
    (hl : t.Leads index chunk p c) (o : Object) :
    (∀ v, t.Gives a.mode.isPrimitive index v → a.read o t = .ok (o.set slot v)) ∧
    (∀ e, t.Blocked a.mode.isPrimitive index e →
      a.read o t = Outcome.refuse (c.failure index redact .read e.diagnostic)) := by
  have hi := ha.index_eq
  subst hi
  obtain ⟨hgives, hblocked⟩ := readAs_ends hl ha.accepts
  refine ⟨fun v hv => ?_, fun e he => ?_⟩
  · simp [Accessor.read, ha.target_eq, hgives v hv]
  · simp [Accessor.read, ha.target_eq, hblocked e he, hr.failure_eq rfl]

/-- A whole object is what its column gives; a blocked column is reported. -/
theorem TiesWhole.read_ends {redact : Bool} (ha : a.TiesWhole mode c index) (hr : a.Reports c redact)
    (hp : a.mode.isPrimitive = false) (hl : t.Leads index chunk p c) :
    (∀ v, t.Gives false index v → a.readWhole t = .ok (.whole v)) ∧
    (∀ e, t.Blocked false index e →
      a.readWhole t = Outcome.refuse (c.failure index redact .read e.diagnostic)) := by
  have hi := ha.index_eq
  have hm := ha.mode_eq
  subst hi hm
  have hread := readValue_of_leads hl ha.accepts
  refine ⟨fun v hv => ?_, fun e he => ?_⟩
  · have hconvert := convert_of_leads hl ha.accepts (by rw [hp]; exact hv)
    simp [readWhole, ha.target_eq, hread, hv.1, hconvert]
  · cases he with
    | refused h => simp [readWhole, ha.target_eq, hread, h, hr.failure_eq rfl]
    | null hr h => cases hr

end Accessor

/-! ## 2. One side -/

namespace Shape

/-- Whether a column's field is a number that is always there. A whole object never is. -/
def requires (shape : Shape) (c : Column) : Bool :=
  match shape with
  | scalar _ => false
  | record fields =>
    ((slot? fields c.name).bind fun slot => fields[slot]?.bind (·.type.mode?)).any Mode.isPrimitive

/-- Columns of different names are bound to different slots. -/
theorem slot?_injective {name other : String} (h : slot? fields name = some slot)
    (h' : slot? fields other = some slot) : name = other := by
  obtain ⟨hlt, hname, _⟩ := List.findIdx?_eq_some_iff_getElem.mp h
  obtain ⟨_, hother, _⟩ := List.findIdx?_eq_some_iff_getElem.mp h'
  exact (of_decide_eq_true hname).symm.trans (of_decide_eq_true hother)

theorem requires_of_ties (h : a.Ties fields c index slot) :
    (record fields).requires c = a.mode.isPrimitive := by
  obtain ⟨f, hf, ht⟩ := h.type_eq
  unfold requires
  simp [h.slot_eq, hf, ht, DeclaredType.mode?]

end Shape

namespace View

/-- **Fields filled from columns**: each column's field has the value that the column reads as, bit for
    bit, and the others are as before. -/
structure Filled (t : View) (fields : List Field) (columns : List Column) (offset : Nat)
    (before after : List Value) : Prop where
  length_eq : after.length = before.length
  bound : ∀ (p : Nat) (c : Column), columns[p]? = some c → ∃ slot v,
    Shape.slot? fields c.name = some slot ∧ after[slot]? = some v ∧ t.value (offset + p) = .ok v
  unbound : ∀ slot, (∀ c ∈ columns, Shape.slot? fields c.name ≠ some slot) →
    after[slot]? = before[slot]?

/-- The object that a side is decoded to: the column's value, or a fresh record with the bound fields
    filled. -/
inductive Decoded (t : View) (columns : List Column) (offset : Nat) : Shape → Object → Prop
  | whole {s : ScalarShape} {c : Column} {v : Value} (hc : columns = [c])
      (hv : t.value offset = .ok v) : Decoded t columns offset (.scalar s) (.whole v)
  | record {fields : List Field} {values : List Value}
      (hf : t.Filled fields columns offset (fields.map (·.initial)) values) :
      Decoded t columns offset (.record fields) (.record values)

/-- Every column gives its field a value. -/
def GivesAll (t : View) (shape : Shape) (columns : List Column) (offset : Nat) : Prop :=
  ∀ (p : Nat) (c : Column), columns[p]? = some c → ∃ v, t.Gives (shape.requires c) (offset + p) v

/-- The lowest column that does not give its field a value. -/
structure StopsAt (t : View) (shape : Shape) (columns : List Column) (offset p : Nat) (c : Column)
    (e : TupleError) : Prop where
  column : columns[p]? = some c
  blocked : t.Blocked (shape.requires c) (offset + p) e
  before : ∀ (q : Nat) (d : Column), q < p → columns[q]? = some d →
    ∃ v, t.Gives (shape.requires d) (offset + q) v

/-- **What a side of a tuple is decoded to.** -/
structure Decodes (t : View) (shape : Shape) (columns : List Column) (offset : Nat) (redact : Bool)
    (result : Outcome Diagnostic Object) : Prop where
  /-- There is an object exactly when every column gives its field a value. -/
  answered_iff : (∃ o, result = .ok o) ↔ t.GivesAll shape columns offset
  decoded : ∀ o, result = .ok o → t.Decoded columns offset shape o
  /-- Otherwise the lowest column that does not is reported. -/
  refused : (∀ o, result ≠ .ok o) → ∃ p c e failure, t.StopsAt shape columns offset p c e ∧
    failure = c.failure (offset + p) redact .read e.diagnostic ∧ result = Outcome.refuse failure ∧
    failure.code = "MARSHAL_011" ∧ failure.causes = [e.diagnostic.report]

/-- A side is decoded, or stops at its lowest column that is blocked. -/
theorem Decodes.of_ends {shape : Shape} {columns : List Column} {offset : Nat} {redact : Bool}
    {result : Outcome Diagnostic Object}
    (h : (∃ o, result = .ok o ∧ t.Decoded columns offset shape o ∧
        t.GivesAll shape columns offset) ∨
      ∃ p c e, t.StopsAt shape columns offset p c e ∧
        result = Outcome.refuse (c.failure (offset + p) redact .read e.diagnostic)) :
    t.Decodes shape columns offset redact result := by
  rcases h with ⟨o, rfl, hdecoded, hgives⟩ | ⟨p, c, e, hstop, rfl⟩
  · refine ⟨⟨fun _ => hgives, fun _ => ⟨o, rfl⟩⟩, fun o' ho => ?_, fun hno => absurd rfl (hno o)⟩
    cases ho
    exact hdecoded
  · obtain ⟨hcode, hcauses⟩ := c.failure_chain (offset + p) redact .read e
    refine ⟨⟨?_, fun hgives => ?_⟩, ?_, fun _ => ⟨p, c, e, _, hstop, rfl, rfl, hcode, hcauses⟩⟩
    · rintro ⟨o, ho⟩
      cases ho
    · obtain ⟨v, hv⟩ := hgives p c hstop.column
      exact absurd hv hstop.blocked.not_gives
    · intro o ho
      cases ho

/-- The columns of a group are found from an index on. -/
def LeadsAll (t : View) (offset : Nat) (columns : List Column) : Prop :=
  ∀ (p : Nat) (c : Column), columns[p]? = some c → ∃ chunk q, t.Leads (offset + p) chunk q c

theorem LeadsAll.tail {offset : Nat} {columns : List Column}
    (h : t.LeadsAll offset (c :: columns)) : t.LeadsAll (offset + 1) columns := by
  intro p d hd
  rw [Nat.add_assoc, Nat.add_comm 1 p]
  exact h (p + 1) d hd

section Cons

variable {shape : Shape} {columns : List Column} {offset : Nat}

theorem GivesAll.cons (hv : t.Gives (shape.requires c) offset v)
    (h : t.GivesAll shape columns (offset + 1)) : t.GivesAll shape (c :: columns) offset := by
  intro p d hd
  cases p with
  | zero =>
      cases hd
      exact ⟨v, hv⟩
  | succ p =>
      have hd := h p d hd
      rwa [Nat.add_assoc, Nat.add_comm 1 p] at hd

theorem StopsAt.here (he : t.Blocked (shape.requires c) offset e) :
    t.StopsAt shape (c :: columns) offset 0 c e :=
  ⟨rfl, he, fun q _ hq => absurd hq (Nat.not_lt_zero q)⟩

theorem StopsAt.cons {d : Column} (hv : t.Gives (shape.requires c) offset v)
    (h : t.StopsAt shape columns (offset + 1) p d e) :
    t.StopsAt shape (c :: columns) offset (p + 1) d e := by
  refine ⟨h.column, ?_, fun q b hq hb => ?_⟩
  · rw [Nat.add_comm p 1, ← Nat.add_assoc]
    exact h.blocked
  · cases q with
    | zero =>
        cases hb
        exact ⟨v, hv⟩
    | succ q =>
        have hb := h.before q b (Nat.lt_of_succ_lt_succ hq) hb
        rwa [Nat.add_assoc, Nat.add_comm 1 q] at hb

end Cons

/-- The codes that a failed decoding reports: that of the failure, of a null, and of damaged bytes. -/
theorem Decodes.code_mem {shape : Shape} {columns : List Column} {offset : Nat} {redact : Bool}
    {result : Outcome Diagnostic Object} {d : Diagnostic}
    (h : t.Decodes shape columns offset redact result) (hl : t.LeadsAll offset columns)
    (hd : result = Outcome.refuse d) : ∀ r ∈ d.report :: d.causes,
      r.code ∈ ["MARSHAL_011", "TUPLE_005", "TUPLE_012", "TUPLE_013", "TUPLE_014", "TUPLE_015"] := by
  have hno : ∀ o, result ≠ .ok o := by
    intro o ho
    cases hd.symm.trans ho
  obtain ⟨p, c, e, failure, hstop, rfl, hresult, _⟩ := h.refused hno
  cases hd.symm.trans hresult
  obtain ⟨chunk, q, hlead⟩ := hl p c hstop.column
  apply Column.failure_codes
  cases hstop.blocked with
  | refused h => exact List.mem_cons_of_mem _ (hlead.value_ensures.of_refused h).code_mem
  | null hr h => exact List.mem_cons_self

/-- The first column's field is filled, and then the others'. -/
theorem Filled.cons {columns : List Column} {offset : Nat} {before after : List Value}
    (hn : ∀ d ∈ columns, d.name ≠ c.name) (hslot : Shape.slot? fields c.name = some slot)
    (hlt : slot < before.length) (hv : t.value offset = .ok v)
    (h : t.Filled fields columns (offset + 1) (before.set slot v) after) :
    t.Filled fields (c :: columns) offset before after := by
  refine ⟨h.length_eq.trans List.length_set, fun p d hd => ?_, fun other hother => ?_⟩
  · cases p with
    | zero =>
        cases hd
        have hfree : ∀ d ∈ columns, Shape.slot? fields d.name ≠ some slot :=
          fun d hd hs => hn d hd (Shape.slot?_injective hs hslot)
        refine ⟨slot, v, hslot, ?_, hv⟩
        rw [h.unbound slot hfree, List.getElem?_set_self hlt]
    | succ p =>
        obtain ⟨own, w, hs, hw, hread⟩ := h.bound p d hd
        rw [Nat.add_assoc, Nat.add_comm 1 p] at hread
        exact ⟨own, w, hs, hw, hread⟩
  · have hne : slot ≠ other := fun he => hother c List.mem_cons_self (by rw [hslot, he])
    rw [h.unbound other fun d hd => hother d (List.mem_cons_of_mem c hd), List.getElem?_set_ne hne]

end View

namespace GroupBinding

/-- **Columns are read in order** into their fields, up to the lowest that is blocked. -/
theorem readAll_ends {redact : Bool} {offset : Nat} {columns : List Column} {accessors : List Accessor}
    (ha : Accessor.TieAll fields offset columns accessors) : (columns.map (·.name)).Nodup →
    (∀ (p : Nat) (a : Accessor) (c : Column), accessors[p]? = some a → columns[p]? = some c →
      a.Reports c redact) →
    t.LeadsAll offset columns → ∀ values : List Value, values.length = fields.length →
    (∃ after, readAll t accessors (.record values) = .ok (.record after) ∧
      t.Filled fields columns offset values after ∧ t.GivesAll (.record fields) columns offset) ∨
    ∃ p c e, t.StopsAt (.record fields) columns offset p c e ∧
      readAll t accessors (.record values) =
        Outcome.refuse (c.failure (offset + p) redact .read e.diagnostic) := by
  induction ha with
  | nil =>
      intro _ _ _ values _
      refine Or.inl ⟨values, rfl, ⟨rfl, fun p c hc => ?_, fun _ _ => rfl⟩, fun p c hc => ?_⟩
      · cases hc
      · cases hc
  | @cons offset slot c rest a more head tail ih =>
      intro hn hr hl values hlen
      obtain ⟨hname, hnames⟩ := List.nodup_cons.mp hn
      obtain ⟨chunk, q, hlead⟩ := hl 0 c rfl
      obtain ⟨hgives, hblocked⟩ := head.read_ends (hr 0 a c rfl rfl) hlead (.record values)
      rw [← Shape.requires_of_ties head] at hgives hblocked
      rcases hlead.gives_or_blocked ((Shape.record fields).requires c) with ⟨v, hv⟩ | ⟨e, he⟩
      · have hstep : readAll t (a :: more) (.record values) =
            readAll t more (.record (values.set slot v)) := by
          conv => lhs; unfold readAll
          rw [hgives v hv]
          rfl
        have hlt : slot < values.length := by
          obtain ⟨f, hf, _⟩ := head.type_eq
          rw [hlen]
          exact (List.getElem?_eq_some_iff.mp hf).1
        have hfree : ∀ d ∈ rest, d.name ≠ c.name :=
          fun d hd he => hname (List.mem_map.mpr ⟨d, hd, he⟩)
        rw [hstep]
        rcases ih hnames (fun p b d hb hd => hr (p + 1) b d hb hd) hl.tail (values.set slot v)
          (List.length_set.trans hlen) with ⟨after, hread, hfilled, hall⟩ | ⟨p, d, e, hstop, hread⟩
        · exact Or.inl ⟨after, hread, hfilled.cons hfree head.slot_eq hlt hv.1, .cons hv hall⟩
        · refine Or.inr ⟨p + 1, d, e, .cons hv hstop, ?_⟩
          rw [hread, Nat.add_assoc, Nat.add_comm 1 p]
      · refine Or.inr ⟨0, c, e, .here he, ?_⟩
        unfold readAll
        rw [hblocked e he]
        rfl

/-- **What a bound group is decoded to.** -/
theorem Bound.decodes {g : GroupBinding} {shape : Shape} {columns : List Column} {offset : Nat}
    {redact : Bool} (h : g.Bound shape columns offset redact) (hn : (columns.map (·.name)).Nodup)
    (hl : t.LeadsAll offset columns) :
    t.Decodes shape columns offset redact (g.read t) := by
  refine View.Decodes.of_ends ?_
  cases h.ties with
  | @whole a c mode hc ha =>
      obtain ⟨chunk, q, hlead⟩ := hl 0 c (by rw [hc]; rfl)
      obtain ⟨hgives, hblocked⟩ := ha.read_ends (h.reports 0 a c rfl (by rw [hc]; rfl))
        (h.whole a rfl) hlead
      rcases hlead.gives_or_blocked false with ⟨v, hv⟩ | ⟨e, he⟩
      · refine Or.inl ⟨_, hgives v hv, .whole hc hv.1, ?_⟩
        rw [hc]
        exact .cons hv fun p d hd => by cases hd
      · refine Or.inr ⟨0, c, e, ?_, hblocked e he⟩
        rw [hc]
        exact .here he
  | @record fields accessors ha =>
      rcases readAll_ends ha hn h.reports hl _ (List.length_map _) with
        ⟨after, hread, hfilled, hall⟩ | hstop
      · exact Or.inl ⟨_, hread, .record hfilled, hall⟩
      · exact Or.inr hstop

end GroupBinding

/-! ## 3. Both sides -/

theorem View.Sound.leadsAll_key (h : t.Sound) : t.LeadsAll 0 t.schema.key.columns := by
  intro p c hc
  rw [Nat.zero_add]
  exact ⟨_, _, h.leads_key hc⟩

theorem View.Sound.leadsAll_value (h : t.Sound) :
    t.LeadsAll t.schema.key.length t.schema.value.columns :=
  fun _ _ hc => ⟨_, _, h.leads_value hc⟩

namespace Serializer

section

variable {schema : Schema} {config : Config} {key value : Shape} {s : Serializer}

/-- Both sides of any bytes are refused with the tuple, or decoded from it. -/
theorem decode_ends (hs : schema.Sound) (hkstd : key.IsStandard) (hvstd : value.IsStandard)
    (hnew : Serializer.new schema config key value = .ok s) (bytes : List UInt8) :
    (∃ e, View.new schema bytes = Outcome.refuse e ∧ e.OfBytes ∧
      s.decodeKey bytes = Outcome.refuse e.diagnostic ∧
      s.decodeValue bytes = Outcome.refuse e.diagnostic) ∨
    ∃ t, View.new schema bytes = .ok t ∧ t.Sound ∧
      t.Decodes key schema.key.columns 0 config.redactSensitive (s.decodeKey bytes) ∧
      t.Decodes value schema.value.columns schema.key.length config.redactSensitive
        (s.decodeValue bytes) := by
  obtain ⟨rfl, hkey, hvalue⟩ := bound_of_new hs hkstd hvstd hnew
  obtain ⟨hknames, hvnames, _⟩ := hs.names_apart
  rcases (View.new_ensures hs bytes).ends with ⟨t, ht, hsound, hschema, _⟩ | ⟨e, he, hof⟩
  · have hdecode : s.decodeKey bytes = s.key.read t ∧ s.decodeValue bytes = s.value.read t := by
      unfold decodeKey decodeValue view
      rw [ht]
      exact ⟨rfl, rfl⟩
    have hk := hsound.leadsAll_key
    have hv := hsound.leadsAll_value
    rw [hschema] at hk hv
    rw [hdecode.1, hdecode.2]
    exact Or.inr ⟨t, ht, hsound, hkey.decodes hknames hk, hvalue.decodes hvnames hv⟩
  · refine Or.inl ⟨e, he, hof, ?_⟩
    unfold decodeKey decodeValue view
    rw [he]
    exact ⟨rfl, rfl⟩

/-- The codes that a failed decoding reports, of either side: of damaged bytes, or of a column. -/
theorem decode_code_mem (hs : schema.Sound) (hkstd : key.IsStandard) (hvstd : value.IsStandard)
    (hnew : Serializer.new schema config key value = .ok s) {bytes : List UInt8} {d : Diagnostic}
    (hd : s.decodeKey bytes = Outcome.refuse d ∨ s.decodeValue bytes = Outcome.refuse d) :
    ∀ r ∈ d.report :: d.causes,
      r.code ∈ ["MARSHAL_011", "TUPLE_005", "TUPLE_012", "TUPLE_013", "TUPLE_014", "TUPLE_015"] := by
  rcases decode_ends hs hkstd hvstd hnew bytes with
    ⟨e, _, hof, hkey, hvalue⟩ | ⟨t, ht, hsound, hkey, hvalue⟩
  · obtain rfl : d = e.diagnostic := by
      rcases hd with hd | hd
      · cases hkey.symm.trans hd
        rfl
      · cases hvalue.symm.trans hd
        rfl
    intro r hr
    rw [e.causes_diagnostic, List.mem_singleton] at hr
    rw [hr, e.code_diagnostic]
    exact List.mem_cons_of_mem _ (List.mem_cons_of_mem _ hof.code_mem)
  · have hk := hsound.leadsAll_key
    have hv := hsound.leadsAll_value
    rw [(View.sound_of_new hs ht).2.1] at hk hv
    rcases hd with hd | hd
    · exact hkey.code_mem hk hd
    · exact hvalue.code_mem hv hd

/-- **Decoding agrees with reading, whatever the bytes.** Bytes that are no tuple of the schema are
    refused for that, with the same report. From a tuple each side is decoded as its columns are read
    one by one, and the lowest column that gives its field no value is reported. No report says that a
    column was asked for the wrong type, was not found, or held a value of another type. -/
theorem decode_agrees {version : UInt32} {keyColumns valueColumns : List Column}
    (hdef : Schema.define version keyColumns valueColumns = .ok schema)
    (hkstd : key.IsStandard) (hvstd : value.IsStandard)
    (hnew : Serializer.new schema config key value = .ok s) (bytes : List UInt8) :
    (∀ e, View.new schema bytes = Outcome.refuse e →
      s.decodeKey bytes = Outcome.refuse e.diagnostic ∧
      s.decodeValue bytes = Outcome.refuse e.diagnostic) ∧
    (∀ t, View.new schema bytes = .ok t →
      t.Decodes key schema.key.columns 0 config.redactSensitive (s.decodeKey bytes) ∧
      t.Decodes value schema.value.columns schema.key.length config.redactSensitive
        (s.decodeValue bytes)) ∧
    ∀ d, s.decodeKey bytes = Outcome.refuse d ∨ s.decodeValue bytes = Outcome.refuse d →
      ∀ r ∈ d.report :: d.causes,
        r.code ≠ "TUPLE_003" ∧ r.code ≠ "TUPLE_006" ∧ r.code ≠ "TYPE_001" := by
  have hs := Schema.sound_of_define hdef
  have hother : ∀ code ∈ ["MARSHAL_011", "TUPLE_005", "TUPLE_012", "TUPLE_013", "TUPLE_014",
      "TUPLE_015"], code ≠ "TUPLE_003" ∧ code ≠ "TUPLE_006" ∧ code ≠ "TYPE_001" := by decide
  refine ⟨fun e he => ?_, fun t ht => ?_, fun d hd r hr =>
    hother _ (decode_code_mem hs hkstd hvstd hnew hd r hr)⟩
  · rcases decode_ends hs hkstd hvstd hnew bytes with ⟨e', he', _, hboth⟩ | ⟨t, ht, _⟩
    · cases he'.symm.trans he
      exact hboth
    · cases ht.symm.trans he
  · rcases decode_ends hs hkstd hvstd hnew bytes with ⟨e, he, _⟩ | ⟨t', ht', _, hboth⟩
    · cases he.symm.trans ht
    · cases ht'.symm.trans ht
      exact hboth

end

/-- A tuple of the score schema without a name, a note and even a score. -/
def blankBytes : List UInt8 :=
  scoreSchema.fingerprint.toBytes ++ [9, 0, 0, 0, 1, 42, 0, 0, 0]
    ++ [13, 0, 0, 0, 0, 0, 0, 0, 0, 0, 0, 0, 0]

def blankView : View :=
  ⟨scoreSchema, blankBytes, ⟨8, 9, 13, 13, 0⟩, ⟨17, 13, 22, 22, 0⟩⟩

/-- The key is decoded, and the score, which must be there, is reported. -/
theorem decode_agrees_blank : ∃ s failure,
    Schema.define 1 [⟨"id", .number .int4, false⟩]
      [⟨"name", .utf8, true⟩, ⟨"note", .utf8, true⟩, ⟨"score", .number .float8, false⟩] =
        .ok scoreSchema ∧
    (Shape.ofMode (.nullable .int4)).IsStandard ∧ scoreShape.IsStandard ∧
    Serializer.new scoreSchema Config.standard (.ofMode (.nullable .int4)) scoreShape = .ok s ∧
    View.new scoreSchema blankBytes = .ok blankView ∧
    s.decodeKey blankBytes = .ok (.whole (.number .int4 42)) ∧
    s.decodeValue blankBytes = Outcome.refuse failure ∧ failure.code = "MARSHAL_011" ∧
    failure.causes = [(TupleError.nullValue 1).diagnostic.report] := by
  have hdef : Schema.define 1 [⟨"id", .number .int4, false⟩]
      [⟨"name", .utf8, true⟩, ⟨"note", .utf8, true⟩, ⟨"score", .number .float8, false⟩] =
        .ok scoreSchema := rfl
  have hkstd : (Shape.ofMode (.nullable .int4)).IsStandard := rfl
  have hvstd : scoreShape.IsStandard := trivial
  obtain ⟨s, hnew⟩ : ∃ s, Serializer.new scoreSchema Config.standard (.ofMode (.nullable .int4))
      scoreShape = .ok s := ⟨_, rfl⟩
  have hview : View.new scoreSchema blankBytes = .ok blankView := by decide +kernel
  have hid : blankView.value 0 = .ok (.number .int4 42) := by decide +kernel
  have hscore : blankView.value 1 = .ok .undefined := by decide +kernel
  obtain ⟨hkey, hvalue⟩ := (decode_agrees hdef hkstd hvstd hnew blankBytes).2.1 _ hview
  have hdecoded : ∀ o, s.decodeKey blankBytes = .ok o → o = .whole (.number .int4 42) := by
    intro o ho
    cases hkey.decoded o ho with
    | whole hc hv =>
        cases hid.symm.trans hv
        rfl
  obtain ⟨o, ho⟩ := hkey.answered_iff.mpr fun p c hc => by
    match p, hc with
    | 0, hc => exact ⟨_, hid, fun _ => by simp⟩
  -- The score's column gives no value, so the side stops there.
  have hblank : ∀ v, ¬ blankView.Gives (scoreShape.requires ⟨"score", .number .float8, false⟩) 1 v :=
    fun v hv => hv.2 rfl (Except.ok.inj (hv.1.symm.trans hscore))
  have hno : ∀ o, s.decodeValue blankBytes ≠ .ok o := fun o ho => by
    obtain ⟨v, hv⟩ := hvalue.answered_iff.mp ⟨o, ho⟩ 0 _ rfl
    exact hblank v hv
  obtain ⟨p, c, e, failure, hstop, _, hrefused, hcode, hcauses⟩ := hvalue.refused hno
  have hp : p = 0 := by
    apply Nat.eq_zero_of_not_pos
    intro hpos
    obtain ⟨v, hv⟩ := hstop.before 0 _ hpos rfl
    exact hblank v hv
  subst hp
  have he : e = .nullValue 1 := by
    cases hstop.blocked with
    | refused h => cases hscore.symm.trans h
    | null hr h => rfl
  rw [he] at hcauses
  exact ⟨s, failure, hdef, hkstd, hvstd, hnew, hview, by rw [ho, hdecoded o ho], hrefused, hcode,
    hcauses⟩

end Serializer

/-! ## 4. No panic -/

theorem View.Decodes.panics_eq {shape : Shape} {columns : List Column} {offset : Nat} {redact : Bool}
    {result : Outcome Diagnostic Object} (h : t.Decodes shape columns offset redact result) :
    result.panics = false := by
  by_cases hok : ∃ o, result = .ok o
  · obtain ⟨o, rfl⟩ := hok
    rfl
  · obtain ⟨_, _, _, failure, _, _, rfl, _⟩ := h.refused fun o ho => hok ⟨o, ho⟩
    rfl

/-- Every question about an accepted tuple is answered or refused, at any index and of any type. -/
theorem View.Sound.getters_panics_eq (h : t.Sound) (index : Nat) :
    (t.isNull index).panics = false ∧
    (∀ kind, (t.number kind index).panics = false ∧ (t.number? kind index).panics = false) ∧
    (t.uuid? index).panics = false ∧ (t.bitSet? index).panics = false ∧
    (t.utf8? index).panics = false ∧ (t.blob? index).panics = false ∧
    (t.value index).panics = false := by
  have hl := h.located index
  refine ⟨(h.isNull_ensures index).panics_eq, fun kind => ⟨?_, ?_⟩, ?_, ?_, ?_, ?_, ?_⟩
  · exact (View.number_ensures (hl (.number kind)) trivial).panics_eq
  · exact (View.number?_ensures (hl (.number kind))).panics_eq
  · exact (View.uuid?_ensures (hl .uuid)).panics_eq
  · exact (View.bitSet?_ensures (hl (.bitmask 0))).panics_eq
  · exact (View.utf8?_ensures (fun _ _ => trivial) (hl .utf8)).panics_eq
  · exact (View.blob?_ensures (fun _ _ => trivial) (hl .blob)).panics_eq
  · exact (h.value_ensures index).panics_eq

/-- **Nothing that is read from bytes panics**, whatever they are: neither taking them for a tuple, nor
    asking an accepted tuple for any column as any type, nor decoding either side of them. -/
theorem Schema.reading_panics_eq {version : UInt32} {keyColumns valueColumns : List Column}
    {schema : Schema} (hdef : Schema.define version keyColumns valueColumns = .ok schema) :
    (∀ bytes, (View.new schema bytes).panics = false) ∧
    (∀ bytes t, View.new schema bytes = .ok t → ∀ index,
      (t.isNull index).panics = false ∧
      (∀ kind, (t.number kind index).panics = false ∧ (t.number? kind index).panics = false) ∧
      (t.uuid? index).panics = false ∧ (t.bitSet? index).panics = false ∧
      (t.utf8? index).panics = false ∧ (t.blob? index).panics = false ∧
      (t.value index).panics = false) ∧
    ∀ (config : Config) (key value : Shape) (s : Serializer), key.IsStandard → value.IsStandard →
      Serializer.new schema config key value = .ok s → ∀ bytes,
        (s.decodeKey bytes).panics = false ∧ (s.decodeValue bytes).panics = false := by
  have hs := Schema.sound_of_define hdef
  refine ⟨fun bytes => (View.new_ensures hs bytes).panics_eq, fun bytes t ht => ?_,
    fun config key value s hkstd hvstd hnew bytes => ?_⟩
  · exact (View.sound_of_new hs ht).1.getters_panics_eq
  · rcases Serializer.decode_ends hs hkstd hvstd hnew bytes with
      ⟨e, _, _, hkey, hvalue⟩ | ⟨t, _, _, hkey, hvalue⟩
    · rw [hkey, hvalue]
      exact ⟨rfl, rfl⟩
    · exact ⟨hkey.panics_eq, hvalue.panics_eq⟩

/-- A chunk that claims more bytes than there are, and a column past the last one. -/
theorem Schema.reading_panics_eq_blank :
    Schema.define 1 [⟨"id", .number .int4, false⟩]
      [⟨"name", .utf8, true⟩, ⟨"note", .utf8, true⟩, ⟨"score", .number .float8, false⟩] =
        .ok scoreSchema ∧
    (View.new scoreSchema (Serializer.blankBytes.set 8 255)).panics = false ∧
    View.new scoreSchema Serializer.blankBytes = .ok Serializer.blankView ∧
    (Serializer.blankView.utf8? 99).panics = false := by
  have hdef : Schema.define 1 [⟨"id", .number .int4, false⟩]
      [⟨"name", .utf8, true⟩, ⟨"note", .utf8, true⟩, ⟨"score", .number .float8, false⟩] =
        .ok scoreSchema := rfl
  have hview : View.new scoreSchema Serializer.blankBytes = .ok Serializer.blankView := by
    decide +kernel
  obtain ⟨hnew, hgetters, _⟩ := reading_panics_eq hdef
  exact ⟨hdef, hnew _, hview, (hgetters _ _ hview 99).2.2.2.2.1⟩

end RowCodec
