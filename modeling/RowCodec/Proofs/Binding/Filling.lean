import RowCodec.Proofs.Binding.Decoding

/-!
# Reading into a field

What `Accessor.fill` does to the object it is given, whatever the bytes are and whatever the object held.

* `Object.SameBut` -- two records that differ in one field at most. A slot of a record is a lens
  (`get_set_self`, `sameBut_set`, `set_set`, `set_comm`), and setting it keeps the record's type
  (`Shape.holds_set`).
* `Accessor.fill_eq` -- filling in place is `Accessor.read`, and leaves the object where that gives none.
  So a side is decoded by filling one field after another (`GroupBinding.readAll_cons`).
* `Accessor.fill_ends` -- the bound field is set to what was read, or nothing is changed; which of the two
  it is does not depend on the object. `fill_kept`, `fill_again` and `fill_comm` follow from that alone,
  for any accessor and any tuple.
* `Accessor.BoundTo` -- an accessor that was made for a field of a record and a column of a schema. On an
  accepted tuple it sets the field to what the column reads as, or reports why not (`BoundTo.fill_ends`).
* `Accessor.fill_atomic` -- **reading is atomic and touches one field.**
-/

namespace RowCodec

variable {slot other index : Nat} {v w : Value} {values : List Value} {fields : List Field} {o : Object}
  {a b : Accessor} {t : View} {schema : Schema}

/-! ## 1. One field of a record -/

namespace Object

/-- The objects are records of as many fields, which are alike but for the one at a slot. -/
def SameBut (slot : Nat) : Object → Object → Prop
  | record before, record after =>
    after.length = before.length ∧ ∀ other, other ≠ slot → after[other]? = before[other]?
  | _, _ => False

theorem get_set_self (h : slot < values.length) (v : Value) :
    ((record values).set slot v).get slot = v := by
  show (values.set slot v)[slot]?.getD .undefined = v
  rw [List.getElem?_set_self h]
  rfl

theorem sameBut_set (values : List Value) (slot : Nat) (v : Value) :
    (record values).SameBut slot ((record values).set slot v) :=
  ⟨List.length_set, fun _ hne => List.getElem?_set_ne hne.symm⟩

/-- The second of two values set in one field stays. -/
theorem set_set (o : Object) (slot : Nat) (v w : Value) : (o.set slot v).set slot w = o.set slot w := by
  cases o with
  | whole u => rfl
  | record values => exact congrArg record (List.set_set v)

/-- **Two fields are set in either order.** -/
theorem set_comm (hne : slot ≠ other) (values : List Value) (v w : Value) :
    ((record values).set slot v).set other w = ((record values).set other w).set slot v :=
  congrArg record (List.set_comm v w hne)

end Object

/-- A field set to a value of its type leaves an object of the record. -/
theorem Shape.holds_set {f : Field} (ho : (record fields).holds (.record values) = true)
    (hf : fields[slot]? = some f) (hv : f.type.holds v = true) :
    (record fields).holds ((Object.record values).set slot v) = true := by
  obtain ⟨hlen, hall⟩ := holds_record.mp ho
  refine holds_record.mpr ⟨hlen.trans List.length_set.symm, fun own g w hg hw => ?_⟩
  by_cases he : slot = own
  · subst he
    have hlt : slot < values.length := hlen ▸ (List.getElem?_eq_some_iff.mp hf).1
    rw [List.getElem?_set_self hlt] at hw
    cases hw
    cases hf.symm.trans hg
    exact hv
  · rw [List.getElem?_set_ne he] at hw
    exact hall own g w hg hw

/-! ## 2. Any accessor, any tuple -/

/-- A fault of either of two calls ends the filling, with the same object. -/
theorem Filling.onward_bind {α β : Type} (o : Object) (x : Outcome Diagnostic α)
    (f : α → Outcome Diagnostic β) (next : β → Filling) :
    onward o (x >>= f) next = onward o x fun a => onward o (f a) next := by
  cases x <;> rfl

namespace Accessor

variable {f g : FieldBinding} {fault : Fault Diagnostic}

/-- A field is filled with what its column gives as a value of the field's type. -/
theorem fill_of_field (h : a.target = .field f) (o : Object) (t : View) :
    a.fill o t = Filling.mapCause (a.failure .read)
      (.onward o (a.readAs t f.mode) fun v => ⟨o.set f.slot v, .ok ()⟩) := by
  obtain ⟨slot, mode⟩ := f
  unfold fill
  rw [h]
  cases mode with
  | required kind =>
      unfold readAs
      dsimp only
      rw [Filling.onward_bind]
      rfl
  | _ =>
      -- What was read is converted before it is stored.
      rw [readAs_of_nullable rfl, Filling.onward_bind]
      rfl

/-- **Filling in place is reading**: where there is an object it is the one afterwards, and where there is
    none the object stays. -/
theorem fill_eq (a : Accessor) (o : Object) (t : View) :
    a.fill o t = .onward o (a.read o t) fun o' => ⟨o', .ok ()⟩ := by
  cases h : a.target with
  | whole codec =>
      unfold fill read
      rw [h]
      rfl
  | field f =>
      rw [fill_of_field h]
      unfold read
      rw [h]
      dsimp only
      cases a.readAs t f.mode <;> rfl

/-- **The bound field is set to what was read, or nothing is changed.** The object has no say in it. -/
theorem fill_ends (a : Accessor) (t : View) :
    (∃ f v, a.target = .field f ∧ ∀ o, a.fill o t = ⟨o.set f.slot v, .ok ()⟩) ∨
      ∃ fault, ∀ o, a.fill o t = ⟨o, .error fault⟩ := by
  cases h : a.target with
  | whole codec =>
      refine Or.inr ⟨.panic (.noFieldToPopulate a.index), fun o => ?_⟩
      unfold fill
      rw [h]
      rfl
  | field f =>
      cases hv : a.readAs t f.mode with
      | ok v =>
          refine Or.inl ⟨f, v, rfl, fun o => ?_⟩
          rw [fill_of_field h, hv]
          rfl
      | error fault =>
          refine Or.inr ⟨fault.map (a.failure .read), fun o => ?_⟩
          rw [fill_of_field h, hv]
          rfl

/-- A failed reading leaves the object as it was, in all fields. -/
theorem fill_kept (h : (a.fill o t).outcome = .error fault) : (a.fill o t).object = o := by
  rcases a.fill_ends t with ⟨f, v, _, hset⟩ | ⟨own, hkept⟩
  · rw [hset] at h
    cases h
  · rw [hkept]

/-- **Reading twice is reading once.** -/
theorem fill_again (a : Accessor) (o : Object) (t : View) :
    a.fill (a.fill o t).object t = a.fill o t := by
  rcases a.fill_ends t with ⟨f, v, _, hset⟩ | ⟨fault, hkept⟩
  · rw [hset o, hset, Object.set_set]
  · rw [hkept o]
    exact hkept o

/-- **Two fields are read in either order**, to the same object, and each reading ends as it would end
    alone. -/
theorem fill_comm (ha : a.target = .field f) (hb : b.target = .field g) (hne : f.slot ≠ g.slot)
    (values : List Value) (t : View) :
    ∃ o', a.fill (b.fill (.record values) t).object t = ⟨o', (a.fill (.record values) t).outcome⟩ ∧
      b.fill (a.fill (.record values) t).object t = ⟨o', (b.fill (.record values) t).outcome⟩ := by
  rcases a.fill_ends t with ⟨f', v, hf, hset⟩ | ⟨fault, hkept⟩
  · cases hf.symm.trans ha
    rcases b.fill_ends t with ⟨g', w, hg, hset'⟩ | ⟨fault', hkept'⟩
    · cases hg.symm.trans hb
      refine ⟨((Object.record values).set f.slot v).set g.slot w, ?_, ?_⟩
      · rw [hset', hset, hset, Object.set_comm hne]
      · rw [hset, hset', hset']
    · refine ⟨(Object.record values).set f.slot v, ?_, ?_⟩
      · rw [hkept', hset]
      · rw [hset, hkept', hkept']
  · refine ⟨(b.fill (.record values) t).object, ?_, ?_⟩
    · rw [hkept, hkept]
    · rw [hkept]

end Accessor

/-- **A record is decoded by filling its fields one after another**, up to the first that fails. -/
theorem GroupBinding.readAll_cons (t : View) (a : Accessor) (rest : List Accessor) (o : Object) :
    readAll t (a :: rest) o =
      (a.fill o t).outcome >>= fun () => readAll t rest (a.fill o t).object := by
  conv => lhs; unfold readAll
  rw [a.fill_eq]
  cases a.read o t <;> rfl

/-! ## 3. An accessor of an accepted tuple -/

namespace Accessor

/-- The accessor was made for the field at a slot of a record, bound as the field's type is, and the column
    at an index of a schema. -/
def BoundTo (a : Accessor) (schema : Schema) (fields : List Field) (slot index : Nat) : Prop :=
  ∃ name f c redact, fields[slot]? = some f ∧ schema.column? index = some c ∧
    ofField (FieldDef.new name f.type slot) c index redact = .ok a

namespace BoundTo

theorem target_eq (h : a.BoundTo schema fields slot index) : a.target = .field ⟨slot, a.mode⟩ := by
  obtain ⟨_, _, _, _, _, _, ha⟩ := h
  exact (ofField_new ha).2.1

theorem type_eq (h : a.BoundTo schema fields slot index) :
    ∃ f, fields[slot]? = some f ∧ f.type = .encoded a.mode := by
  obtain ⟨_, f, _, _, hf, _, ha⟩ := h
  exact ⟨f, hf, (ofField_new ha).1⟩

/-- **The field is set to what the column reads as**, a value of the field's type, or the column is blocked
    and reported. -/
theorem fill_ends (h : a.BoundTo schema fields slot index) (ht : t.Sound) (hs : t.schema = schema) :
    (∃ v, t.Gives a.mode.isPrimitive index v ∧ a.mode.holds v = true ∧
      ∀ o, a.fill o t = ⟨o.set slot v, .ok ()⟩) ∨
    ∃ e, t.Blocked a.mode.isPrimitive index e ∧
      ∀ o, a.fill o t = ⟨o, Outcome.refuse (a.failure .read e.diagnostic)⟩ := by
  obtain ⟨_, f, c, _, _, hc, ha⟩ := h
  obtain ⟨_, htarget, haccepts, rfl⟩ := ofField_new ha
  subst hs
  obtain ⟨chunk, p, hl⟩ := ht.leads hc
  obtain ⟨hgives, hblocked⟩ := readAs_ends hl haccepts
  rcases hl.gives_or_blocked a.mode.isPrimitive with ⟨v, hv⟩ | ⟨e, he⟩
  · refine Or.inl ⟨v, hv, holds_of_leads hl haccepts hv, fun o => ?_⟩
    rw [fill_of_field htarget, hgives v hv]
    rfl
  · refine Or.inr ⟨e, he, fun o => ?_⟩
    rw [fill_of_field htarget, hblocked e he]
    rfl

/-- Reading does not panic, and succeeds exactly when the column gives the field a value. -/
theorem outcome_iff (h : a.BoundTo schema fields slot index) (ht : t.Sound) (hs : t.schema = schema)
    (o : Object) : (a.fill o t).outcome.panics = false ∧
      ((a.fill o t).outcome = .ok () ↔ ∃ v, t.Gives a.mode.isPrimitive index v) := by
  rcases h.fill_ends ht hs with ⟨v, hv, _, hset⟩ | ⟨e, he, hkept⟩
  · rw [hset]
    exact ⟨rfl, fun _ => ⟨v, hv⟩, fun _ => rfl⟩
  · rw [hkept]
    refine ⟨rfl, fun hok => ?_, fun ⟨v, hv⟩ => absurd hv he.not_gives⟩
    cases hok

/-- A reading that succeeds sets the field to what the column reads as. -/
theorem filled (h : a.BoundTo schema fields slot index) (ht : t.Sound) (hs : t.schema = schema)
    (hok : (a.fill o t).outcome = .ok ()) :
    ∃ v, t.value index = .ok v ∧ a.mode.holds v = true ∧ (a.fill o t).object = o.set slot v := by
  rcases h.fill_ends ht hs with ⟨v, hv, hholds, hset⟩ | ⟨e, _, hkept⟩
  · rw [hset]
    exact ⟨v, hv.1, hholds, rfl⟩
  · rw [hkept] at hok
    cases hok

/-- The field's value is the one it was set to. -/
theorem value_set (h : a.BoundTo schema fields slot index) (hlen : values.length = fields.length)
    (v : Value) : a.value ((Object.record values).set slot v) = v := by
  obtain ⟨f, hf, _⟩ := h.type_eq
  have hlt : slot < values.length := hlen ▸ (List.getElem?_eq_some_iff.mp hf).1
  unfold value
  rw [h.target_eq]
  exact Object.get_set_self hlt v

end BoundTo

/-- **Reading is atomic and touches one field.** Take an accessor made for a field of a record and a column of
    a schema, a tuple that was accepted for the schema, and an object of the record. Reading the column into
    the object does not panic, and succeeds exactly when the column can be read and is not a null where a
    number must be. If it fails the object is as it was. If it succeeds the object is still one of the record,
    with no other field changed; the field's value is what the tuple has at the index, and reading once more
    changes nothing. Reading into two fields gives the same object in either order, and neither reading
    changes how the other ends. -/
theorem fill_atomic {version : UInt32} {keyColumns valueColumns : List Column} {bytes : List UInt8}
    (hdef : Schema.define version keyColumns valueColumns = .ok schema)
    (ht : View.new schema bytes = .ok t) (ha : a.BoundTo schema fields slot index)
    (ho : (Shape.record fields).holds o = true) :
    (a.fill o t).outcome.panics = false ∧
    ((a.fill o t).outcome = .ok () ↔ ∃ v, t.Gives a.mode.isPrimitive index v) ∧
    (∀ fault, (a.fill o t).outcome = .error fault → (a.fill o t).object = o) ∧
    ((a.fill o t).outcome = .ok () →
      (Shape.record fields).holds (a.fill o t).object = true ∧
      o.SameBut slot (a.fill o t).object ∧
      t.value index = .ok (a.value (a.fill o t).object) ∧
      a.fill (a.fill o t).object t = ⟨(a.fill o t).object, .ok ()⟩) ∧
    ∀ (b : Accessor) (other otherIndex : Nat), b.BoundTo schema fields other otherIndex → slot ≠ other →
      ∃ o', a.fill (b.fill o t).object t = ⟨o', (a.fill o t).outcome⟩ ∧
        b.fill (a.fill o t).object t = ⟨o', (b.fill o t).outcome⟩ := by
  obtain ⟨hsound, hschema, _⟩ := View.sound_of_new (Schema.sound_of_define hdef) ht
  obtain ⟨hpanics, hiff⟩ := ha.outcome_iff hsound hschema o
  cases o with
  | whole u => cases ho
  | record values =>
      refine ⟨hpanics, hiff, fun _ => fill_kept, fun hok => ?_, fun b other _ hb hne =>
        fill_comm ha.target_eq hb.target_eq hne values t⟩
      obtain ⟨v, hv, hholds, hset⟩ := ha.filled hsound hschema hok
      obtain ⟨f, hf, htype⟩ := ha.type_eq
      have hagain := (a.fill_again (.record values) t).trans (congrArg (Filling.mk _) hok)
      refine ⟨?_, ?_, ?_, hagain⟩
      · rw [hset]
        exact Shape.holds_set ho hf (htype ▸ hholds)
      · rw [hset]
        exact Object.sameBut_set values slot v
      · rw [hset, ha.value_set (Shape.holds_record.mp ho).1.symm]
        exact hv

/-- A row with a score that is no number, a name, and a note whose byte is no text. -/
def smudgedBytes : List UInt8 :=
  scoreSchema.fingerprint.toBytes ++ [9, 0, 0, 0, 1, 42, 0, 0, 0]
    ++ [24, 0, 0, 0, 7, 21, 0, 0, 0, 23, 0, 0, 0, 1, 0, 0, 0, 0, 0, 0xf8, 0x7f, 110, 111, 0xff]

def smudgedView : View :=
  ⟨scoreSchema, smudgedBytes, ⟨8, 9, 13, 13, 0⟩, ⟨17, 24, 22, 30, 2⟩⟩

def draftFields : List Field :=
  [⟨"note", .encoded .utf8, .undefined⟩, ⟨"name", .encoded .utf8, .undefined⟩,
    ⟨"score", .encoded (.required .float8), .number .float8 0⟩]

def draft : Object := .record [.utf8 "old", .undefined, .number .float8 7]

/-- The note is refused and stays; the name and the score are read in either order, bit for bit. -/
theorem fill_atomic_smudged : ∃ note name score : Accessor,
    Schema.define 1 [⟨"id", .number .int4, false⟩]
      [⟨"name", .utf8, true⟩, ⟨"note", .utf8, true⟩, ⟨"score", .number .float8, false⟩] =
        .ok scoreSchema ∧
    View.new scoreSchema smudgedBytes = .ok smudgedView ∧
    note.BoundTo scoreSchema draftFields 0 3 ∧ name.BoundTo scoreSchema draftFields 1 2 ∧
    score.BoundTo scoreSchema draftFields 2 1 ∧ (Shape.record draftFields).holds draft = true ∧
    (note.fill draft smudgedView).outcome ≠ .ok () ∧ (note.fill draft smudgedView).object = draft ∧
    score.value (score.fill draft smudgedView).object = .number .float8 0x7ff8000000000001 ∧
    ∃ o', score.fill (name.fill draft smudgedView).object smudgedView = ⟨o', .ok ()⟩ ∧
      name.fill (score.fill draft smudgedView).object smudgedView = ⟨o', .ok ()⟩ := by
  have hdef : Schema.define 1 [⟨"id", .number .int4, false⟩]
      [⟨"name", .utf8, true⟩, ⟨"note", .utf8, true⟩, ⟨"score", .number .float8, false⟩] =
        .ok scoreSchema := rfl
  have hview : View.new scoreSchema smudgedBytes = .ok smudgedView := by decide +kernel
  obtain ⟨note, hnote⟩ : ∃ note : Accessor, note.BoundTo scoreSchema draftFields 0 3 :=
    ⟨_, "note", _, _, false, rfl, rfl, rfl⟩
  obtain ⟨name, hname⟩ : ∃ name : Accessor, name.BoundTo scoreSchema draftFields 1 2 :=
    ⟨_, "name", _, _, false, rfl, rfl, rfl⟩
  obtain ⟨score, hscore⟩ : ∃ score : Accessor, score.BoundTo scoreSchema draftFields 2 1 :=
    ⟨_, "score", _, _, true, rfl, rfl, rfl⟩
  have hdraft : (Shape.record draftFields).holds draft = true := by decide +kernel
  have hspoiled : smudgedView.value 3 = Outcome.refuse (.invalidUtf8 3) := by decide +kernel
  have hno : smudgedView.value 2 = .ok (.utf8 "no") := by decide +kernel
  have hnan : smudgedView.value 1 = .ok (.number .float8 0x7ff8000000000001) := by decide +kernel
  obtain ⟨_, hnoteIff, hkept, _⟩ := fill_atomic hdef hview hnote hdraft
  obtain ⟨_, hnameIff, _⟩ := fill_atomic hdef hview hname hdraft
  obtain ⟨_, hscoreIff, _, hfilled, hcomm⟩ := fill_atomic hdef hview hscore hdraft
  have hrefused : (note.fill draft smudgedView).outcome ≠ .ok () := by
    intro hok
    obtain ⟨v, hv, _⟩ := hnoteIff.mp hok
    cases hspoiled.symm.trans hv
  have hnameOk := hnameIff.mpr ⟨_, hno, fun _ => by simp⟩
  have hscoreOk := hscoreIff.mpr ⟨_, hnan, fun _ => by simp⟩
  obtain ⟨o', hafter, hbefore⟩ := hcomm name 1 2 hname (by decide)
  refine ⟨note, name, score, hdef, hview, hnote, hname, hscore, hdraft, hrefused, ?_, ?_, o', ?_, ?_⟩
  · cases hend : (note.fill draft smudgedView).outcome with
    | ok u => exact absurd hend hrefused
    | error fault => exact hkept fault hend
  · exact Except.ok.inj ((hfilled hscoreOk).2.2.1.symm.trans hnan)
  · rw [hafter, hscoreOk]
  · rw [hbefore, hnameOk]

end Accessor

end RowCodec
