import RowCodec.Binding.Serializer
import RowCodec.Proofs.Outcome
import RowCodec.Proofs.Schema.Layout

/-!
# What a binding ties together

Which field a column is bound to, and which objects a shape has.

* `Mode.columnType` -- the type that stores a mode: the modes' own tables are the types' tables at this
  type (`Mode.accepts_eq`, `Accessor.readValue_eq_valueAs`).
* `Shape.slot?` -- a column is bound to the first field of its name. Taking a field out of the table
  does not change that for the columns that follow, since no two have the same name
  (`GroupBinding.find?_of_take`).
* `ofField_ok`, `ofWhole_ok` -- what was checked when an accessor was made, and what it is; `ofField_new`
  says it of a field that is bound as its type is.
* `Accessor.Ties`, `Accessor.TiesWhole` -- what an accessor knows of its column and its field.
* `bindColumns_cons` -- one column that was bound, and those behind it; `ofField_of_bindColumns` says of each
  column that it was bound to a field of its name.
* `ofShape_scalar`, `ofShape_record` -- what a group was bound to, by the shape.
* `GroupBinding.Ties` -- one accessor a column, in order; `ties_of_ofShape` says that
  `GroupBinding.ofShape` makes no other bindings.
* `Column.failure` -- the report of a failed operation on a column, and `Accessor.Reports` what an
  accessor needs to write it. `GroupBinding.Bound` is all of this for a group (`bound_of_ofShape`).
* `Shape.holds` -- the objects of a shape; an accessor's value is a value of its mode (`holds_value`).
-/

namespace RowCodec

/-! ## 1. The type that stores a mode -/

/-- The type of column that stores the mode; bit masks are given without a width. -/
def Mode.columnType : Mode → ColumnType
  | required kind => .number kind
  | nullable kind => .number kind
  | utf8 => .utf8
  | uuid => .uuid
  | blob => .blob
  | bitmask => .bitmask 0

/-- **A mode is stored by the columns of its type's kind**, and by no others. -/
theorem Mode.accepts_eq (m : Mode) (type : ColumnType) :
    m.accepts type = type.sameKind m.columnType := by
  cases m <;> cases type <;> rfl

theorem Mode.sameKind_of_accepts {m : Mode} {type : ColumnType} (ha : m.accepts type = true) :
    type.sameKind m.columnType = true :=
  (m.accepts_eq type).symm.trans ha

/-- **A mode's getter is the reader's for the type that stores the mode**: the table of the modes and
    the table of the types send a column to the same getter. -/
theorem Accessor.readValue_eq_valueAs (a : Accessor) (t : View) :
    a.readValue t = (t.valueAs a.mode.columnType a.index).mapCause TupleError.diagnostic := by
  unfold readValue View.valueAs
  cases a.mode <;> simp only [Mode.columnType, bind_map_left]

/-! ## 2. Taking fields by name -/

namespace FieldDef

theorem take_eq_some : ∀ {fields others : List FieldDef} {name : String} {f : FieldDef},
    take name fields = some (f, others) →
      fields.find? (fun d => d.name = name) = some f ∧
      ∀ other, other ≠ name →
        others.find? (fun d => d.name = other) = fields.find? (fun d => d.name = other)
  | [], _, _, _, h => by cases h
  | d :: rest, others, name, f, h => by
      unfold take at h
      split at h
      · rename_i hd
        cases h
        refine ⟨List.find?_cons_of_pos (decide_eq_true hd), fun other hne => ?_⟩
        rw [List.find?_cons_of_neg]
        rw [hd]
        exact fun h => hne (of_decide_eq_true h).symm
      · rename_i hd
        cases hrest : take name rest with
        | none =>
            rw [hrest] at h
            cases h
        | some found =>
            rw [hrest] at h
            cases h
            obtain ⟨hf, hothers⟩ := take_eq_some hrest
            refine ⟨?_, fun other hne => ?_⟩
            · rw [List.find?_cons_of_neg (by rwa [decide_eq_true_iff])]
              exact hf
            · rw [List.find?_cons, List.find?_cons, hothers other hne]

/-- There is nothing to take if no field has the name. -/
theorem take_eq_none : ∀ {fields : List FieldDef} {name : String}, take name fields = none →
    fields.find? (fun d => d.name = name) = none
  | [], _, _ => rfl
  | d :: rest, name, h => by
      unfold take at h
      split at h
      · cases h
      · rename_i hd
        rw [List.find?_cons_of_neg (by rwa [decide_eq_true_iff])]
        exact take_eq_none (Option.map_eq_none_iff.mp h)

end FieldDef

namespace Shape

/-- The slot of the field that a column of a name is bound to: the first field of the name. -/
def slot? (fields : List Field) (name : String) : Option Nat :=
  fields.findIdx? fun f => f.name = name

theorem names_fieldDefs (fields : List Field) :
    (fieldDefs fields).map (·.name) = fields.map (·.name) := by
  apply List.ext_getElem?
  intro i
  unfold fieldDefs
  rw [List.getElem?_map, List.getElem?_mapIdx, List.getElem?_map]
  cases fields[i]? <;> rfl

/-- The first field of a name, as it is offered for binding. -/
theorem find?_fieldDefs {fields : List Field} {name : String} {d : FieldDef}
    (h : (fieldDefs fields).find? (fun d => d.name = name) = some d) :
    ∃ slot f, slot? fields name = some slot ∧ fields[slot]? = some f ∧
      d = FieldDef.new f.name f.type slot := by
  have hslot : (fieldDefs fields).findIdx? (fun d => d.name = name) = slot? fields name := by
    have hmap := congrArg (List.findIdx? fun n => n = name) (names_fieldDefs fields)
    rw [List.findIdx?_map, List.findIdx?_map] at hmap
    exact hmap
  rw [List.find?_eq_bind_findIdx?_getElem?, hslot] at h
  obtain ⟨slot, hs, hd⟩ := Option.bind_eq_some_iff.mp h
  unfold fieldDefs at hd
  rw [List.getElem?_mapIdx] at hd
  obtain ⟨f, hf, hd⟩ := Option.map_eq_some_iff.mp hd
  exact ⟨slot, f, hs, hf, hd.symm⟩

end Shape

/-! ## 3. Bound columns -/

namespace Accessor

/-- The accessor ties the column at an index to the first field of the column's name. -/
structure Ties (a : Accessor) (fields : List Field) (c : Column) (index slot : Nat) : Prop where
  index_eq : a.index = index
  target_eq : a.target = .field ⟨slot, a.mode⟩
  slot_eq : Shape.slot? fields c.name = some slot
  type_eq : ∃ f, fields[slot]? = some f ∧ f.type = .encoded a.mode
  accepts : a.mode.accepts c.type = true

/-- The accessor ties the column at an index to a whole object. -/
structure TiesWhole (a : Accessor) (mode : Mode) (c : Column) (index : Nat) : Prop where
  index_eq : a.index = index
  target_eq : a.target = .whole mode
  mode_eq : a.mode = mode
  accepts : mode.accepts c.type = true

theorem checkColumnType_ok {field : String} {mode : Mode} {c : Column}
    (h : checkColumnType field mode c = .ok ()) : mode.accepts c.type = true := by
  unfold checkColumnType at h
  split at h
  · rename_i ha
    exact ha
  · cases h

/-- **A column bound to a field**: what was checked, and the accessor. -/
theorem ofField_ok {field : FieldDef} {index : Nat} {c : Column} {redact : Bool} {a : Accessor}
    (h : ofField field c index redact = .ok a) :
    ∃ mode binding, field.declared.mode? = some mode ∧ field.binding = some binding ∧
      mode.accepts c.type = true ∧
      a = { index, name := field.name, column := describe c, mode, redact, target := .field binding } := by
  unfold ofField at h
  split at h
  · rename_i mode binding hmode hbinding
    split at h
    · cases h
    · obtain ⟨u, hcheck, ha⟩ := Outcome.bind_ok h
      cases ha
      exact ⟨mode, binding, hmode, hbinding, checkColumnType_ok hcheck, rfl⟩
  · cases h

/-- **A column bound to a whole object**: what was checked, and the accessor. -/
theorem ofWhole_ok {index : Nat} {c : Column} {shape : ScalarShape} {redact : Bool} {a : Accessor}
    (h : ofWhole c index shape redact = .ok a) :
    ∃ mode, shape.declared.mode? = some mode ∧ mode.isPrimitive = false ∧
      mode.accepts c.type = true ∧
      a = { index, name := c.name, column := describe c, mode, redact,
            target := .whole shape.codec } := by
  unfold ofWhole at h
  split at h
  · cases h
  · rename_i mode hmode
    split at h
    · cases h
    · rename_i hprimitive
      obtain ⟨u, hcheck, ha⟩ := Outcome.bind_ok h
      cases ha
      exact ⟨mode, hmode, Bool.eq_false_iff.mpr hprimitive, checkColumnType_ok hcheck, rfl⟩

/-- **A column bound to a field of a type at a slot**: the type has a mode that the column stores, and the
    accessor reads and writes the slot as that mode. -/
theorem ofField_new {name : String} {type : DeclaredType} {slot index : Nat} {c : Column}
    {redact : Bool} {a : Accessor} (h : ofField (FieldDef.new name type slot) c index redact = .ok a) :
    type = .encoded a.mode ∧ a.target = .field ⟨slot, a.mode⟩ ∧ a.mode.accepts c.type = true ∧
      a.index = index := by
  obtain ⟨mode, binding, hmode, hbinding, haccepts, rfl⟩ := ofField_ok h
  cases type with
  | unsupported name => cases hmode
  | encoded own =>
      cases hmode
      cases hbinding
      exact ⟨rfl, rfl, haccepts, rfl⟩

theorem ties_of_ofField {fields : List Field} {f : Field} {slot index : Nat} {c : Column}
    {redact : Bool} {a : Accessor} (hs : Shape.slot? fields c.name = some slot)
    (hf : fields[slot]? = some f)
    (h : ofField (FieldDef.new f.name f.type slot) c index redact = .ok a) :
    a.Ties fields c index slot := by
  obtain ⟨htype, htarget, haccepts, hindex⟩ := ofField_new h
  exact ⟨hindex, htarget, hs, ⟨f, hf, htype⟩, haccepts⟩

theorem ties_of_ofWhole {mode : Mode} {index : Nat} {c : Column} {redact : Bool} {a : Accessor}
    (h : ofWhole c index ⟨.encoded mode, mode⟩ redact = .ok a) : a.TiesWhole mode c index := by
  obtain ⟨own, hmode, _, haccepts, rfl⟩ := ofWhole_ok h
  cases hmode
  exact ⟨rfl, rfl, rfl, haccepts⟩

/-- One accessor a column, in order, from an index on. -/
inductive TieAll (fields : List Field) : Nat → List Column → List Accessor → Prop
  | nil {index : Nat} : TieAll fields index [] []
  | cons {index slot : Nat} {c : Column} {rest : List Column} {a : Accessor} {more : List Accessor}
      (head : a.Ties fields c index slot) (tail : TieAll fields (index + 1) rest more) :
      TieAll fields index (c :: rest) (a :: more)

theorem TieAll.length_eq {fields : List Field} {index : Nat} {columns : List Column}
    {accessors : List Accessor} (h : TieAll fields index columns accessors) :
    accessors.length = columns.length := by
  induction h with
  | nil => rfl
  | cons head tail ih => rw [List.length_cons, List.length_cons, ih]

end Accessor

/-! ## 4. Bound groups -/

namespace GroupBinding

/-- **A column that was bound**: its field was taken, and the columns behind it were bound to the fields that
    are left. -/
theorem bindColumns_cons {redact : Bool} {index : Nat} {c : Column} {rest : List Column}
    {fields : List FieldDef} {accessors : List Accessor}
    (h : bindColumns redact index (c :: rest) fields = .ok accessors) :
    ∃ d others a more, FieldDef.take c.name fields = some (d, others) ∧
      Accessor.ofField d c index redact = .ok a ∧
      bindColumns redact (index + 1) rest others = .ok more ∧ accessors = a :: more := by
  unfold bindColumns at h
  cases ht : FieldDef.take c.name fields with
  | none =>
      rw [ht] at h
      cases h
  | some taken =>
      obtain ⟨d, others⟩ := taken
      rw [ht] at h
      obtain ⟨a, ha, h⟩ := Outcome.bind_ok h
      obtain ⟨more, hmore, h⟩ := Outcome.bind_ok h
      cases h
      exact ⟨d, others, a, more, rfl, ha, hmore, rfl⟩

/-- **Each column is bound to a field of its name**, with its own index. -/
theorem ofField_of_bindColumns {redact : Bool} : ∀ {columns : List Column} {fields : List FieldDef}
    {index : Nat} {accessors : List Accessor},
    bindColumns redact index columns fields = .ok accessors → accessors.length = columns.length ∧
      ∀ (p : Nat) (a : Accessor) (c : Column), accessors[p]? = some a → columns[p]? = some c →
        ∃ d : FieldDef, d.name = c.name ∧ Accessor.ofField d c (index + p) redact = .ok a
  | [], _, _, _, h => by
      cases h
      refine ⟨rfl, fun p a c ha => ?_⟩
      cases ha
  | column :: rest, fields, index, accessors, h => by
      obtain ⟨d, others, first, more, ht, hfirst, hmore, rfl⟩ := bindColumns_cons h
      obtain ⟨hlen, hall⟩ := ofField_of_bindColumns hmore
      refine ⟨congrArg (· + 1) hlen, fun p a c ha hc => ?_⟩
      cases p with
      | zero =>
          cases ha
          cases hc
          have hname := List.find?_some (FieldDef.take_eq_some ht).1
          exact ⟨d, of_decide_eq_true hname, hfirst⟩
      | succ p =>
          rw [← Nat.add_assoc, Nat.add_right_comm]
          exact hall p a c ha hc

/-- **Taking a column's field does not concern the other columns**: if the fields that are left have, for each
    column, the same first field of its name as the whole table, the one taken is the table's first, and those
    left then are as good for the columns that follow. -/
theorem find?_of_take {table left others : List FieldDef} {c : Column} {rest : List Column} {d : FieldDef}
    (hn : ((c :: rest).map (·.name)).Nodup)
    (hleft : ∀ c' ∈ c :: rest, left.find? (fun d => d.name = c'.name) =
      table.find? (fun d => d.name = c'.name))
    (ht : FieldDef.take c.name left = some (d, others)) :
    table.find? (fun d => d.name = c.name) = some d ∧
      ∀ c' ∈ rest, others.find? (fun d => d.name = c'.name) =
        table.find? (fun d => d.name = c'.name) := by
  obtain ⟨hd, hothers⟩ := FieldDef.take_eq_some ht
  rw [hleft c List.mem_cons_self] at hd
  refine ⟨hd, fun other hmem => ?_⟩
  have hne : other.name ≠ c.name := by
    intro he
    exact (List.nodup_cons.mp hn).1 (List.mem_map.mpr ⟨other, hmem, he⟩)
  rw [hothers other.name hne]
  exact hleft other (List.mem_cons_of_mem c hmem)

/-- **Columns are tied to the first field of their name each.** The fields that are left have, for each
    column that is left, the same first field of its name as the whole table. -/
theorem tieAll_of_bindColumns {fields : List Field} {redact : Bool} :
    ∀ {columns : List Column} {left : List FieldDef} {index : Nat} {accessors : List Accessor},
      (columns.map (·.name)).Nodup →
      (∀ c ∈ columns, left.find? (fun d => d.name = c.name) =
        (Shape.fieldDefs fields).find? (fun d => d.name = c.name)) →
      bindColumns redact index columns left = .ok accessors →
      Accessor.TieAll fields index columns accessors
  | [], _, _, _, _, _, h => by
      cases h
      exact .nil
  | c :: rest, left, index, accessors, hn, hleft, h => by
      obtain ⟨d, others, a, more, ht, ha, hmore, rfl⟩ := bindColumns_cons h
      obtain ⟨hd, hothers⟩ := find?_of_take hn hleft ht
      obtain ⟨slot, f, hs, hf, rfl⟩ := Shape.find?_fieldDefs hd
      exact .cons (Accessor.ties_of_ofField hs hf ha)
        (tieAll_of_bindColumns (List.nodup_cons.mp hn).2 hothers hmore)

section OfShape

variable {columns : Columns} {offset : Nat} {side : String} {redact : Bool} {g : GroupBinding}

/-- A scalar is bound to the group's only column. -/
theorem ofShape_scalar {s : ScalarShape}
    (h : ofShape (.scalar s) columns offset side redact = .ok g) :
    ∃ c a, columns.columns = [c] ∧ Accessor.ofWhole c offset s redact = .ok a ∧ g = .whole a := by
  unfold ofShape Shape.offer ofOffer at h
  dsimp only at h
  split at h
  · rename_i c hc
    obtain ⟨a, ha, h⟩ := Outcome.bind_ok h
    cases h
    exact ⟨c, a, hc, ha, rfl⟩
  · cases h

/-- A record is bound column by column. -/
theorem ofShape_record {fields : List Field}
    (h : ofShape (.record fields) columns offset side redact = .ok g) :
    ∃ accessors, bindColumns redact offset columns.columns (Shape.fieldDefs fields) = .ok accessors ∧
      g = .record (Shape.record fields).fresh accessors := by
  obtain ⟨accessors, ha, h⟩ := Outcome.bind_ok h
  cases h
  exact ⟨accessors, ha, rfl⟩

end OfShape

/-- A binding of a shape to columns, the first of which has the index `offset`. -/
inductive Ties (columns : List Column) (offset : Nat) : GroupBinding → Shape → Prop
  | whole {a : Accessor} {c : Column} {mode : Mode} (hc : columns = [c])
      (ha : a.TiesWhole mode c offset) : Ties columns offset (.whole a) (.ofMode mode)
  | record {fields : List Field} {accessors : List Accessor}
      (ha : Accessor.TieAll fields offset columns accessors) :
      Ties columns offset (.record (Shape.record fields).fresh accessors) (.record fields)

end GroupBinding

namespace Shape

/-- Whole values are stored as their type declares. That holds of the library's types and of every
    record. -/
def IsStandard : Shape → Prop
  | scalar s => s.declared = .encoded s.codec
  | record _ => True

end Shape

/-! ## 5. Reports -/

/-- The report of a failed operation on a column: with the column, or, under redaction, with its index
    only. -/
def Column.failure (c : Column) (index : Nat) (redact : Bool) (operation : Operation)
    (cause : Diagnostic) : Diagnostic :=
  BindingError.diagnostic <|
    if redact then .serialization operation (.numbered index) none cause
    else .serialization operation (.named c.name) (some (Accessor.describe c)) cause

theorem TupleError.code_diagnostic (e : TupleError) : e.diagnostic.report.code = e.code := by
  cases e <;> rfl

theorem TupleError.message_diagnostic (e : TupleError) : e.diagnostic.report.message = e.message := by
  cases e <;> rfl

theorem TupleError.causes_diagnostic (e : TupleError) : e.diagnostic.causes = [] := by
  cases e <;> rfl

/-- The report has the operation's code, and the cause behind it. -/
theorem Column.failure_chain (c : Column) (index : Nat) (redact : Bool) (operation : Operation)
    (e : TupleError) : (c.failure index redact operation e.diagnostic).code = operation.code ∧
      (c.failure index redact operation e.diagnostic).causes = [e.diagnostic.report] := by
  rw [← e.causes_diagnostic]
  cases redact
  · exact ⟨rfl, rfl⟩
  · exact ⟨rfl, rfl⟩

theorem Column.failure_codes {c : Column} {index : Nat} {redact : Bool} {operation : Operation}
    {e : TupleError} {codes : List String} (he : e.code ∈ codes) :
    ∀ r ∈ (c.failure index redact operation e.diagnostic).report ::
        (c.failure index redact operation e.diagnostic).causes,
      r.code ∈ operation.code :: codes := by
  obtain ⟨hcode, hcauses⟩ := c.failure_chain index redact operation e
  rw [hcauses]
  intro r hr
  rcases List.mem_cons.mp hr with rfl | hr
  · exact List.mem_cons.mpr (Or.inl hcode)
  · rw [List.mem_singleton.mp hr, e.code_diagnostic]
    exact List.mem_cons_of_mem _ he

/-- What an accessor's reports say of its column. -/
structure Accessor.Reports (a : Accessor) (c : Column) (redact : Bool) : Prop where
  name_eq : a.name = c.name
  column_eq : a.column = describe c
  redact_eq : a.redact = redact

namespace Accessor

variable {a : Accessor} {c : Column} {index : Nat} {redact : Bool}

theorem Reports.failure_eq (h : a.Reports c redact) (hi : a.index = index) (operation : Operation)
    (cause : Diagnostic) : a.failure operation cause = c.failure index redact operation cause := by
  unfold failure Column.failure
  rw [h.name_eq, h.column_eq, h.redact_eq, hi]

theorem reports_of_ofField {field : FieldDef} (hn : field.name = c.name)
    (h : ofField field c index redact = .ok a) : a.Reports c redact := by
  obtain ⟨mode, binding, _, _, _, rfl⟩ := ofField_ok h
  exact ⟨hn, rfl, rfl⟩

theorem reports_of_ofWhole {shape : ScalarShape} (h : ofWhole c index shape redact = .ok a) :
    a.Reports c redact ∧ a.mode.isPrimitive = false := by
  obtain ⟨mode, _, hprimitive, _, rfl⟩ := ofWhole_ok h
  exact ⟨⟨rfl, rfl, rfl⟩, hprimitive⟩

end Accessor

theorem GroupBinding.reports_of_bindColumns {redact : Bool} {columns : List Column}
    {fields : List FieldDef} {index : Nat} {accessors : List Accessor}
    (h : bindColumns redact index columns fields = .ok accessors) (p : Nat) (a : Accessor) (c : Column)
    (ha : accessors[p]? = some a) (hc : columns[p]? = some c) : a.Reports c redact := by
  obtain ⟨d, hname, hof⟩ := (ofField_of_bindColumns h).2 p a c ha hc
  exact Accessor.reports_of_ofField hname hof

/-- **What a shape is bound to.** -/
theorem GroupBinding.ties_of_ofShape {shape : Shape} {columns : Columns} {offset : Nat} {side : String}
    {redact : Bool} {g : GroupBinding} (hstd : shape.IsStandard)
    (hn : (columns.columns.map (·.name)).Nodup)
    (h : ofShape shape columns offset side redact = .ok g) : g.Ties columns.columns offset shape := by
  cases shape with
  | scalar s =>
      obtain ⟨declared, mode⟩ := s
      have hd : declared = .encoded mode := hstd
      subst hd
      obtain ⟨c, a, hc, ha, rfl⟩ := ofShape_scalar h
      exact .whole hc (Accessor.ties_of_ofWhole ha)
  | record fields =>
      obtain ⟨accessors, ha, rfl⟩ := ofShape_record h
      exact .record (tieAll_of_bindColumns hn (fun _ _ => rfl) ha)

/-- **A group as a serializer binds it**: what it is tied to, and what its reports say. A whole object
    is never a number that is always there. -/
structure GroupBinding.Bound (g : GroupBinding) (shape : Shape) (columns : List Column) (offset : Nat)
    (redact : Bool) : Prop where
  ties : g.Ties columns offset shape
  reports : ∀ (p : Nat) (a : Accessor) (c : Column), g.accessors[p]? = some a →
    columns[p]? = some c → a.Reports c redact
  whole : ∀ a, g = .whole a → a.mode.isPrimitive = false

theorem GroupBinding.bound_of_ofShape {shape : Shape} {columns : Columns} {offset : Nat}
    {side : String} {redact : Bool} {g : GroupBinding} (hstd : shape.IsStandard)
    (hn : (columns.columns.map (·.name)).Nodup)
    (h : ofShape shape columns offset side redact = .ok g) :
    g.Bound shape columns.columns offset redact := by
  have hties := ties_of_ofShape hstd hn h
  cases shape with
  | scalar scalar =>
      obtain ⟨c, a, hc, ha, rfl⟩ := ofShape_scalar h
      obtain ⟨hreports, hprimitive⟩ := Accessor.reports_of_ofWhole ha
      refine ⟨hties, fun p b d hb hd => ?_, fun b hb => by cases hb; exact hprimitive⟩
      rw [hc] at hd
      cases p with
      | zero =>
          cases hb
          cases hd
          exact hreports
      | succ p => cases hd
  | record fields =>
      obtain ⟨accessors, ha, rfl⟩ := ofShape_record h
      exact ⟨hties, reports_of_bindColumns ha, fun a hwhole => by cases hwhole⟩

/-- A serializer binds both sides of its schema. -/
theorem Serializer.bound_of_new {schema : Schema} {config : Config} {key value : Shape}
    {s : Serializer} (hs : schema.Sound) (hkstd : key.IsStandard) (hvstd : value.IsStandard)
    (h : Serializer.new schema config key value = .ok s) :
    s.schema = schema ∧ s.key.Bound key schema.key.columns 0 config.redactSensitive ∧
      s.value.Bound value schema.value.columns schema.key.length config.redactSensitive := by
  obtain ⟨hknames, hvnames, _⟩ := hs.names_apart
  obtain ⟨kg, hkey, h⟩ := Outcome.bind_ok h
  obtain ⟨vg, hvalue, h⟩ := Outcome.bind_ok h
  cases h
  exact ⟨rfl, GroupBinding.bound_of_ofShape hkstd hknames hkey,
    GroupBinding.bound_of_ofShape hvstd hvnames hvalue⟩

/-! ## 6. Objects -/

/-- Whether a value can stand in a field of the type. Fields of types without a binary form take
    anything: no column is bound to them. -/
def DeclaredType.holds : DeclaredType → Value → Bool
  | encoded mode, v => mode.holds v
  | unsupported _, _ => true

@[simp] theorem DeclaredType.holds_encoded (mode : Mode) (v : Value) :
    (encoded mode).holds v = mode.holds v := rfl

/-- Whether an object is of the shape: a value of the codec's mode, or a record with one value of the
    field's type for each field. -/
def Shape.holds : Shape → Object → Bool
  | scalar s, .whole v => s.codec.holds v
  | record fields, .record values =>
      fields.length = values.length ∧ (fields.zip values).all fun (f, v) => f.type.holds v
  | _, _ => false

/-- The objects of a record, field by field. -/
theorem Shape.holds_record {fields : List Field} {values : List Value} :
    (record fields).holds (.record values) = true ↔ fields.length = values.length ∧
      ∀ (slot : Nat) (f : Field) (v : Value), fields[slot]? = some f → values[slot]? = some v →
        f.type.holds v = true := by
  refine decide_eq_true_iff.trans (and_congr_right fun _ => ?_)
  rw [List.all_eq_true]
  refine ⟨fun h slot f v hf hv => ?_, fun h p hp => ?_⟩
  · exact h (f, v) (List.mem_of_getElem? (List.getElem?_zip_eq_some.mpr ⟨hf, hv⟩))
  · obtain ⟨slot, hslot⟩ := List.mem_iff_getElem?.mp hp
    obtain ⟨hf, hv⟩ := List.getElem?_zip_eq_some.mp hslot
    exact h slot p.1 p.2 hf hv

end RowCodec
