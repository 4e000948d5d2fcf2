import RowCodec.Proofs.Binding.Alike
import RowCodec.Proofs.Binding.Writing
import Mathlib.Data.List.Forall2

/-!
# Redaction hides names

Two serializers that are told to redact, for schemas and types that differ in names only, cannot be told
apart by what they answer: not by a tuple behind its fingerprint, not by a decoded object, and not by any
word of a report or of what caused it.

* `Shape.Renames` -- a type with the fields renamed that columns are bound to.
* `Accessor.Redacted`, `GroupBinding.Redacted` -- what is left of a binding when names are left out;
  binding under other names leaves the same (`redacted_of_ofShape`).
* `Redacted.storesAlike`, `Redacted.read_eq` -- both directions of a column: same values, same reports.
* `Serializer.redacted_alike` -- **no answer depends on a name.**
-/

namespace RowCodec

variable {ρ : String → String} {a a' : Accessor} {t t' : View}

/-! ## 1. Types -/

/-- **The second type is the first with other names**: its fields are of the same types, fresh objects are
    the same, and each column finds its field in the same place under the new name. What a field is named
    that no column is bound to does not matter. -/
inductive Shape.Renames (ρ : String → String) (columns : List Column) : Shape → Shape → Prop
  | scalar (s : ScalarShape) : Renames ρ columns (.scalar s) (.scalar s)
  | record {fields fields' : List Field}
      (types : (fields'.map fun f => (f.type, f.initial)) = fields.map fun f => (f.type, f.initial))
      (slots : ∀ c ∈ columns, slot? fields' (ρ c.name) = slot? fields c.name) :
      Renames ρ columns (.record fields) (.record fields')

/-- Renaming all fields of a record, no two to one name, is such a renaming. -/
theorem Shape.renames_of_injective (hρ : Function.Injective ρ) (columns : List Column)
    (fields : List Field) : (Shape.record fields).Renames ρ columns
      (.record (fields.map fun f => { f with name := ρ f.name })) := by
  refine .record ?_ fun c _ => ?_
  · rw [List.map_map]
    rfl
  · unfold slot?
    rw [List.findIdx?_map]
    congr 1
    funext f
    exact decide_eq_decide.mpr hρ.eq_iff

/-! ## 2. Columns -/

/-- **The two accessors differ in names only**, and show none. -/
structure Accessor.Redacted (a a' : Accessor) : Prop where
  index_eq : a'.index = a.index
  mode_eq : a'.mode = a.mode
  target_eq : a'.target = a.target
  redact : a.redact = true
  redact' : a'.redact = true

namespace Accessor.Redacted

variable (h : a.Redacted a')

include h

theorem failure_eq (operation : Operation) : a'.failure operation = a.failure operation := by
  funext cause
  unfold failure
  rw [h.redact, h.redact', h.index_eq]
  rfl

theorem storesAlike (o : Object) : StoresAlike o o a a' := by
  have hvalue : a'.value o = a.value o := by
    unfold value
    rw [h.target_eq]
  refine ⟨hvalue, ?_, h.failure_eq .write⟩
  unfold isWhole
  rw [hvalue, h.target_eq]

theorem readsAlike : a.ReadsAlike a' :=
  ⟨h.index_eq, h.mode_eq, h.target_eq, h.failure_eq .read⟩

end Accessor.Redacted

namespace Accessor

variable {c : Column} {index slot : Nat} {fields fields' : List Field}

/-- Columns that find their fields in the same place are bound alike. -/
theorem Ties.redacted (h : a.Ties fields c index slot) {slot' : Nat}
    (h' : a'.Ties fields' (c.rename ρ) index slot')
    (hr : a.Reports c true) (hr' : a'.Reports (c.rename ρ) true)
    (types : (fields'.map fun f => (f.type, f.initial)) = fields.map fun f => (f.type, f.initial))
    (hslot : Shape.slot? fields' (ρ c.name) = Shape.slot? fields c.name) : a.Redacted a' := by
  have hs : slot' = slot := by
    have hfound := h'.slot_eq
    change Shape.slot? fields' (ρ c.name) = some slot' at hfound
    rw [hslot, h.slot_eq] at hfound
    exact (Option.some.inj hfound).symm
  subst hs
  obtain ⟨f, hf, ht⟩ := h.type_eq
  obtain ⟨f', hf', ht'⟩ := h'.type_eq
  have hmode : a'.mode = a.mode := by
    have htypes := congrArg (fun types => types[slot']?) types
    simp only [List.getElem?_map, hf, hf', Option.map_some, Option.some.injEq, Prod.mk.injEq, ht, ht',
      DeclaredType.encoded.injEq] at htypes
    exact htypes.1
  refine ⟨h'.index_eq.trans h.index_eq.symm, hmode, ?_, hr.redact_eq, hr'.redact_eq⟩
  rw [h.target_eq, h'.target_eq, hmode]

end Accessor

/-! ## 3. Sides -/

/-- **The two groups differ in names only**, and show none. -/
inductive GroupBinding.Redacted : GroupBinding → GroupBinding → Prop
  | whole {a a' : Accessor} (h : a.Redacted a') : Redacted (.whole a) (.whole a')
  | record (fresh : Object) {accessors accessors' : List Accessor}
      (h : List.Forall₂ Accessor.Redacted accessors accessors') :
      Redacted (.record fresh accessors) (.record fresh accessors')

namespace GroupBinding

variable {g g' : GroupBinding} {offset : Nat}

theorem Redacted.storesAlike (h : g.Redacted g') (o : Object) : g.StoresAlike g' o o := by
  cases h with
  | whole h =>
      have hstores := h.storesAlike o
      exact ⟨congrArg Value.isUndefined hstores.value_eq, .cons hstores .nil⟩
  | record fresh h => exact ⟨rfl, h.imp fun _ _ h => h.storesAlike o⟩

theorem Redacted.read_eq (h : g.Redacted g') (ht : t.Agrees t') : g'.read t' = g.read t := by
  cases h with
  | whole h => exact h.readsAlike.readWhole_eq (ht.at _)
  | record fresh h => exact readAll_congr (h.imp fun _ _ h => ⟨h.readsAlike, ht.at _⟩) fresh

/-- Columns under other names are bound to what they were bound to. -/
theorem redacted_of_bindColumns {columns : List Column} {fields fields' : List Field}
    {accessors accessors' : List Accessor}
    (hn : (columns.map (·.name)).Nodup)
    (hn' : ((columns.map (Column.rename ρ)).map (·.name)).Nodup)
    (types : (fields'.map fun f => (f.type, f.initial)) = fields.map fun f => (f.type, f.initial))
    (slots : ∀ c ∈ columns, Shape.slot? fields' (ρ c.name) = Shape.slot? fields c.name)
    (h : bindColumns true offset columns (Shape.fieldDefs fields) = .ok accessors)
    (h' : bindColumns true offset (columns.map (Column.rename ρ)) (Shape.fieldDefs fields') =
      .ok accessors') : List.Forall₂ Accessor.Redacted accessors accessors' := by
  -- Both bindings tie each column to the first field of its name, whatever was taken before it.
  have htied := tieAll_of_bindColumns hn (fun _ _ => rfl) h
  have htied' := tieAll_of_bindColumns hn' (fun _ _ => rfl) h'
  have hlen := htied.length_eq
  have hlen' := htied'.length_eq
  rw [List.length_map] at hlen'
  rw [List.forall₂_iff_get]
  refine ⟨hlen.trans hlen'.symm, fun p hp hp' => ?_⟩
  obtain ⟨c, hc⟩ : ∃ c, columns[p]? = some c := ⟨_, List.getElem?_eq_getElem (hlen ▸ hp)⟩
  have hc' : (columns.map (Column.rename ρ))[p]? = some (c.rename ρ) := by
    rw [List.getElem?_map, hc]
    rfl
  have ha : accessors[p]? = some (accessors.get ⟨p, hp⟩) := List.getElem?_eq_getElem hp
  have ha' : accessors'[p]? = some (accessors'.get ⟨p, hp'⟩) := List.getElem?_eq_getElem hp'
  obtain ⟨slot, hties⟩ := htied.ties p _ c ha hc
  obtain ⟨slot', hties'⟩ := htied'.ties p _ _ ha' hc'
  exact hties.redacted hties' (reports_of_bindColumns h p _ c ha hc)
    (reports_of_bindColumns h' p _ _ ha' hc') types (slots c (List.mem_of_getElem? hc))

/-- **Binding under other names leaves the same**, once names are left out. -/
theorem redacted_of_ofShape {shape shape' : Shape} {columns : Columns} {side side' : String}
    (hshape : shape.Renames ρ columns.columns shape')
    (hn : (columns.columns.map (·.name)).Nodup)
    (hn' : ((columns.columns.map (Column.rename ρ)).map (·.name)).Nodup)
    (h : ofShape shape columns offset side true = .ok g)
    (h' : ofShape shape' (columns.rename ρ) offset side' true = .ok g') : g.Redacted g' := by
  cases hshape with
  | scalar scalar =>
      obtain ⟨c, a, _, ha, rfl⟩ := ofShape_scalar h
      obtain ⟨c', a', _, ha', rfl⟩ := ofShape_scalar h'
      obtain ⟨mode, hmode, _, _, rfl⟩ := Accessor.ofWhole_ok ha
      obtain ⟨mode', hmode', _, _, rfl⟩ := Accessor.ofWhole_ok ha'
      cases hmode.symm.trans hmode'
      exact .whole ⟨rfl, rfl, rfl, rfl, rfl⟩
  | @record fields fields' types slots =>
      obtain ⟨accessors, ha, rfl⟩ := ofShape_record h
      obtain ⟨accessors', ha', rfl⟩ := ofShape_record h'
      have hfresh : (Shape.record fields').fresh = (Shape.record fields).fresh := by
        have hinitial := congrArg (fun types => Object.record (types.map (·.2))) types
        simp only [List.map_map] at hinitial
        exact hinitial
      rw [hfresh]
      exact .record _ (redacted_of_bindColumns hn hn' types slots ha ha')

end GroupBinding

/-! ## 4. Serializers -/

namespace Serializer

variable {s s' : Serializer}

/-- **The two serializers differ in names only**, and show none. -/
structure Redacted (ρ : String → String) (s s' : Serializer) : Prop where
  schema : s.schema.Renames ρ s'.schema
  key : s.key.Redacted s'.key
  value : s.value.Redacted s'.value

theorem redacted_of_new {schema schema' : Schema} {key key' value value' : Shape}
    (hschema : schema.Renames ρ schema') (hs : schema.Sound) (hs' : schema'.Sound)
    (hkey : key.Renames ρ schema.key.columns key')
    (hvalue : value.Renames ρ schema.value.columns value')
    (h : Serializer.new schema ⟨true⟩ key value = .ok s)
    (h' : Serializer.new schema' ⟨true⟩ key' value' = .ok s') :
    s.schema = schema ∧ s'.schema = schema' ∧ Redacted ρ s s' := by
  have hnames := hs.names
  have hnames' := hs'.names
  rw [List.map_append, List.nodup_append] at hnames hnames'
  rw [hschema.key_eq, hschema.value_eq] at hnames'
  obtain ⟨kg, hkg, h⟩ := Outcome.bind_ok h
  obtain ⟨vg, hvg, h⟩ := Outcome.bind_ok h
  cases h
  obtain ⟨kg', hkg', h'⟩ := Outcome.bind_ok h'
  obtain ⟨vg', hvg', h'⟩ := Outcome.bind_ok h'
  cases h'
  rw [hschema.key_eq] at hkg'
  rw [hschema.key_eq, hschema.value_eq, Columns.length_rename] at hvg'
  exact ⟨rfl, rfl, hschema, GroupBinding.redacted_of_ofShape hkey hnames.1 hnames'.1 hkg hkg',
    GroupBinding.redacted_of_ofShape hvalue hnames.2.1 hnames'.2.1 hvg hvg'⟩

namespace Redacted

variable (h : Redacted ρ s s')

include h

theorem serialize_alike (k : Object) (v : Option Object) :
    Outcome.Alike (EncodedTuple.Alike s.schema s'.schema) (s.serialize k v) (s'.serialize k v) := by
  refine Serializer.serialize_alike h.schema (h.key.storesAlike k) ?_
  cases v with
  | none => exact .none
  | some v => exact .some (h.value.storesAlike v)

theorem view_alike (body : List UInt8) : Outcome.Alike (View.Renames ρ)
    (s.view (s.schema.fingerprint.toBytes ++ body))
    (s'.view (s'.schema.fingerprint.toBytes ++ body)) :=
  (View.new_alike h.schema body).mapCause rfl

theorem decodeKey_eq (body : List UInt8) :
    s'.decodeKey (s'.schema.fingerprint.toBytes ++ body) =
      s.decodeKey (s.schema.fingerprint.toBytes ++ body) :=
  ((h.view_alike body).bind_eq fun _ _ ht => (h.key.read_eq ht.agrees).symm).symm

theorem decodeValue_eq (body : List UInt8) :
    s'.decodeValue (s'.schema.fingerprint.toBytes ++ body) =
      s.decodeValue (s.schema.fingerprint.toBytes ++ body) :=
  ((h.view_alike body).bind_eq fun _ _ ht => (h.value.read_eq ht.agrees).symm).symm

end Redacted

/-- **No answer of a redacting serializer depends on a name.** A row is serialized to bytes that are the
    same behind the fingerprint, or fails with the same report and the same causes; and the same bytes
    behind each schema's own fingerprint are decoded to the same object, or with the same failure. -/
theorem redacted_alike {version version' : UInt32} {keyColumns valueColumns : List Column}
    {schema schema' : Schema} {key key' value value' : Shape}
    (hdef : Schema.define version keyColumns valueColumns = .ok schema)
    (hdef' : Schema.define version' (keyColumns.map (Column.rename ρ))
      (valueColumns.map (Column.rename ρ)) = .ok schema')
    (hkey : key.Renames ρ schema.key.columns key')
    (hvalue : value.Renames ρ schema.value.columns value')
    (hnew : Serializer.new schema ⟨true⟩ key value = .ok s)
    (hnew' : Serializer.new schema' ⟨true⟩ key' value' = .ok s') :
    (∀ k v, Outcome.Alike (EncodedTuple.Alike schema schema') (s.serialize k v) (s'.serialize k v)) ∧
    ∀ body,
      s'.decodeKey (schema'.fingerprint.toBytes ++ body) =
        s.decodeKey (schema.fingerprint.toBytes ++ body) ∧
      s'.decodeValue (schema'.fingerprint.toBytes ++ body) =
        s.decodeValue (schema.fingerprint.toBytes ++ body) := by
  obtain ⟨rfl, rfl, h⟩ := redacted_of_new (Schema.renames_of_define hdef hdef')
    (Schema.sound_of_define hdef) (Schema.sound_of_define hdef') hkey hvalue hnew hnew'
  exact ⟨h.serialize_alike, fun body => ⟨h.decodeKey_eq body, h.decodeValue_eq body⟩⟩

/-- A name that is not to be shown. -/
def hidden (name : String) : String := "secret " ++ name

theorem hidden_injective : Function.Injective hidden :=
  fun _ _ h => (String.append_right_inj "secret ").mp h

/-- A number, and a mask of four bits. -/
def flagSchema (id flags : String) : Schema :=
  let key := Columns.ofList [⟨id, .number .int4, false⟩]
  let value := Columns.ofList [⟨flags, .bitmask 4, true⟩]
  { version := 1, fingerprint := Fingerprint.ofColumns key value, key, value }

/-- A record of which one field has no column. -/
def flagFields : List Field :=
  [⟨"live", .unsupported "bool", .undefined⟩, ⟨"flags", .encoded .bitmask, .undefined⟩]

/-- Bit 9 is too far. -/
def farFlags : Object := .record [.undefined, .bitSet (BitSet.ofList [0, 9])]

/-- The column's index is all that is said of it. -/
def flagFailure : Diagnostic :=
  ⟨⟨"MARSHAL_010", "failed to write field [id=1]", none, none, none, []⟩,
    [(TupleError.bitmaskTooLong 1 10 4).diagnostic.report]⟩

/-- Under either name the bit that is too far is reported in the same words. -/
theorem redacted_alike_flags : ∃ s s',
    Schema.define 1 [⟨"id", .number .int4, false⟩] [⟨"flags", .bitmask 4, true⟩] =
      .ok (flagSchema "id" "flags") ∧
    Schema.define 1 [⟨hidden "id", .number .int4, false⟩] [⟨hidden "flags", .bitmask 4, true⟩] =
      .ok (flagSchema (hidden "id") (hidden "flags")) ∧
    Serializer.new (flagSchema "id" "flags") ⟨true⟩ (.ofMode (.nullable .int4)) (.record flagFields) =
      .ok s ∧
    Serializer.new (flagSchema (hidden "id") (hidden "flags")) ⟨true⟩ (.ofMode (.nullable .int4))
      (.record (flagFields.map fun f => { f with name := hidden f.name })) = .ok s' ∧
    s.serialize (.whole (.number .int4 42)) (some farFlags) = Outcome.refuse flagFailure ∧
    s'.serialize (.whole (.number .int4 42)) (some farFlags) = Outcome.refuse flagFailure := by
  have hdef : Schema.define 1 [⟨"id", .number .int4, false⟩] [⟨"flags", .bitmask 4, true⟩] =
      .ok (flagSchema "id" "flags") := rfl
  have hdef' : Schema.define 1 [⟨hidden "id", .number .int4, false⟩]
      [⟨hidden "flags", .bitmask 4, true⟩] = .ok (flagSchema (hidden "id") (hidden "flags")) := rfl
  have hnew : Serializer.new (flagSchema "id" "flags") ⟨true⟩ (.ofMode (.nullable .int4))
      (.record flagFields) = .ok _ := rfl
  have hnew' : Serializer.new (flagSchema (hidden "id") (hidden "flags")) ⟨true⟩
      (.ofMode (.nullable .int4))
      (.record (flagFields.map fun f => { f with name := hidden f.name })) = .ok _ := rfl
  have halike := (redacted_alike (ρ := hidden) hdef hdef' (.scalar _)
    (Shape.renames_of_injective hidden_injective _ _) hnew hnew').1
      (.whole (.number .int4 42)) (some farFlags)
  refine ⟨_, _, hdef, hdef', hnew, hnew', ?_, ?_⟩
  · rfl
  · exact halike.fault_eq rfl

end Serializer

end RowCodec
