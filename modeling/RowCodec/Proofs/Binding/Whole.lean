import RowCodec.Proofs.Binding.Alike
import RowCodec.Proofs.Binding.Decoding
import Mathlib.Data.List.Forall2

/-!
# A whole object is a record of one field

A key or value that is one column can be bound as a whole, or as a record with one field of the column's
name. The two bindings are made, written, measured and read along different paths, and nothing that a
serializer answers tells them apart.

* `Side` -- one side of a row, and the serializer with that side bound to a type; `Side.bind_ok` says that
  the other side does not notice.
* `Accessor.ofWhole`, `Accessor.ofField` on the one column -- `Accessor.asWhole` and `Accessor.asField`
  are what they make, and they store alike (`storesAlike_asField`).
* `read_asField` -- they are read alike: the object, or the object in a record, or the same report.
* `Serializer.whole_as_field` -- **the two serializers answer alike.**
-/

namespace RowCodec

variable {schema : Schema} {config : Config} {c : Column} {index : Nat} {mode : Mode} {redact : Bool}
  {a : Accessor} {t : View} {v initial : Value}

/-! ## 1. One column -/

theorem Value.isUndefined_of_ne (hv : v ≠ .undefined) : v.isUndefined = false := by
  cases v with
  | undefined => exact absurd rfl hv
  | _ => rfl

namespace Accessor

/-- The column, bound to a whole object. -/
def asWhole (c : Column) (index : Nat) (mode : Mode) (redact : Bool) : Accessor :=
  { index, name := c.name, column := describe c, mode, redact, target := .whole mode }

/-- The column, bound to a record's first field. -/
def asField (c : Column) (index : Nat) (mode : Mode) (redact : Bool) : Accessor :=
  { index, name := c.name, column := describe c, mode, redact, target := .field ⟨0, mode⟩ }

theorem ofWhole_eq (h : ofWhole c index ⟨.encoded mode, mode⟩ redact = .ok a) :
    a = asWhole c index mode redact ∧ mode.isPrimitive = false ∧ mode.accepts c.type = true := by
  obtain ⟨own, hmode, hprimitive, haccepts, rfl⟩ := ofWhole_ok h
  cases hmode
  exact ⟨rfl, hprimitive, haccepts⟩

theorem ofField_eq (hp : (mode.isPrimitive && c.nullable) = false)
    (ha : mode.accepts c.type = true) :
    ofField (FieldDef.new c.name (.encoded mode) 0) c index redact =
      .ok (asField c index mode redact) := by
  have hcheck : checkColumnType c.name mode c = .ok () := if_pos ha
  unfold ofField FieldDef.new
  dsimp only [DeclaredType.mode?, Option.map_some]
  rw [hp, hcheck]
  rfl

/-- **The two accessors store alike**: the object, and a record of it. -/
theorem storesAlike_asField (own : Mode) (hv : v ≠ .undefined) :
    StoresAlike (.whole v) (.record [v]) (asWhole c index mode redact)
      (asField c index own redact) := by
  refine ⟨rfl, ?_, rfl⟩
  -- A null would be stored by the field, and make the whole object panic.
  show false = (true && v.isUndefined)
  rw [Value.isUndefined_of_ne hv]
  rfl

/-- An object, and the record of it. -/
def Wraps (whole record : Object) : Prop := ∃ v, whole = .whole v ∧ record = .record [v]

/-- **The two accessors read alike.** -/
theorem read_asField (hp : mode.isPrimitive = false) (t : View) :
    Outcome.Alike Wraps ((asWhole c index mode redact).readWhole t)
      ((asField c index mode redact).read (.record [initial]) t) := by
  have hread : (asWhole c index mode redact).readAs t mode =
      (asField c index mode redact).readAs t mode := by
    rw [readAs_of_nullable hp, readAs_of_nullable hp]
    rfl
  have hwhole : (asWhole c index mode redact).readWhole t =
      Outcome.mapCause ((asWhole c index mode redact).failure .read) do
        return .whole (← (asWhole c index mode redact).readAs t mode) := by
    rw [readAs_of_nullable hp, bind_assoc]
    rfl
  rw [hwhole, hread]
  refine Outcome.Alike.mapCause (.after _ ?_) rfl
  intro v
  exact .ok ⟨v, rfl, rfl⟩

end Accessor

/-! ## 2. One side -/

namespace GroupBinding

variable {columns : Columns} {side : String}

theorem ofShape_whole {g : GroupBinding} (hc : columns.columns = [c])
    (h : ofShape (.ofMode mode) columns index side redact = .ok g) :
    g = .whole (.asWhole c index mode redact) ∧ mode.isPrimitive = false ∧
      mode.accepts c.type = true := by
  obtain ⟨d, a, hd, ha, rfl⟩ := ofShape_scalar h
  cases hc.symm.trans hd
  obtain ⟨rfl, hp, haccepts⟩ := Accessor.ofWhole_eq ha
  exact ⟨rfl, hp, haccepts⟩

theorem ofShape_field (index : Nat) (side : String) (redact : Bool) (initial : Value)
    (hc : columns.columns = [c]) (hp : (mode.isPrimitive && c.nullable) = false)
    (ha : mode.accepts c.type = true) :
    ofShape (.record [⟨c.name, .encoded mode, initial⟩]) columns index side redact =
      .ok (.record (.record [initial]) [.asField c index mode redact]) := by
  have htake : FieldDef.take c.name (Shape.fieldDefs [⟨c.name, .encoded mode, initial⟩]) =
      some (FieldDef.new c.name (.encoded mode) 0, []) := if_pos rfl
  unfold ofShape Shape.offer ofOffer
  dsimp only
  rw [hc]
  unfold bindColumns
  rw [htake]
  dsimp only
  rw [Accessor.ofField_eq hp ha]
  rfl

theorem storesAlike_field (own : Mode) (fresh : Object) (hv : v ≠ .undefined) :
    StoresAlike (.whole (.asWhole c index mode redact)) (.record fresh [.asField c index own redact])
      (.whole v) (.record [v]) := by
  refine ⟨?_, .cons (Accessor.storesAlike_asField own hv) .nil⟩
  exact (Value.isUndefined_of_ne hv).symm

theorem read_field (hp : mode.isPrimitive = false) (t : View) :
    Outcome.Alike Accessor.Wraps ((whole (.asWhole c index mode redact)).read t)
      ((record (.record [initial]) [.asField c index mode redact]).read t) := by
  have hsingle : (record (.record [initial]) [.asField c index mode redact]).read t =
      (Accessor.asField c index mode redact).read (.record [initial]) t := bind_pure _
  rw [hsingle]
  exact Accessor.read_asField hp t

end GroupBinding

/-! ## 3. Both sides -/

/-- A side of a row. -/
inductive Side where
  | key | value

namespace Side

/-- The side's columns. -/
def columns : Side → Schema → Columns
  | key, schema => schema.key
  | value, schema => schema.value

/-- The index of the side's first column. -/
def offset : Side → Schema → Nat
  | key, _ => 0
  | value, schema => schema.key.length

/-- The side as reports name it. -/
def text : Side → String
  | key => "key"
  | value => "value"

/-- A serializer for a type of the side's objects and a type of the other's. -/
def bind (side : Side) (schema : Schema) (config : Config) (own other : Shape) :
    Except BindingError Serializer :=
  match side with
  | key => Serializer.new schema config own other
  | value => Serializer.new schema config other own

/-- A serializer of two bound groups. -/
def join (side : Side) (schema : Schema) (config : Config) (own other : GroupBinding) : Serializer :=
  match side with
  | key => { schema, config, key := own, value := other }
  | value => { schema, config, key := other, value := own }

/-- What a row is completed with: a key goes with a value or none, a value goes with a key. -/
def Other : Side → Type
  | key => Option Object
  | value => Object

/-- The tuple of the side's object and the rest of the row. -/
def serialize : (side : Side) → Serializer → Object → side.Other → Outcome Diagnostic EncodedTuple
  | key, s, k, v => s.serialize k v
  | value, s, v, k => s.serialize k (some v)

/-- The side's object in a tuple. -/
def decode (side : Side) (s : Serializer) (bytes : List UInt8) : Outcome Diagnostic Object :=
  match side with
  | key => s.decodeKey bytes
  | value => s.decodeValue bytes

variable {side : Side} {own other : Shape} {s : Serializer} {g g' og : GroupBinding}

/-- **A bound side**, and that it can be bound to another type while the other side stays. -/
theorem bind_ok (h : side.bind schema config own other = .ok s) :
    ∃ g og,
      GroupBinding.ofShape own (side.columns schema) (side.offset schema) side.text
        config.redactSensitive = .ok g ∧
      s = side.join schema config g og ∧
      ∀ own' g', GroupBinding.ofShape own' (side.columns schema) (side.offset schema) side.text
          config.redactSensitive = .ok g' →
        side.bind schema config own' other = .ok (side.join schema config g' og) := by
  cases side with
  | key =>
      obtain ⟨g, hg, h⟩ := Outcome.bind_ok h
      obtain ⟨og, hog, h⟩ := Outcome.bind_ok h
      cases h
      refine ⟨g, og, hg, rfl, fun own' g' hg' => ?_⟩
      show Serializer.ofOffers schema config own'.offer other.offer = _
      unfold GroupBinding.ofShape at hg'
      unfold Serializer.ofOffers
      dsimp only [columns, offset, text] at hg' ⊢
      rw [hg', Outcome.ok_bind, hog]
      rfl
  | value =>
      obtain ⟨og, hog, h⟩ := Outcome.bind_ok h
      obtain ⟨g, hg, h⟩ := Outcome.bind_ok h
      cases h
      refine ⟨g, og, hg, rfl, fun own' g' hg' => ?_⟩
      show Serializer.ofOffers schema config other.offer own'.offer = _
      unfold GroupBinding.ofShape at hg'
      unfold Serializer.ofOffers
      dsimp only [columns, offset, text] at hg' ⊢
      rw [hog, Outcome.ok_bind, hg']
      rfl

/-- Sides that store alike are serialized alike, with the same rest of the row. -/
theorem serialize_eq {o o' : Object} (h : g.StoresAlike g' o o') (x : side.Other) :
    side.serialize (side.join schema config g' og) o' x =
      side.serialize (side.join schema config g og) o x := by
  cases side with
  | key =>
      refine Serializer.serialize_eq h ?_
      cases x with
      | none => exact .none
      | some v => exact .some (og.storesAlike_refl v)
  | value => exact Serializer.serialize_eq (og.storesAlike_refl x) (.some h)

theorem decode_alike {R : Object → Object → Prop} (h : ∀ t, Outcome.Alike R (g.read t) (g'.read t))
    (bytes : List UInt8) :
    Outcome.Alike R (side.decode (side.join schema config g og) bytes)
      (side.decode (side.join schema config g' og) bytes) := by
  cases side with
  | key => exact .after _ h
  | value => exact .after _ h

end Side

/-- **A whole object is answered for like a record of it.** Where a type is bound to a side as a whole, a
    record with one field of the type and the column's name is bound as well. The two serialize the same
    rows to the same tuples, or refuse them with the same report; they decode the same bytes to the object
    and to the record of it, or refuse them alike. A number that may be missing is serialized like one that
    is always there, where the column takes no null. -/
theorem Serializer.whole_as_field {other : Shape} {side : Side} {s : Serializer}
    (hc : (side.columns schema).columns = [c])
    (hnew : side.bind schema config (.ofMode mode) other = .ok s) (initial : Value) :
    ∃ r, side.bind schema config (.record [⟨c.name, .encoded mode, initial⟩]) other = .ok r ∧
      (∀ v x, v ≠ .undefined → side.serialize r (.record [v]) x = side.serialize s (.whole v) x) ∧
      (∀ bytes, Outcome.Alike Accessor.Wraps (side.decode s bytes) (side.decode r bytes)) ∧
      ∀ kind, mode = .nullable kind → c.nullable = false →
        ∃ p, side.bind schema config (.record [⟨c.name, .encoded (.required kind), initial⟩]) other =
            .ok p ∧
          ∀ word x, side.serialize p (.record [.number kind word]) x =
            side.serialize s (.whole (.number kind word)) x := by
  obtain ⟨g, og, hg, rfl, hrebind⟩ := side.bind_ok hnew
  obtain ⟨rfl, hp, ha⟩ := GroupBinding.ofShape_whole hc hg
  have hfield := GroupBinding.ofShape_field (side.offset schema) side.text config.redactSensitive
    initial hc (by rw [hp, Bool.false_and]) ha
  refine ⟨_, hrebind _ _ hfield, fun v x hv => ?_, fun bytes => ?_, ?_⟩
  · exact Side.serialize_eq (GroupBinding.storesAlike_field mode _ hv) x
  · exact Side.decode_alike (GroupBinding.read_field hp) bytes
  · rintro kind rfl hnull
    have ha : (Mode.required kind).accepts c.type = true := ha
    have hrequired := GroupBinding.ofShape_field (side.offset schema) side.text
      config.redactSensitive initial hc (by rw [hnull, Bool.and_false]) ha
    refine ⟨_, hrebind _ _ hrequired, fun word x => ?_⟩
    exact Side.serialize_eq (GroupBinding.storesAlike_field _ _ (by simp)) x

/-- A number, and a text that may be missing. -/
def pairSchema : Schema :=
  let key := Columns.ofList [⟨"id", .number .int4, false⟩]
  let value := Columns.ofList [⟨"note", .utf8, true⟩]
  { version := 1, fingerprint := Fingerprint.ofColumns key value, key, value }

/-- Three key types for one column, and one tuple. -/
theorem Serializer.whole_as_field_id : ∃ s r p t,
    (Side.key.columns pairSchema).columns = [⟨"id", .number .int4, false⟩] ∧
    Side.key.bind pairSchema Config.standard (.ofMode (.nullable .int4)) (.ofMode .utf8) = .ok s ∧
    Side.key.bind pairSchema Config.standard
      (.record [⟨"id", .encoded (.nullable .int4), .undefined⟩]) (.ofMode .utf8) = .ok r ∧
    Side.key.bind pairSchema Config.standard
      (.record [⟨"id", .encoded (.required .int4), .undefined⟩]) (.ofMode .utf8) = .ok p ∧
    s.serialize (.whole (.number .int4 42)) (some (.whole (.utf8 "no"))) = .ok t ∧
    r.serialize (.record [.number .int4 42]) (some (.whole (.utf8 "no"))) = .ok t ∧
    p.serialize (.record [.number .int4 42]) (some (.whole (.utf8 "no"))) = .ok t := by
  have hc : (Side.key.columns pairSchema).columns = [⟨"id", .number .int4, false⟩] := rfl
  have hnew : Side.key.bind pairSchema Config.standard (.ofMode (.nullable .int4)) (.ofMode .utf8) =
      .ok _ := rfl
  obtain ⟨r, hr, hrecord, _, hrequired⟩ := whole_as_field hc hnew .undefined
  obtain ⟨p, hp, hprimitive⟩ := hrequired .int4 rfl rfl
  refine ⟨_, r, p, _, hc, hnew, hr, hp, rfl, ?_, ?_⟩
  · exact hrecord (.number .int4 42) (some (.whole (.utf8 "no"))) (by decide)
  · exact hprimitive 42 (some (.whole (.utf8 "no")))

end RowCodec
