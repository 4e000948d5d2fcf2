import RowCodec.Proofs.Binding.Alike
import Mathlib.Data.List.Forall2
import Mathlib.Data.List.Nodup

/-!
# The order of a record's table

A column takes the field of its name out of a table that shrinks with each column. As long as no two fields
have one name, the order in which the table lists them decides nothing.

* `BoundAlike` -- two bindings that are refused for the same cause, or both made and related.
* `FieldDef.Tables` -- two tables that find related fields under every name, or none. Taking a field out of
  both leaves two such tables (`Tables.take`), and so columns are bound alike (`bindColumns_alike`).
* `Interchangeable` -- of accessors, groups and serializers: objects that correspond are stored alike, and the
  objects that are read correspond.
* `Shape.SameFields` -- two objects that hold the same values under the same names, each in the order of its
  own table.
* `Offer.Reorders` -- a type, the same type with its table in another order, and which of their objects
  correspond.
* `Serializer.interchangeable_of_reorders` -- **the two are bound alike**, and then answer alike.
-/

namespace RowCodec

/-! ## 1. Bindings that end alike -/

/-- **The two bindings end alike**: refused for the same cause, or made, and then `R` relates them. -/
inductive BoundAlike {α β : Type} (R : α → β → Prop) :
    Except BindingError α → Except BindingError β → Prop
  | refused (e : BindingError) : BoundAlike R (.error e) (.error e)
  | bound {a : α} {b : β} (h : R a b) : BoundAlike R (.ok a) (.ok b)

theorem BoundAlike.bind {α β γ ζ : Type} {R : α → β → Prop} {S : γ → ζ → Prop}
    {x : Except BindingError α} {y : Except BindingError β} {f : α → Except BindingError γ}
    {g : β → Except BindingError ζ} (h : BoundAlike R x y) (hf : ∀ a b, R a b → BoundAlike S (f a) (g b)) :
    BoundAlike S (x >>= f) (y >>= g) := by
  cases h with
  | refused e => exact .refused e
  | bound h => exact hf _ _ h

theorem BoundAlike.same {α : Type} {R : α → α → Prop} (hR : ∀ a, R a a) (x : Except BindingError α) :
    BoundAlike R x x := by
  cases x with
  | error e => exact .refused e
  | ok a => exact .bound (hR a)

/-- Two bindings that were made are related. -/
theorem BoundAlike.related {α β : Type} {R : α → β → Prop} {x : Except BindingError α}
    {y : Except BindingError β} {a : α} {b : β} (h : BoundAlike R x y) (hx : x = .ok a) (hy : y = .ok b) :
    R a b := by
  cases h with
  | refused e => cases hx
  | bound h =>
      cases hx
      cases hy
      exact h

/-! ## 2. Tables -/

section Lookup

variable {α : Type} {key : α → String} {xs ys : List α} {name : String}

theorem key_of_find? {x : α} (h : xs.find? (fun y => key y = name) = some x) :
    x ∈ xs ∧ key x = name :=
  ⟨List.mem_of_find?_eq_some h, by simpa using List.find?_some h⟩

/-- Nothing is found under a key that no entry has. -/
theorem find?_key_eq_none : xs.find? (fun y => key y = name) = none ↔ name ∉ xs.map key := by
  rw [List.find?_eq_none, List.mem_map]
  constructor
  · rintro h ⟨x, hx, hkey⟩
    exact h x hx (decide_eq_true hkey)
  · intro h x hx hkey
    exact h ⟨x, hx, of_decide_eq_true hkey⟩

/-- Where keys are distinct, an entry is found by its key. -/
theorem find?_key_iff (hn : (xs.map key).Nodup) {x : α} :
    xs.find? (fun y => key y = name) = some x ↔ x ∈ xs ∧ key x = name := by
  refine ⟨key_of_find?, ?_⟩
  rintro ⟨hx, hkey⟩
  cases hy : xs.find? fun y => key y = name with
  | none => exact absurd (hkey ▸ List.mem_map_of_mem hx) (find?_key_eq_none.mp hy)
  | some y =>
      obtain ⟨hmem, hname⟩ := key_of_find? hy
      rw [List.inj_on_of_nodup_map hn hmem hx (hname.trans hkey.symm)]

/-- **Where keys are distinct, the order of the entries decides nothing.** -/
theorem find?_eq_of_perm (hn : (xs.map key).Nodup) (hp : xs.Perm ys) (name : String) :
    ys.find? (fun y => key y = name) = xs.find? fun y => key y = name := by
  apply Option.ext
  intro x
  rw [find?_key_iff ((hp.map key).nodup_iff.mp hn), find?_key_iff hn, hp.mem_iff]

end Lookup

namespace FieldDef

/-- Taking a field leaves the others. -/
theorem perm_of_take : ∀ {fields others : List FieldDef} {name : String} {f : FieldDef},
    take name fields = some (f, others) → fields.Perm (f :: others)
  | [], _, _, _, h => by cases h
  | d :: rest, others, name, f, h => by
      unfold take at h
      split at h
      · cases h
        exact .refl _
      · cases hrest : take name rest with
        | none =>
            rw [hrest] at h
            cases h
        | some found =>
            rw [hrest] at h
            cases h
            exact ((perm_of_take hrest).cons d).trans (.swap _ _ _)

/-- **The two tables find related fields** under every name, or none in both. No name occurs twice in a
    table. -/
structure Tables (R : FieldDef → FieldDef → Prop) (fields fields' : List FieldDef) : Prop where
  names : (fields.map (·.name)).Nodup
  names' : (fields'.map (·.name)).Nodup
  find : ∀ name : String,
    Option.Rel R (fields.find? fun d => d.name = name) (fields'.find? fun d => d.name = name)

/-- What is left of a table with distinct names: no field of the name that was taken. -/
theorem names_of_take {fields others : List FieldDef} {name : String} {f : FieldDef}
    (hn : (fields.map (·.name)).Nodup) (h : take name fields = some (f, others)) :
    (others.map (·.name)).Nodup ∧ others.find? (fun d => d.name = name) = none := by
  have hleft := ((perm_of_take h).map (·.name)).nodup_iff.mp hn
  rw [List.map_cons, List.nodup_cons] at hleft
  rw [(key_of_find? (take_eq_some h).1).2] at hleft
  exact ⟨hleft.2, find?_key_eq_none.mpr hleft.1⟩

/-- **Taking the field of a name out of both tables** gives related fields, and leaves two such tables. -/
theorem Tables.take {R : FieldDef → FieldDef → Prop} {fields fields' : List FieldDef}
    (h : Tables R fields fields') (name : String) :
    Option.Rel (fun taken taken' => R taken.1 taken'.1 ∧ Tables R taken.2 taken'.2)
      (FieldDef.take name fields) (FieldDef.take name fields') := by
  have hfind := h.find name
  cases ht : FieldDef.take name fields with
  | none =>
      rw [take_eq_none ht] at hfind
      cases ht' : FieldDef.take name fields' with
      | none => exact .none
      | some taken' =>
          rw [(take_eq_some ht').1] at hfind
          cases hfind
  | some taken =>
      obtain ⟨hf, hothers⟩ := take_eq_some ht
      rw [hf] at hfind
      cases ht' : FieldDef.take name fields' with
      | none =>
          rw [take_eq_none ht'] at hfind
          cases hfind
      | some taken' =>
          obtain ⟨hf', hothers'⟩ := take_eq_some ht'
          obtain ⟨hn, hgone⟩ := names_of_take h.names ht
          obtain ⟨hn', hgone'⟩ := names_of_take h.names' ht'
          rw [hf'] at hfind
          cases hfind with
          | some hR =>
              refine .some ⟨hR, hn, hn', fun other => ?_⟩
              by_cases hother : other = name
              · rw [hother, hgone, hgone']
                exact .none
              · rw [hothers other hother, hothers' other hother]
                exact h.find other

/-- A table in another order. -/
theorem Tables.of_perm {fields fields' : List FieldDef} (hn : (fields.map (·.name)).Nodup)
    (hp : fields.Perm fields') : Tables Eq fields fields' := by
  refine ⟨hn, (hp.map _).nodup_iff.mp hn, fun name => ?_⟩
  rw [find?_eq_of_perm hn hp name]
  cases fields.find? fun d => d.name = name with
  | none => exact .none
  | some d => exact .some rfl

end FieldDef

/-- **Columns are bound alike to two tables**: a column is left without a field in both, or bound to related
    fields, which what comes behind it does not find any more. -/
theorem GroupBinding.bindColumns_alike {R : FieldDef → FieldDef → Prop} {Q : Accessor → Accessor → Prop}
    {redact : Bool} (hQ : ∀ {f f' : FieldDef} (c : Column) (index : Nat), R f f' →
      BoundAlike Q (Accessor.ofField f c index redact) (Accessor.ofField f' c index redact)) :
    ∀ {columns : List Column} {fields fields' : List FieldDef} (index : Nat),
      FieldDef.Tables R fields fields' →
      BoundAlike (List.Forall₂ Q) (bindColumns redact index columns fields)
        (bindColumns redact index columns fields')
  | [], _, _, _, _ => .bound .nil
  | c :: rest, fields, fields', index, h => by
      have htake := h.take c.name
      unfold bindColumns
      generalize FieldDef.take c.name fields = taken at htake ⊢
      generalize FieldDef.take c.name fields' = taken' at htake ⊢
      cases htake with
      | none => exact .refused _
      | some htake =>
          obtain ⟨hR, hothers⟩ := htake
          refine (hQ c index hR).bind fun a a' ha => ?_
          refine (bindColumns_alike hQ (index + 1) hothers).bind fun more more' hmore => ?_
          exact .bound (.cons ha hmore)

/-! ## 3. What answers alike -/

/-- **The two accessors are interchangeable**: they store objects alike that correspond, and fill the bound
    field of such objects alike. -/
structure Accessor.Interchangeable (R : Object → Object → Prop) (a a' : Accessor) : Prop where
  stores : ∀ {o o' : Object}, R o o' → StoresAlike o o' a a'
  reads : ∀ {o o' : Object} (t : View), R o o' → Outcome.Alike R (a.read o t) (a'.read o' t)

theorem Accessor.interchangeable_self (a : Accessor) : a.Interchangeable Eq a := by
  refine ⟨?_, ?_⟩
  · rintro o _ rfl
    exact ⟨rfl, rfl, rfl⟩
  · rintro o _ t rfl
    exact .same _

namespace GroupBinding

/-- **The two groups are interchangeable.** -/
structure Interchangeable (R : Object → Object → Prop) (g g' : GroupBinding) : Prop where
  stores : ∀ {o o' : Object}, R o o' → g.StoresAlike g' o o'
  reads : ∀ t : View, Outcome.Alike R (g.read t) (g'.read t)

theorem interchangeable_self (g : GroupBinding) : g.Interchangeable Eq g := by
  refine ⟨?_, fun t => .same _⟩
  rintro o _ rfl
  exact g.storesAlike_refl o

/-- Filling two fresh objects column by column. -/
theorem readAll_alike {R : Object → Object → Prop} {t : View} {accessors accessors' : List Accessor}
    (h : List.Forall₂ (Accessor.Interchangeable R) accessors accessors') :
    ∀ {o o' : Object}, R o o' → Outcome.Alike R (readAll t accessors o) (readAll t accessors' o') := by
  induction h with
  | nil => exact fun ho => .ok ho
  | cons ha _ ih => exact fun ho => (ha.reads t ho).bind fun _ _ hread => ih hread

theorem interchangeable_record {R : Object → Object → Prop} {fresh fresh' : Object}
    {accessors accessors' : List Accessor} (hfresh : R fresh fresh')
    (h : List.Forall₂ (Accessor.Interchangeable R) accessors accessors') :
    (record fresh accessors).Interchangeable R (record fresh' accessors') :=
  ⟨fun ho => ⟨rfl, h.imp fun _ _ ha => ha.stores ho⟩, fun _ => readAll_alike h hfresh⟩

end GroupBinding

/-- **The two serializers are interchangeable**: rows of objects that correspond have the same texts and the
    same tuple, or fail with the same report. From any bytes they decode objects that correspond, or fail
    with the same report. -/
structure Serializer.Interchangeable (K V : Object → Object → Prop) (s s' : Serializer) : Prop where
  statistics : ∀ {k k' v v'}, K k k' → Option.Rel V v v' → s'.statistics k' v' = s.statistics k v
  serialize : ∀ {k k' v v'}, K k k' → Option.Rel V v v' → s'.serialize k' v' = s.serialize k v
  decodeKey : ∀ bytes, Outcome.Alike K (s.decodeKey bytes) (s'.decodeKey bytes)
  decodeValue : ∀ bytes, Outcome.Alike V (s.decodeValue bytes) (s'.decodeValue bytes)

theorem Serializer.interchangeable_of_groups {K V : Object → Object → Prop} {schema : Schema}
    {config : Config} {kg kg' vg vg' : GroupBinding} (hk : kg.Interchangeable K kg')
    (hv : vg.Interchangeable V vg') :
    Interchangeable K V ⟨schema, config, kg, vg⟩ ⟨schema, config, kg', vg'⟩ := by
  have hrel : ∀ {v v'}, Option.Rel V v v' → Option.Rel (vg.StoresAlike vg') v v' := by
    intro v v' h
    cases h with
    | none => exact .none
    | some h => exact .some (hv.stores h)
  refine ⟨fun hkey hvalue => ?_, fun hkey hvalue => ?_, fun bytes => ?_, fun bytes => ?_⟩
  · exact statistics_eq (.refl schema) (hk.stores hkey) (hrel hvalue)
  · exact serialize_eq (hk.stores hkey) (hrel hvalue)
  · exact .after _ hk.reads
  · exact .after _ hv.reads

/-! ## 4. Records whose fields stand in another order -/

namespace Shape

/-- The value of a record's first field of a name. -/
def named (fields : List Field) (values : List Value) (name : String) : Option Value :=
  (slot? fields name).bind fun slot => values[slot]?

/-- **The two records hold the same values under the same names**, each in the order of its own table. -/
inductive SameFields (fields fields' : List Field) : Object → Object → Prop
  | record {values values' : List Value} (h : ∀ name, named fields' values' name = named fields values name) :
      SameFields fields fields' (.record values) (.record values')

variable {fields fields' : List Field} {name : String} {slot slot' : Nat} {f : Field}

theorem slot?_eq_some (h : slot? fields name = some slot) : ∃ f, fields[slot]? = some f ∧ f.name = name := by
  obtain ⟨hlt, hname, _⟩ := List.findIdx?_eq_some_iff_getElem.mp h
  exact ⟨_, List.getElem?_eq_getElem hlt, of_decide_eq_true hname⟩

theorem named_eq (h : slot? fields name = some slot) (values : List Value) :
    named fields values name = values[slot]? := by
  unfold named
  rw [h, Option.bind_some]

/-- Setting the field of a name sets nothing under another name. -/
theorem named_set (h : slot? fields name = some slot) (values : List Value) (v : Value) (other : String) :
    named fields (values.set slot v) other =
      if other = name then (named fields values name).map fun _ => v else named fields values other := by
  by_cases hother : other = name
  · rw [if_pos hother, hother, named_eq h, named_eq h, List.getElem?_set_self']
    rfl
  · rw [if_neg hother]
    unfold named
    cases hs : slot? fields other with
    | none => rfl
    | some place =>
        have hne : slot ≠ place := by
          rintro rfl
          obtain ⟨f, hf, hname⟩ := slot?_eq_some h
          obtain ⟨g, hg, hname'⟩ := slot?_eq_some hs
          cases hf.symm.trans hg
          exact hother (hname'.symm.trans hname)
        rw [Option.bind_some, Option.bind_some, List.getElem?_set_ne hne]

theorem SameFields.get_eq {o o' : Object} (h : SameFields fields fields' o o')
    (hs : slot? fields name = some slot) (hs' : slot? fields' name = some slot') :
    o'.get slot' = o.get slot := by
  cases h with
  | record h =>
      have hname := h name
      rw [named_eq hs, named_eq hs'] at hname
      exact congrArg (·.getD .undefined) hname

theorem SameFields.set {o o' : Object} (h : SameFields fields fields' o o')
    (hs : slot? fields name = some slot) (hs' : slot? fields' name = some slot') (v : Value) :
    SameFields fields fields' (o.set slot v) (o'.set slot' v) := by
  cases h with
  | record h =>
      refine .record fun other => ?_
      rw [named_set hs, named_set hs', h name, h other]

/-- **The same field, offered by two tables** that have it at different slots. -/
def Moved (fields fields' : List Field) (d d' : FieldDef) : Prop :=
  ∃ (f : Field) (slot slot' : Nat), slot? fields f.name = some slot ∧ slot? fields' f.name = some slot' ∧
    d = FieldDef.new f.name f.type slot ∧ d' = FieldDef.new f.name f.type slot'

/-- The two tables offer the same fields. -/
theorem tables_of_perm (hn : (fields.map (·.name)).Nodup) (hp : fields.Perm fields') :
    FieldDef.Tables (Moved fields fields') (fieldDefs fields) (fieldDefs fields') := by
  have hnames : ((fieldDefs fields).map (·.name)).Perm ((fieldDefs fields').map (·.name)) := by
    rw [names_fieldDefs, names_fieldDefs]
    exact hp.map _
  have hdefs : ((fieldDefs fields).map (·.name)).Nodup := by rwa [names_fieldDefs]
  refine ⟨hdefs, hnames.nodup_iff.mp hdefs, fun name => ?_⟩
  cases hd : (fieldDefs fields).find? fun d => d.name = name with
  | none =>
      rw [find?_key_eq_none, hnames.mem_iff, ← find?_key_eq_none] at hd
      rw [hd]
      exact .none
  | some d =>
      cases hd' : (fieldDefs fields').find? fun d => d.name = name with
      | none =>
          rw [find?_key_eq_none, ← hnames.mem_iff, ← find?_key_eq_none, hd] at hd'
          cases hd'
      | some d' =>
          obtain ⟨slot, f, hs, hf, rfl⟩ := find?_fieldDefs hd
          obtain ⟨slot', f', hs', hf', rfl⟩ := find?_fieldDefs hd'
          have hname : f.name = name := (key_of_find? hd).2
          have hname' : f'.name = name := (key_of_find? hd').2
          -- There is one field of the name, and both tables have it.
          have hsame : f' = f := List.inj_on_of_nodup_map hn
            (hp.mem_iff.mpr (List.mem_of_getElem? hf')) (List.mem_of_getElem? hf) (hname'.trans hname.symm)
          subst hsame
          rw [← hname] at hs hs'
          exact .some ⟨f', slot, slot', hs, hs', rfl, rfl⟩

/-- **The field is bound to interchangeable accessors** at its two slots, or refused for the same cause. -/
theorem Moved.ofField {d d' : FieldDef} (h : Moved fields fields' d d') (c : Column) (index : Nat)
    (redact : Bool) : BoundAlike (Accessor.Interchangeable (SameFields fields fields'))
      (Accessor.ofField d c index redact) (Accessor.ofField d' c index redact) := by
  obtain ⟨f, slot, slot', hs, hs', rfl, rfl⟩ := h
  unfold Accessor.ofField FieldDef.new
  cases f.type with
  | unsupported name => exact .refused _
  | encoded mode =>
      dsimp only [DeclaredType.mode?, Option.map_some]
      split
      · exact .refused _
      · refine (BoundAlike.same (R := Eq) (fun _ => rfl) _).bind fun _ _ _ => ?_
        refine .bound ⟨fun ho => ⟨ho.get_eq hs hs', rfl, rfl⟩, fun t ho => ?_⟩
        exact Outcome.Alike.mapCause (.after _ fun v => .ok (ho.set hs hs' v)) rfl

/-- The values that a table gives its fields, by name. -/
theorem named_map (fields : List Field) (value : Field → Value) (name : String) :
    named fields (fields.map value) name = (fields.find? fun f => f.name = name).map value := by
  unfold named slot?
  rw [List.find?_eq_bind_findIdx?_getElem?, Option.map_bind]
  simp only [List.getElem?_map]
  rfl

theorem sameFields_fresh (hn : (fields.map (·.name)).Nodup) (hp : fields.Perm fields') :
    SameFields fields fields' (record fields).fresh (record fields').fresh := by
  refine .record fun name => ?_
  rw [named_map, named_map, find?_eq_of_perm hn hp]

/-- **Every record has its like** in the order of the other table. -/
theorem sameFields_reordered (hn : (fields.map (·.name)).Nodup) (hp : fields.Perm fields')
    {values : List Value} (hlen : values.length = fields.length) :
    SameFields fields fields' (.record values)
      (.record (fields'.map fun f => (named fields values f.name).getD .undefined)) := by
  refine .record fun name => ?_
  rw [named_map, find?_eq_of_perm hn hp, List.find?_eq_bind_findIdx?_getElem?]
  show ((slot? fields name).bind fun slot => fields[slot]?).map _ = _
  cases hs : slot? fields name with
  | none =>
      unfold named
      rw [hs]
      rfl
  | some slot =>
      obtain ⟨f, hf, hname⟩ := slot?_eq_some hs
      have hslot : slot < values.length := hlen ▸ (List.getElem?_eq_some_iff.mp hf).1
      rw [Option.bind_some, hf, Option.map_some, hname, named_eq hs, List.getElem?_eq_getElem hslot]
      rfl

end Shape

/-- **A type, the same with its table in another order**, and which of their objects correspond. -/
inductive Offer.Reorders : Offer → Offer → (Object → Object → Prop) → Prop
  /-- Any type, left as it is. -/
  | same (offer : Offer) : Reorders offer offer Eq
  /-- A record whose fields are offered in another order. Its objects are the same. -/
  | table {fields fields' : List FieldDef} (fresh : Object) (names : (fields.map (·.name)).Nodup)
      (perm : fields.Perm fields') : Reorders (.record fresh fields) (.record fresh fields') Eq
  /-- A record whose objects list their values in the order of the table, too. -/
  | record {fields fields' : List Field} (names : (fields.map (·.name)).Nodup)
      (perm : fields.Perm fields') :
      Reorders (Shape.record fields).offer (Shape.record fields').offer (Shape.SameFields fields fields')

/-- A group is bound alike to the two types. -/
theorem Offer.Reorders.ofOffer {offer offer' : Offer} {R : Object → Object → Prop}
    (h : offer.Reorders offer' R) (columns : Columns) (offset : Nat) (side : String) (redact : Bool) :
    BoundAlike (GroupBinding.Interchangeable R) (GroupBinding.ofOffer offer columns offset side redact)
      (GroupBinding.ofOffer offer' columns offset side redact) := by
  cases h with
  | same offer => exact .same GroupBinding.interchangeable_self _
  | table fresh names perm =>
      have hfield : ∀ {f f' : FieldDef} (c : Column) (index : Nat), f = f' →
          BoundAlike (Accessor.Interchangeable Eq) (Accessor.ofField f c index redact)
            (Accessor.ofField f' c index redact) := by
        rintro f _ c index rfl
        exact .same Accessor.interchangeable_self _
      refine (GroupBinding.bindColumns_alike hfield offset (.of_perm names perm)).bind fun _ _ h => ?_
      exact .bound (GroupBinding.interchangeable_record rfl h)
  | record names perm =>
      have htables := Shape.tables_of_perm names perm
      refine (GroupBinding.bindColumns_alike (fun c index hd => hd.ofField c index redact) offset
        htables).bind fun _ _ h => ?_
      exact .bound (GroupBinding.interchangeable_record (Shape.sameFields_fresh names perm) h)

/-- **The order of a record's table does not matter.** Two types that differ in it are both bound to a schema,
    or refused for the same cause. Once bound, they are measured and serialized alike, from objects that
    correspond, and decoded alike, to objects that correspond. Where the table alone is in another order,
    corresponding objects are the same. -/
theorem Serializer.interchangeable_of_reorders {key key' value value' : Offer}
    {K V : Object → Object → Prop} (hkey : key.Reorders key' K) (hvalue : value.Reorders value' V)
    (schema : Schema) (config : Config) :
    BoundAlike (Interchangeable K V) (ofOffers schema config key value)
      (ofOffers schema config key' value') := by
  refine (hkey.ofOffer schema.key 0 "key" config.redactSensitive).bind fun kg kg' hk => ?_
  refine (hvalue.ofOffer schema.value schema.key.length "value" config.redactSensitive).bind
    fun vg vg' hv => ?_
  exact .bound (interchangeable_of_groups hk hv)

/-- A number, and a note with a count. The count is laid out first. -/
def remarkSchema : Schema :=
  let key := Columns.ofList [⟨"id", .number .int4, false⟩]
  let value := Columns.ofList [⟨"note", .utf8, true⟩, ⟨"count", .number .int4, true⟩]
  { version := 1, fingerprint := Fingerprint.ofColumns key value, key, value }

/-- A record of which one field has no column. -/
def remarkFields : List Field :=
  [⟨"note", .encoded .utf8, .undefined⟩, ⟨"flag", .unsupported "bool", .undefined⟩,
    ⟨"count", .encoded (.nullable .int4), .undefined⟩]

/-- The fields are listed in one order and in the other, for the same objects (`r`) and for objects that list
    their values in the other order, too (`s'`). One tuple is written. -/
theorem Serializer.interchangeable_of_reorders_remark : ∃ s r s' t,
    (remarkFields.map (·.name)).Nodup ∧ remarkFields.Perm remarkFields.reverse ∧
    ofOffers remarkSchema Config.standard (Shape.ofMode (.nullable .int4)).offer
      (Shape.record remarkFields).offer = .ok s ∧
    ofOffers remarkSchema Config.standard (Shape.ofMode (.nullable .int4)).offer
      (.record (Shape.record remarkFields).fresh (Shape.fieldDefs remarkFields).reverse) = .ok r ∧
    ofOffers remarkSchema Config.standard (Shape.ofMode (.nullable .int4)).offer
      (Shape.record remarkFields.reverse).offer = .ok s' ∧
    s.serialize (.whole (.number .int4 42))
      (some (.record [.utf8 "no", .undefined, .number .int4 7])) = .ok t ∧
    r.serialize (.whole (.number .int4 42))
      (some (.record [.utf8 "no", .undefined, .number .int4 7])) = .ok t ∧
    s'.serialize (.whole (.number .int4 42))
      (some (.record [.number .int4 7, .undefined, .utf8 "no"])) = .ok t := by
  have hnames : (remarkFields.map (·.name)).Nodup := by decide
  have hperm : remarkFields.Perm remarkFields.reverse := (List.reverse_perm _).symm
  have hdefs : ((Shape.fieldDefs remarkFields).map (·.name)).Nodup := by
    rwa [Shape.names_fieldDefs]
  have hsame := Shape.sameFields_reordered hnames hperm
    (rfl : [Value.utf8 "no", .undefined, .number .int4 7].length = remarkFields.length)
  have hnew : ofOffers remarkSchema Config.standard (Shape.ofMode (.nullable .int4)).offer
      (Shape.record remarkFields).offer = .ok _ := rfl
  have hnewr : ofOffers remarkSchema Config.standard (Shape.ofMode (.nullable .int4)).offer
      (.record (Shape.record remarkFields).fresh (Shape.fieldDefs remarkFields).reverse) = .ok _ := rfl
  have hnews : ofOffers remarkSchema Config.standard (Shape.ofMode (.nullable .int4)).offer
      (Shape.record remarkFields.reverse).offer = .ok _ := rfl
  have htable := (interchangeable_of_reorders (.same _) (.table _ hdefs (List.reverse_perm _).symm)
    remarkSchema Config.standard).related hnew hnewr
  have hrecord := (interchangeable_of_reorders (.same _) (.record hnames hperm)
    remarkSchema Config.standard).related hnew hnews
  refine ⟨_, _, _, _, hnames, hperm, hnew, hnewr, hnews, rfl, ?_, ?_⟩
  · exact (htable.serialize rfl (.some rfl)).trans rfl
  · exact (hrecord.serialize rfl (.some hsame)).trans rfl

end RowCodec
