import RowCodec.Proofs.Binding.Bound

/-!
# Which types can be bound

Binding walks the columns in stored order and takes a field out of a shrinking table at each. This is what it
decides, said without the walk: which types a column group accepts, and for which cause it refuses the
others.

* `FieldDef.Fits`, `FieldDef.Refuses` -- a field that a column can be bound to, and the first check that
  another one fails. `ScalarShape.Fits`, `ScalarShape.Refuses` are the same of a whole object.
* `Column.Binds`, `Column.RefusesTable` -- a column and a table: the first field of the column's name counts.
* `Offer.Binds`, `Offer.Refuses` -- a type and a column group: a record is refused for the first column that
  is, in stored order.
* `Decided` -- a call that is answered if a condition holds, and else refused for a cause that is known.
  `Decided.bind` puts two such calls in sequence, and so the proofs follow the code.
* `Serializer.binds_iff` -- **binding accepts exactly the compatible types**, and refuses the others for the
  cause that stands first.
-/

namespace RowCodec

/-! ## 1. Calls that decide a condition -/

/-- **The call decides whether a condition holds**: then it is answered, and otherwise refused, with a cause
    that is told under its code. -/
structure Decided {α : Type} (x : Except BindingError α) (condition : Prop)
    (refuses : String → BindingError → Prop) : Prop where
  answered : condition → ∃ a, x = .ok a
  refused : ∀ {code : String} {e : BindingError}, refuses code e → x = .error e ∧ e.code = code
  total : condition ∨ ∃ code e, refuses code e

namespace Decided

variable {α β : Type} {x : Except BindingError α} {p q : Prop} {r t : String → BindingError → Prop}

theorem ok (a : α) : Decided (.ok a) True fun _ _ => False :=
  ⟨fun _ => ⟨a, rfl⟩, fun h => h.elim, Or.inl trivial⟩

theorem congr (h : Decided x p r) (hp : p ↔ q) (hr : ∀ code e, r code e ↔ t code e) :
    Decided x q t := by
  refine ⟨fun hq => h.answered (hp.mpr hq), fun ht => h.refused ((hr _ _).mpr ht), ?_⟩
  rcases h.total with hx | ⟨code, e, hx⟩
  · exact Or.inl (hp.mp hx)
  · exact Or.inr ⟨code, e, (hr code e).mp hx⟩

/-- **Two calls in sequence** decide both conditions; the first one's cause comes first. -/
theorem bind {f : α → Except BindingError β} (h : Decided x p r) (hf : ∀ a, Decided (f a) q t) :
    Decided (x >>= f) (p ∧ q) fun code e => r code e ∨ p ∧ t code e := by
  refine ⟨?_, ?_, ?_⟩
  · rintro ⟨hp, hq⟩
    obtain ⟨a, rfl⟩ := h.answered hp
    exact (hf a).answered hq
  · rintro code e (hr | ⟨hp, ht⟩)
    · obtain ⟨rfl, hcode⟩ := h.refused hr
      exact ⟨rfl, hcode⟩
    · obtain ⟨a, rfl⟩ := h.answered hp
      exact (hf a).refused ht
  · rcases h.total with hp | ⟨code, e, hr⟩
    · obtain ⟨a, _⟩ := h.answered hp
      rcases (hf a).total with hq | ⟨code, e, ht⟩
      · exact Or.inl ⟨hp, hq⟩
      · exact Or.inr ⟨code, e, Or.inr ⟨hp, ht⟩⟩
    · exact Or.inr ⟨code, e, Or.inl hr⟩

/-- What is made of the answer decides nothing more. -/
theorem map (h : Decided x p r) (f : α → β) :
    Decided (x >>= fun a => .ok (f a) : Except BindingError β) p r := by
  refine (h.bind fun a => .ok (f a)).congr (and_iff_left trivial) fun code e => ?_
  exact or_iff_left fun hfalse => hfalse.2

/-- **How the call ends says whether the condition holds**, and if not, why. -/
theorem iff (h : Decided x p r) : ((∃ a, x = .ok a) ↔ p) ∧ ∀ e, x = .error e ↔ r e.code e := by
  have hno : ∀ {a : α} {code : String} {e : BindingError}, x = .ok a → ¬ r code e := by
    intro a code e hx hr
    cases hx.symm.trans (h.refused hr).1
  refine ⟨⟨?_, h.answered⟩, fun e => ⟨fun hx => ?_, fun hr => (h.refused hr).1⟩⟩
  · rintro ⟨a, hx⟩
    rcases h.total with hp | ⟨code, e, hr⟩
    · exact hp
    · exact absurd hr (hno hx)
  · rcases h.total with hp | ⟨code, e', hr⟩
    · obtain ⟨a, ha⟩ := h.answered hp
      cases ha.symm.trans hx
    · obtain ⟨hx', rfl⟩ := h.refused hr
      cases hx'.symm.trans hx
      exact hr

end Decided

/-! ## 2. One column -/

/-- **A column can be bound to the field**: its type has a binary form and comes with a binding, is no number
    that is always there if the column may hold a null, and is stored in columns of this type. -/
def FieldDef.Fits (f : FieldDef) (c : Column) : Prop :=
  ∃ mode binding, f.declared.mode? = some mode ∧ f.binding = some binding ∧
    ¬ (mode.isPrimitive && c.nullable) = true ∧ mode.accepts c.type = true

/-- **The first check that the field fails**, with the code of the cause. -/
inductive FieldDef.Refuses (f : FieldDef) (c : Column) : String → BindingError → Prop
  | unsupported (h : f.declared.mode? = none ∨ f.binding = none) :
      Refuses f c "MARSHAL_002" (.unsupportedType f.name f.declared)
  | primitive {mode : Mode} {binding : FieldBinding} (hm : f.declared.mode? = some mode)
      (hb : f.binding = some binding) (hp : (mode.isPrimitive && c.nullable) = true) :
      Refuses f c "MARSHAL_003" (.primitiveNullableColumn f.name f.declared c.name)
  | mismatch {mode : Mode} {binding : FieldBinding} (hm : f.declared.mode? = some mode)
      (hb : f.binding = some binding) (hp : ¬ (mode.isPrimitive && c.nullable) = true)
      (ha : ¬ mode.accepts c.type = true) :
      Refuses f c "MARSHAL_005" (.columnTypeMismatch f.name mode c.name c.type)

/-- **The column can hold whole objects of the type**, which are no numbers that are always there. -/
def ScalarShape.Fits (s : ScalarShape) (c : Column) : Prop :=
  ∃ mode, s.declared.mode? = some mode ∧ ¬ mode.isPrimitive = true ∧ mode.accepts c.type = true

/-- **The first check that the type fails**, with the code of the cause. -/
inductive ScalarShape.Refuses (s : ScalarShape) (c : Column) : String → BindingError → Prop
  | unsupported (hm : s.declared.mode? = none) :
      Refuses s c "MARSHAL_002" (.unsupportedType c.name s.declared)
  | primitive {mode : Mode} (hm : s.declared.mode? = some mode) (hp : mode.isPrimitive = true) :
      Refuses s c "MARSHAL_004" (.primitiveIdentity c.name s.declared)
  | mismatch {mode : Mode} (hm : s.declared.mode? = some mode) (hp : ¬ mode.isPrimitive = true)
      (ha : ¬ mode.accepts c.type = true) :
      Refuses s c "MARSHAL_005" (.columnTypeMismatch c.name mode c.name c.type)

namespace Accessor

/-- Making an accessor for a field decides whether the field fits. -/
theorem ofField_decided (f : FieldDef) (c : Column) (index : Nat) (redact : Bool) :
    Decided (ofField f c index redact) (f.Fits c) (f.Refuses c) := by
  refine ⟨?_, ?_, ?_⟩
  · rintro ⟨mode, binding, hm, hb, hp, ha⟩
    unfold ofField
    simp only [hm, hb, if_neg hp, checkColumnType, if_pos ha, Outcome.ok_bind]
    exact ⟨_, rfl⟩
  · intro code e h
    unfold ofField
    cases h with
    | unsupported h =>
        refine ⟨?_, rfl⟩
        split
        · rename_i mode binding hm hb
          rcases h with hnone | hnone
          · cases hm.symm.trans hnone
          · cases hb.symm.trans hnone
        · rfl
    | primitive hm hb hp =>
        refine ⟨?_, rfl⟩
        simp only [hm, hb, if_pos hp]
    | mismatch hm hb hp ha =>
        refine ⟨?_, rfl⟩
        simp only [hm, hb, if_neg hp, checkColumnType, if_neg ha]
        rfl
  · cases hm : f.declared.mode? with
    | none => exact Or.inr ⟨_, _, .unsupported (Or.inl hm)⟩
    | some mode =>
        cases hb : f.binding with
        | none => exact Or.inr ⟨_, _, .unsupported (Or.inr hb)⟩
        | some binding =>
            by_cases hp : (mode.isPrimitive && c.nullable) = true
            · exact Or.inr ⟨_, _, .primitive hm hb hp⟩
            · by_cases ha : mode.accepts c.type = true
              · exact Or.inl ⟨mode, binding, hm, hb, hp, ha⟩
              · exact Or.inr ⟨_, _, .mismatch hm hb hp ha⟩

/-- Making an accessor for a whole object decides whether the type fits. -/
theorem ofWhole_decided (c : Column) (index : Nat) (s : ScalarShape) (redact : Bool) :
    Decided (ofWhole c index s redact) (s.Fits c) (s.Refuses c) := by
  refine ⟨?_, ?_, ?_⟩
  · rintro ⟨mode, hm, hp, ha⟩
    unfold ofWhole
    simp only [hm, if_neg hp, checkColumnType, if_pos ha, Outcome.ok_bind]
    exact ⟨_, rfl⟩
  · intro code e h
    unfold ofWhole
    cases h with
    | unsupported hm =>
        refine ⟨?_, rfl⟩
        simp only [hm]
    | primitive hm hp =>
        refine ⟨?_, rfl⟩
        simp only [hm, if_pos hp]
    | mismatch hm hp ha =>
        refine ⟨?_, rfl⟩
        simp only [hm, if_neg hp, checkColumnType, if_neg ha]
        rfl
  · cases hm : s.declared.mode? with
    | none => exact Or.inr ⟨_, _, .unsupported hm⟩
    | some mode =>
        by_cases hp : mode.isPrimitive = true
        · exact Or.inr ⟨_, _, .primitive hm hp⟩
        · by_cases ha : mode.accepts c.type = true
          · exact Or.inl ⟨mode, hm, hp, ha⟩
          · exact Or.inr ⟨_, _, .mismatch hm hp ha⟩

end Accessor

/-! ## 3. One group -/

/-- The first field of a column's name. -/
def Column.field? (c : Column) (fields : List FieldDef) : Option FieldDef :=
  fields.find? fun f => f.name = c.name

/-- **The column can be bound to a field of the table**: to the first of its name, if any. -/
def Column.Binds (c : Column) (fields : List FieldDef) : Prop :=
  ∃ f, c.field? fields = some f ∧ f.Fits c

/-- **Why the column cannot be bound to a field of the table.** -/
inductive Column.RefusesTable (c : Column) (fields : List FieldDef) : String → BindingError → Prop
  | unknown (h : c.field? fields = none) : RefusesTable c fields "MARSHAL_001" (.unknownField c.name)
  | field {f : FieldDef} {code : String} {e : BindingError} (hf : c.field? fields = some f)
      (h : f.Refuses c code e) : RefusesTable c fields code e

/-- **The first column that cannot be bound**, in the order of the list. -/
def RefusesFirst (columns : List Column) (fields : List FieldDef) (code : String) (e : BindingError) :
    Prop :=
  ∃ before c after, columns = before ++ c :: after ∧ (∀ d ∈ before, Column.Binds d fields) ∧
    c.RefusesTable fields code e

theorem refusesFirst_cons {c : Column} {rest : List Column} {fields : List FieldDef} {code : String}
    {e : BindingError} : RefusesFirst (c :: rest) fields code e ↔
      c.RefusesTable fields code e ∨ c.Binds fields ∧ RefusesFirst rest fields code e := by
  constructor
  · rintro ⟨before, d, after, hsplit, hbefore, hd⟩
    cases before with
    | nil =>
        cases hsplit
        exact Or.inl hd
    | cons first before =>
        cases hsplit
        obtain ⟨hfirst, hbefore⟩ := List.forall_mem_cons.mp hbefore
        exact Or.inr ⟨hfirst, before, d, after, rfl, hbefore, hd⟩
  · rintro (hc | ⟨hc, before, d, after, rfl, hbefore, hd⟩)
    · exact ⟨[], c, rest, rfl, fun _ hmem => absurd hmem List.not_mem_nil, hc⟩
    · exact ⟨c :: before, d, after, rfl, List.forall_mem_cons.mpr ⟨hc, hbefore⟩, hd⟩

/-- **The type can be bound to the columns.** -/
def Offer.Binds : Offer → List Column → Prop
  | whole s, columns => ∃ c, columns = [c] ∧ s.Fits c
  | record _ fields, columns => ∀ c ∈ columns, Column.Binds c fields

/-- **Why the type cannot be bound to the columns** of a side. -/
inductive Offer.Refuses (side : String) (columns : List Column) :
    Offer → String → BindingError → Prop
  | count {s : ScalarShape} (h : columns.length ≠ 1) :
      Refuses side columns (.whole s) "MARSHAL_006" (.identityColumnCount side columns.length)
  | whole {s : ScalarShape} {c : Column} {code : String} {e : BindingError} (hc : columns = [c])
      (h : s.Refuses c code e) : Refuses side columns (.whole s) code e
  | record {fresh : Object} {fields : List FieldDef} {code : String} {e : BindingError}
      (h : RefusesFirst columns fields code e) : Refuses side columns (.record fresh fields) code e

namespace GroupBinding

/-- **The walk over the columns**, by induction: the fields that are left have, for each column that is left,
    the same first field of its name as the whole table, since no two columns have one name. -/
theorem bindColumns_decided (fields : List FieldDef) (redact : Bool) :
    ∀ {columns : List Column} {left : List FieldDef} (index : Nat),
      (columns.map (·.name)).Nodup → (∀ c ∈ columns, c.field? left = c.field? fields) →
      Decided (bindColumns redact index columns left) (∀ c ∈ columns, c.Binds fields)
        (RefusesFirst columns fields)
  | [], left, index, _, _ => by
      refine (Decided.ok []).congr (by simp only [List.not_mem_nil, false_imp_iff, implies_true]) ?_
      intro code e
      refine ⟨False.elim, ?_⟩
      rintro ⟨before, c, after, hsplit, _⟩
      cases before <;> cases hsplit
  | c :: rest, left, index, hn, hleft => by
      have hown : c.field? left = c.field? fields := hleft c List.mem_cons_self
      unfold bindColumns
      cases ht : FieldDef.take c.name left with
      | none =>
          have hnone : c.field? fields = none := hown.symm.trans (FieldDef.take_eq_none ht)
          have hbinds : ¬ c.Binds fields := by
            rintro ⟨f, hf, _⟩
            cases hnone.symm.trans hf
          refine ⟨fun hall => absurd (hall c List.mem_cons_self) hbinds, ?_,
            Or.inr ⟨_, _, refusesFirst_cons.mpr (Or.inl (.unknown hnone))⟩⟩
          intro code e h
          rcases refusesFirst_cons.mp h with hrefuses | ⟨hb, _⟩
          · cases hrefuses with
            | unknown _ => exact ⟨rfl, rfl⟩
            | field hf _ => cases hnone.symm.trans hf
          · exact absurd hb hbinds
      | some taken =>
          obtain ⟨f, others⟩ := taken
          obtain ⟨hf, hothers⟩ := find?_of_take hn hleft ht
          have hf : c.field? fields = some f := hf
          have hfits : f.Fits c ↔ c.Binds fields := by
            refine ⟨fun h => ⟨f, hf, h⟩, ?_⟩
            rintro ⟨g, hg, h⟩
            cases hf.symm.trans hg
            exact h
          have hrefuses : ∀ code e, f.Refuses c code e ↔ c.RefusesTable fields code e := by
            refine fun code e => ⟨.field hf, fun h => ?_⟩
            cases h with
            | unknown hnone => cases hnone.symm.trans hf
            | field hg h =>
                cases hf.symm.trans hg
                exact h
          have hstep := (Accessor.ofField_decided f c index redact).bind fun accessor =>
            (bindColumns_decided fields redact (index + 1) (List.nodup_cons.mp hn).2 hothers).map
              (accessor :: ·)
          refine hstep.congr ?_ fun code e => ?_
          · rw [hfits, List.forall_mem_cons]
          · rw [refusesFirst_cons, hfits, hrefuses]

/-- A whole object is refused for every group of more or fewer columns than one. -/
theorem count_decided {α : Type} {s : ScalarShape} {side : String} {columns : List Column}
    (h : columns.length ≠ 1) :
    Decided (.error (.identityColumnCount side columns.length) : Except BindingError α)
      ((Offer.whole s).Binds columns) ((Offer.whole s).Refuses side columns) := by
  refine ⟨?_, ?_, Or.inr ⟨_, _, .count h⟩⟩
  · rintro ⟨c, rfl, _⟩
    exact absurd rfl h
  · intro code e hrefuses
    cases hrefuses with
    | count _ => exact ⟨rfl, rfl⟩
    | whole hc _ =>
        subst hc
        exact absurd rfl h

/-- **Binding a group** decides whether the type can be bound to its columns. -/
theorem ofOffer_decided (offer : Offer) {columns : Columns}
    (hn : (columns.columns.map (·.name)).Nodup) (offset : Nat) (side : String) (redact : Bool) :
    Decided (ofOffer offer columns offset side redact) (offer.Binds columns.columns)
      (offer.Refuses side columns.columns) := by
  unfold ofOffer
  cases offer with
  | record fresh fields =>
      have hwalk := (bindColumns_decided fields redact offset hn fun _ _ => rfl).map
        (GroupBinding.record fresh)
      refine hwalk.congr Iff.rfl fun code e => ⟨.record, fun h => ?_⟩
      cases h with
      | record h => exact h
  | whole s =>
      dsimp only
      unfold Columns.length
      cases columns.columns with
      | nil => exact count_decided (by decide)
      | cons c rest =>
          cases rest with
          | cons d more => exact count_decided (by simp)
          | nil =>
              refine ((Accessor.ofWhole_decided c offset s redact).map GroupBinding.whole).congr ?_ ?_
              · refine ⟨fun h => ⟨c, rfl, h⟩, ?_⟩
                rintro ⟨d, hd, h⟩
                cases hd
                exact h
              · refine fun code e => ⟨.whole rfl, fun h => ?_⟩
                cases h with
                | count h => exact absurd rfl h
                | whole hd h =>
                    cases hd
                    exact h

end GroupBinding

/-! ## 4. Both sides -/

/-- **Binding accepts exactly the compatible types.** The cause of a refusal is the key's if the key type
    cannot be bound, and the value's otherwise. That is said of whatever a type may offer, and so of the two
    shapes that `Serializer.new` binds. -/
theorem Serializer.binds_iff {version : UInt32} {keyColumns valueColumns : List Column} {schema : Schema}
    (hdef : Schema.define version keyColumns valueColumns = .ok schema) (config : Config)
    (key value : Offer) :
    ((∃ s, Serializer.ofOffers schema config key value = .ok s) ↔
      key.Binds schema.key.columns ∧ value.Binds schema.value.columns) ∧
    ∀ e, Serializer.ofOffers schema config key value = .error e ↔
      key.Refuses "key" schema.key.columns e.code e ∨
        key.Binds schema.key.columns ∧ value.Refuses "value" schema.value.columns e.code e := by
  have hnames := (Schema.sound_of_define hdef).names
  rw [List.map_append, List.nodup_append] at hnames
  have hkey := GroupBinding.ofOffer_decided key hnames.1 0 "key" config.redactSensitive
  have hvalue := GroupBinding.ofOffer_decided value hnames.2.1 schema.key.length "value"
    config.redactSensitive
  exact (hkey.bind fun own => hvalue.map (Serializer.mk schema config own)).iff

/-- A note, and a count that may be missing. The count is laid out first. -/
def tallySchema : Schema :=
  let key := Columns.ofList [⟨"id", .number .int4, false⟩]
  let value := Columns.ofList [⟨"note", .utf8, true⟩, ⟨"count", .number .int4, true⟩]
  { version := 1, fingerprint := Fingerprint.ofColumns key value, key, value }

/-- A note and a count, a second count and a flag that nothing is bound to. -/
def tallyFields : List FieldDef :=
  [FieldDef.new "note" (.encoded .utf8) 0, FieldDef.new "count" (.encoded (.nullable .int4)) 1,
    FieldDef.new "count" (.unsupported "bool") 2, FieldDef.new "flag" (.unsupported "bool") 3]

/-- A note without a binding, and a count that cannot be missing. -/
def hastyFields : List FieldDef :=
  [⟨"note", .encoded .utf8, none⟩, FieldDef.new "count" (.encoded (.required .int4)) 1,
    FieldDef.new "count" (.encoded (.nullable .int4)) 2]

/-- The first fields of their names fit. Of the two that do not, the count is reported: its column comes first,
    though it was declared behind the note's. -/
theorem Serializer.binds_iff_tally :
    Schema.define 1 [⟨"id", .number .int4, false⟩]
      [⟨"note", .utf8, true⟩, ⟨"count", .number .int4, true⟩] = .ok tallySchema ∧
    (∃ s, Serializer.ofOffers tallySchema Config.standard (Shape.ofMode (.nullable .int4)).offer
      (.record (.record []) tallyFields) = .ok s) ∧
    Serializer.ofOffers tallySchema Config.standard (Shape.ofMode (.nullable .int4)).offer
      (.record (.record []) hastyFields) =
        .error (.primitiveNullableColumn "count" (.encoded (.required .int4)) "count") := by
  have hdef : Schema.define 1 [⟨"id", .number .int4, false⟩]
      [⟨"note", .utf8, true⟩, ⟨"count", .number .int4, true⟩] = .ok tallySchema := rfl
  have hkey : (Shape.ofMode (.nullable .int4)).offer.Binds tallySchema.key.columns :=
    ⟨_, rfl, _, rfl, by decide, rfl⟩
  refine ⟨hdef, (binds_iff hdef _ _ _).1.mpr ⟨hkey, ?_⟩, ((binds_iff hdef _ _ _).2 _).mpr ?_⟩
  · refine List.forall_mem_cons.mpr ⟨?_, List.forall_mem_singleton.mpr ?_⟩
    · exact ⟨_, rfl, _, _, rfl, rfl, by decide, rfl⟩
    · exact ⟨_, rfl, _, _, rfl, rfl, by decide, rfl⟩
  · refine Or.inr ⟨hkey, .record ⟨[], _, _, rfl, fun _ h => absurd h List.not_mem_nil, ?_⟩⟩
    exact .field rfl (.primitive rfl rfl rfl)

end RowCodec
