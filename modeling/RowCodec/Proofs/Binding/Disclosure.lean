import RowCodec.Proofs.Binding.Redaction
import RowCodec.Proofs.Text.TypeNames

/-!
# What a redacted failure discloses

A failed write of a redacting serializer is reported under the column's index, with what refused the column
as its cause. The cause is handed on as it was told.

* `TupleError.ArisesAt` -- the causes that a column can be refused for. An append to a builder in any
  state has no others (`Builder.append_refusedAt`).
* `GroupBinding.Numbered` -- a redacting group, bound to columns that follow each other.
* `Serializer.serialize_refused` -- a refused row is reported under a column's index with such a cause, or
  under none.
* `ArisesAt.eq_of_message` -- a cause can be read off its message.
* `Serializer.unnamed_eq_iff` -- **two failed writes at one column with one root code are the same report
  exactly when their causes say the same**, the lengths, widths, types and counts in them included.
-/

namespace RowCodec

variable {i : Nat} {e e' : TupleError} {c c' : Column} {v v' : Value}

/-! ## 1. Why a column is refused -/

/-- **The causes that a column at an index can be refused a value for**, and what each of them tells of the
    two. -/
inductive TupleError.ArisesAt (i : Nat) (c : Column) (v : Value) : TupleError → Prop
  /-- The types of both. -/
  | mismatch {actual : ColumnType} (hv : v.type? = some actual)
      (hk : ¬ c.type.sameKind actual = true) : ArisesAt i c v (.typeMismatch i c.type actual)
  | null (hv : v = .undefined) (hc : c.nullable = false) : ArisesAt i c v (.nullNotAllowed i)
  /-- The length of a bit set and the width of its mask. -/
  | tooLong {bits : BitSet} {width : UInt32} (hv : v = .bitSet bits) (hc : c.type = .bitmask width)
      (hlt : width.toNat < bits.length) : ArisesAt i c v (.bitmaskTooLong i bits.length width)
  /-- Where the bytes end, and where they would have to. -/
  | capacity (required capacity : Nat) : ArisesAt i c v (.capacityExceeded i required capacity)
  /-- The same of a chunk that is closed or begun behind the column. -/
  | behind (required capacity : Nat) : ArisesAt i c v (.capacityExceeded (i + 1) required capacity)
  /-- How many texts and byte strings there are. -/
  | count (declared actual : Nat) : ArisesAt i c v (.varlenCountMismatch i declared actual)

/-- If the step is refused, it is for a cause that arises at the column. -/
def Step.RefusedAt (i : Nat) (c : Column) (v : Value) (step : Step TupleError) : Prop :=
  ∀ e, step.outcome = Outcome.refuse e → e.ArisesAt i c v

namespace Builder

variable {b : Builder} {g : Columns} {p offset : Nat} {actual : ColumnType} {bytes : List UInt8}

theorem refusedAt_onward {α : Type} {outcome : Outcome TupleError α} {next : α → Step TupleError}
    (h : ∀ e, outcome = Outcome.refuse e → e.ArisesAt i c v)
    (hnext : ∀ a, outcome = .ok a → (next a).RefusedAt i c v) :
    (b.onward outcome next).RefusedAt i c v := by
  cases outcome with
  | ok a => exact hnext a rfl
  | error fault =>
      intro e he
      cases he
      exact h e rfl

theorem write_refused (h : b.write offset bytes = Outcome.refuse e) :
    e = .capacityExceeded b.index (offset + bytes.length) b.buffer.length := by
  unfold write at h
  dsimp only at h
  split at h
  · cases h
    rfl
  · cases h

theorem setDefined_refused (h : b.setDefined p = Outcome.refuse e) : False := by
  unfold setDefined at h
  dsimp only at h
  split at h <;> cases h

theorem chunkOffset_refused {index relative : Nat}
    (h : chunkOffset index relative = Outcome.refuse e) :
    e = .capacityExceeded index relative maxChunkOffset := by
  unfold chunkOffset at h
  split at h
  · cases h
  · cases h
    rfl

theorem begin_refused {start declared : Nat} (h : Chunk.begin start g declared = Outcome.refuse e) :
    False := by
  unfold Chunk.begin at h
  dsimp only at h
  split at h <;> cases h

theorem fixedOffset_refused {ε : Type} {cause : ε} (h : g.fixedOffset p = Outcome.refuse cause) :
    False := by
  unfold Columns.fixedOffset at h
  split at h
  · cases h
  · split at h
    · split at h <;> cases h
    · cases h

/-- A chunk that cannot be closed behind a column is reported at it. -/
theorem finishChunk_refused (hi : b.index = i + 1) (h : b.finishChunk = Outcome.refuse e) :
    e.ArisesAt i c v := by
  unfold finishChunk at h
  dsimp only at h
  rw [hi, Nat.add_sub_cancel] at h
  split at h
  · cases h
    exact .count _ _
  · cases hoffset : chunkOffset i (b.chunk.varlen - b.chunk.start) with
    | ok length =>
        rw [hoffset, Outcome.ok_bind] at h
        rw [write_refused h, hi]
        exact .behind _ _
    | error fault =>
        rw [hoffset] at h
        cases h
        rw [chunkOffset_refused hoffset]
        exact .capacity _ _

theorem closeLast_refusedAt (hi : b.index = i + 1) : b.closeLast.RefusedAt i c v := by
  unfold closeLast
  split
  · refine refusedAt_onward (fun e he => finishChunk_refused hi he) fun b' _ e he => ?_
    cases he
  · intro e he
    cases he

theorem advance_refusedAt (hi : b.index = i) : b.advance.RefusedAt i c v := by
  have hnext : b.index + 1 = i + 1 := congrArg (· + 1) hi
  unfold advance
  dsimp only
  split
  · refine refusedAt_onward (fun e he => finishChunk_refused hnext he) fun b₁ hfin => ?_
    have hi₁ : b₁.index = i + 1 := (finishChunk_beside hfin).2.trans hnext
    refine refusedAt_onward (fun e he => (begin_refused he).elim) fun chunk _ => ?_
    split
    · intro e he
      cases he
      rw [hi₁]
      exact .behind _ _
    · exact closeLast_refusedAt hi₁
  · exact closeLast_refusedAt hnext

theorem mark_refusedAt (hi : b.index = i) :
    (b.onward (b.setDefined p) advance).RefusedAt i c v :=
  refusedAt_onward (fun _ he => (setDefined_refused he).elim) fun _ hmark =>
    advance_refusedAt ((setDefined_beside hmark).2.trans hi)

theorem columnOf_refused (hl : b.schema.locate b.index = .ok (g, p, c))
    (hv : v.type? = some actual) (h : b.columnOf actual = Outcome.refuse e) :
    e.ArisesAt b.index c v := by
  by_cases hk : c.type.sameKind actual = true
  · rw [columnOf_of_sameKind hl hk] at h
    cases h
  · rw [columnOf_of_not_sameKind hl hk] at h
    cases h
    exact .mismatch hv hk

theorem appendFixed_refusedAt (hl : b.schema.locate b.index = .ok (g, p, c))
    (hv : v.type? = some actual) : (b.appendFixed actual bytes).RefusedAt b.index c v := by
  refine refusedAt_onward (fun e he => columnOf_refused hl hv he) fun located _ => ?_
  refine refusedAt_onward (fun e he => (fixedOffset_refused he).elim) fun offset _ => ?_
  refine refusedAt_onward (fun e he => ?_) fun b₁ hwrite => mark_refusedAt (write_beside hwrite).2
  rw [write_refused he]
  exact .capacity _ _

theorem appendVarlen_refusedAt (hl : b.schema.locate b.index = .ok (g, p, c))
    (hv : v.type? = some actual) : (b.appendVarlen actual bytes).RefusedAt b.index c v := by
  refine refusedAt_onward (fun e he => columnOf_refused hl hv he) fun located _ => ?_
  dsimp only
  split
  · intro e he
    cases he
    exact .count _ _
  · refine refusedAt_onward (fun e he => ?_) fun relative _ => ?_
    · rw [chunkOffset_refused he]
      exact .capacity _ _
    refine refusedAt_onward (fun e he => ?_) fun b₁ hentry => ?_
    · rw [write_refused he]
      exact .capacity _ _
    have hi₁ := (write_beside hentry).2
    refine refusedAt_onward (fun e he => ?_) fun b₂ htext => ?_
    · rw [write_refused he, hi₁]
      exact .capacity _ _
    exact mark_refusedAt ((write_beside htext).2.trans hi₁)

/-- **An append is refused for causes that arise at its column**, in any state whatever. -/
theorem append_refusedAt (hc : b.schema.column? b.index = some c) (v : Value) :
    (b.append v).RefusedAt b.index c v := by
  obtain ⟨g, p, hl⟩ := Schema.locate_of_column hc
  cases v with
  | undefined =>
      unfold append appendNull
      rw [column_of_locate hl, onward_ok]
      dsimp only
      split
      · exact advance_refusedAt rfl
      · rename_i hn
        intro e he
        cases he
        exact .null rfl (Bool.eq_false_iff.mpr hn)
  | number kind word => exact appendFixed_refusedAt hl rfl
  | uuid id => exact appendFixed_refusedAt hl rfl
  | bitSet bits =>
      rw [append_bitSet hl]
      split
      · rename_i width hwidth
        split
        · rename_i hlt
          intro e he
          cases he
          exact .tooLong rfl hwidth hlt
        · exact appendFixed_refusedAt hl rfl
      · exact appendFixed_refusedAt hl rfl
  | utf8 text => exact appendVarlen_refusedAt hl rfl
  | blob bytes => exact appendVarlen_refusedAt hl rfl

end Builder

/-! ## 2. How it is reported -/

/-- The report of a failed write that shows the column's index only. -/
def Diagnostic.unnamed (i : Nat) (cause : Diagnostic) : Diagnostic :=
  (BindingError.serialization .write (.numbered i) none cause).diagnostic

/-- The failure is that of a write to the column at an index, named by nothing else. -/
def Diagnostic.FailsAt (d : Diagnostic) (i : Nat) : Prop := ∃ cause, d = .unnamed i cause

theorem Diagnostic.message_unnamed (i : Nat) (cause : Diagnostic) : (unnamed i cause).report.message =
    "failed to " ++ "write" ++ " field [" ++ ("id=" ++ toString i) ++ "]" := rfl

/-- The index can be read off the report. -/
theorem Diagnostic.index_of_unnamed {j : Nat} {cause cause' : Diagnostic}
    (h : unnamed i cause = unnamed j cause') : i = j := by
  have hmessage := congrArg (fun d => d.report.message) h
  simp only [message_unnamed, String.append_assoc, String.append_right_inj] at hmessage
  exact number_inj ((String.append_left_inj "]").mp hmessage)

namespace GroupBinding

/-- **The accessors of a group that shows no names**, bound to columns that follow each other. -/
inductive Numbered : Nat → List Accessor → Prop
  | nil (i : Nat) : Numbered i []
  | cons {i : Nat} {a : Accessor} {rest : List Accessor} (index_eq : a.index = i)
      (redact : a.redact = true) (h : Numbered (i + 1) rest) : Numbered i (a :: rest)

theorem numbered_of_bindColumns : ∀ {columns : List Column} {fields : List FieldDef} {index : Nat}
    {accessors : List Accessor}, bindColumns true index columns fields = .ok accessors →
      Numbered index accessors ∧ accessors.length = columns.length
  | [], _, _, _, h => by
      cases h
      exact ⟨.nil _, rfl⟩
  | column :: rest, fields, index, accessors, h => by
      obtain ⟨_, _, _, _, _, hfirst, hmore, rfl⟩ := bindColumns_cons h
      obtain ⟨_, _, _, _, _, rfl⟩ := Accessor.ofField_ok hfirst
      obtain ⟨hnumbered, hlength⟩ := numbered_of_bindColumns hmore
      exact ⟨.cons rfl rfl hnumbered, congrArg (· + 1) hlength⟩

theorem numbered_of_ofOffer {offer : Offer} {columns : Columns} {offset : Nat} {side : String}
    {g : GroupBinding} (h : ofOffer offer columns offset side true = .ok g) :
    Numbered offset g.accessors ∧ g.accessors.length = columns.length := by
  unfold ofOffer at h
  cases offer with
  | whole scalar =>
      dsimp only at h
      split at h
      · rename_i column hcolumn
        obtain ⟨a, ha, h⟩ := Outcome.bind_ok h
        cases h
        obtain ⟨_, _, _, _, rfl⟩ := Accessor.ofWhole_ok ha
        refine ⟨.cons rfl rfl (.nil _), ?_⟩
        unfold Columns.length
        rw [hcolumn]
        rfl
      · cases h
  | record fresh fields =>
      obtain ⟨accessors, hall, h⟩ := Outcome.bind_ok h
      cases h
      exact numbered_of_bindColumns hall

/-- One column: a refusal is reported under its index. -/
theorem write_step {o : Object} {a : Accessor} {b : Builder} (hr : a.redact = true)
    (ha : a.index = b.index) (hc : b.schema.column? b.index = some c) :
    (∀ d, (a.write o b).outcome = Outcome.refuse d →
      ∃ e : TupleError, e.ArisesAt b.index c (a.value o) ∧ d = .unnamed b.index e.diagnostic) ∧
    ((a.write o b).outcome = .ok () → (a.write o b).builder.index = b.index + 1 ∧
      (a.write o b).builder.schema = b.schema) := by
  unfold Accessor.write
  split
  · refine ⟨fun d hd => ?_, fun hok => ?_⟩
    · cases hd
    · cases hok
  · have hrefused := Builder.append_refusedAt hc (a.value o)
    unfold Step.RefusedAt at hrefused
    unfold Step.mapCause
    dsimp only
    refine ⟨fun d hd => ?_, fun hok => ?_⟩
    · cases happ : (b.append (a.value o)).outcome with
      | ok u =>
          rw [happ] at hd
          cases hd
      | error fault =>
          rw [happ] at hd hrefused
          cases fault with
          | panic cause => cases hd
          | refused e =>
              cases hd
              refine ⟨e, hrefused e rfl, ?_⟩
              show a.failure .write e.diagnostic = _
              unfold Accessor.failure
              rw [if_pos hr, ha]
              rfl
    · have hok := Outcome.mapCause_ok hok
      exact ⟨Builder.index_append_of_ok hok, Builder.schema_append _ _⟩

/-- A write of an object that is refused: the column, the value that it was given, why it is refused, and the
    report. -/
def Refused (schema : Schema) (o : Object) (accessors : List Accessor) (d : Diagnostic) : Prop :=
  ∃ (i : Nat) (c : Column) (a : Accessor) (e : TupleError), schema.column? i = some c ∧
    a ∈ accessors ∧ a.index = i ∧ e.ArisesAt i c (a.value o) ∧ d = .unnamed i e.diagnostic

/-- **Writing a group**: a refusal is reported under the index of one of its columns. -/
theorem writeAll_numbered {o : Object} : ∀ {accessors : List Accessor} {b : Builder},
    Numbered b.index accessors → b.index + accessors.length ≤ b.schema.length →
      (∀ d, (writeAll o accessors b).outcome = Outcome.refuse d →
        Refused b.schema o accessors d) ∧
      ((writeAll o accessors b).outcome = .ok () →
        (writeAll o accessors b).builder.index = b.index + accessors.length ∧
        (writeAll o accessors b).builder.schema = b.schema)
  | [], b, _, _ => by
      refine ⟨fun d hd => ?_, fun _ => ⟨rfl, rfl⟩⟩
      cases hd
  | a :: rest, b, hn, hle => by
      rw [List.length_cons] at hle ⊢
      cases hn with
      | cons index_eq redact hrest =>
      have hlt : b.index < b.schema.length := by omega
      obtain ⟨c, hc⟩ := Schema.exists_column hlt
      obtain ⟨hrefused, hok⟩ := write_step (o := o) redact index_eq hc
      cases hstep : (a.write o b).outcome with
      | error fault =>
          rw [writeAll_of_error hstep]
          refine ⟨fun d hd => ?_, fun h => by cases h⟩
          cases hd
          obtain ⟨e, he, hd⟩ := hrefused _ hstep
          exact ⟨_, c, a, e, hc, List.mem_cons_self, index_eq, he, hd⟩
      | ok u =>
          obtain ⟨hi, hs⟩ := hok hstep
          rw [writeAll_of_ok hstep]
          rw [← hi] at hrest
          obtain ⟨hrefused, hok⟩ := writeAll_numbered hrest (by rw [hi, hs]; omega)
          refine ⟨fun d hd => ?_, fun h => ?_⟩
          · obtain ⟨i, c, own, e, hcolumn, hmem, hown⟩ := hrefused d hd
            exact ⟨i, c, own, e, hs ▸ hcolumn, List.mem_cons_of_mem _ hmem, hown⟩
          · obtain ⟨hi', hs'⟩ := hok h
            exact ⟨by rw [hi', hi]; omega, hs'.trans hs⟩

end GroupBinding

theorem Builder.index_of_new {schema : Schema} {size keyDeclared valueDeclared : Nat} {b : Builder}
    (h : Builder.new schema size keyDeclared valueDeclared = .ok b) :
    b.index = 0 ∧ b.schema = schema := by
  unfold Builder.new at h
  obtain ⟨chunk, _, h⟩ := Outcome.bind_ok h
  split at h
  · cases h
  · split at h
    · cases h
    · cases h
      exact ⟨rfl, rfl⟩

namespace Serializer

variable {schema : Schema} {key value : Offer} {s : Serializer} {k : Object} {o : Option Object}
  {d : Diagnostic}

/-- The value that a row of two objects gives the column at an index. -/
inductive Holds (s : Serializer) (k : Object) (o : Option Object) (i : Nat) : Value → Prop
  | key {a : Accessor} (ha : a ∈ s.key.accessors) (hi : a.index = i) : Holds s k o i (a.value k)
  | value {a : Accessor} {v : Object} (ho : o = some v) (ha : a ∈ s.value.accessors)
      (hi : a.index = i) : Holds s k o i (a.value v)

/-- The counts of texts and byte strings are never refused: they are there, or the call panics. -/
theorem recordValues_ne_refuse {g : GroupBinding} {v : Object} {cause : Diagnostic} :
    ∀ {positions : List Nat} {stat : Statistic},
      g.recordValues v positions stat ≠ Outcome.refuse cause
  | [], stat => by
      intro h
      cases h
  | position :: rest, stat => by
      unfold GroupBinding.recordValues GroupBinding.value
      cases g.accessors[position]? with
      | none =>
          intro h
          cases h
      | some a =>
          dsimp only
          rw [Outcome.ok_bind]
          cases a.value v with
          | undefined => exact recordValues_ne_refuse
          | utf8 text => exact recordValues_ne_refuse
          | blob bytes => exact recordValues_ne_refuse
          | _ =>
              intro h
              cases h

theorem checked_ne_refuse {n : Nat} {cause : Diagnostic} : checked n ≠ Outcome.refuse cause := by
  intro h
  unfold checked at h
  split at h <;> cases h

theorem statistic_ne_refuse {g : GroupBinding} {columns : Columns} {v : Object} {cause : Diagnostic} :
    g.statistic columns v ≠ Outcome.refuse cause := by
  intro h
  rcases Outcome.bind_refused h with h | ⟨stat, _, h⟩
  · exact recordValues_ne_refuse h
  · unfold Statistic.checked at h
    rcases Outcome.bind_refused h with h | ⟨nonNull, _, h⟩
    · exact checked_ne_refuse h
    · rcases Outcome.bind_refused h with h | ⟨size, _, h⟩
      · exact checked_ne_refuse h
      · cases h

theorem statistics_ne_refuse {v : Object} {cause : Diagnostic} :
    s.statistics k (some v) ≠ Outcome.refuse cause := by
  intro h
  rcases Outcome.bind_refused h with h | ⟨keyStatistic, _, h⟩
  · exact statistic_ne_refuse h
  · rcases Outcome.bind_refused h with h | ⟨valueStatistic, _, h⟩
    · exact statistic_ne_refuse h
    · cases h

/-- What is left of a row that is refused: a builder was reserved for it, or could not be. -/
theorem refused_of_serialize (hd : s.serialize k o = Outcome.refuse d) : ∃ v, o = some v ∧
    ((∃ e : TupleError, d = e.diagnostic) ∨ ∃ b : Builder, b.index = 0 ∧ b.schema = s.schema ∧
      ((s.key.write k b).outcome = Outcome.refuse d ∨
        (s.key.write k b).outcome = .ok () ∧
        (s.value.write v (s.key.write k b).builder).outcome = Outcome.refuse d)) := by
  unfold serialize at hd
  split at hd
  · cases hd
  · cases o with
    | none => cases hd
    | some v =>
        refine ⟨v, rfl, ?_⟩
        rcases Outcome.bind_refused hd with h | ⟨statistics, _, hd⟩
        · exact (statistics_ne_refuse h).elim
        rcases Outcome.bind_refused hd with h | ⟨size, _, hd⟩
        · exact (checked_ne_refuse h).elim
        rcases Outcome.bind_refused hd with h | ⟨b, hb, hd⟩
        · exact Or.inl (Outcome.mapCause_refused h)
        obtain ⟨hindex, hschema⟩ := Builder.index_of_new (Outcome.mapCause_ok hb)
        rcases Outcome.bind_refused hd with h | ⟨u, hkey, hd⟩
        · exact Or.inr ⟨b, hindex, hschema, Or.inl h⟩
        rcases Outcome.bind_refused hd with h | ⟨u, hvalue, hd⟩
        · exact Or.inr ⟨b, hindex, hschema, Or.inr ⟨hkey, h⟩⟩
        rw [Outcome.ofExcept_mapError] at hd
        exact Or.inl (Outcome.mapCause_refused hd)

/-- **A refused row** is reported under the index of a column that is refused its value, with the cause of
    that; or under no index, with a cause that has none. -/
theorem serialize_refused (hnew : ofOffers schema ⟨true⟩ key value = .ok s)
    (hd : s.serialize k o = Outcome.refuse d) :
    (∃ i c v e, schema.column? i = some c ∧ s.Holds k o i v ∧ TupleError.ArisesAt i c v e ∧
      d = .unnamed i e.diagnostic) ∨ ∃ e : TupleError, d = e.diagnostic := by
  obtain ⟨keyGroup, hkey, hnew⟩ := Outcome.bind_ok hnew
  obtain ⟨valueGroup, hvalue, hnew⟩ := Outcome.bind_ok hnew
  cases hnew
  obtain ⟨hknumbered, hklength⟩ := GroupBinding.numbered_of_ofOffer hkey
  obtain ⟨hvnumbered, hvlength⟩ := GroupBinding.numbered_of_ofOffer hvalue
  obtain ⟨v, rfl, hplain | ⟨b, hindex, hschema, hwrite⟩⟩ := refused_of_serialize hd
  · exact Or.inr hplain
  have hschema : b.schema = schema := hschema
  have hin : b.index + keyGroup.accessors.length ≤ b.schema.length := by
    rw [hindex, hklength, hschema, Nat.zero_add]
    exact Nat.le_add_right _ _
  obtain ⟨hkrefused, hkok⟩ := GroupBinding.writeAll_numbered (o := k) (hindex ▸ hknumbered) hin
  refine Or.inl ?_
  rcases hwrite with hwrite | ⟨hkwrite, hwrite⟩
  · obtain ⟨i, c, a, e, hc, ha, hi, he, hd⟩ := hkrefused d hwrite
    exact ⟨i, c, _, e, hschema ▸ hc, .key ha hi, he, hd⟩
  · obtain ⟨hnext, hsame⟩ := hkok hkwrite
    rw [hindex, hklength, Nat.zero_add] at hnext
    have hsame : (keyGroup.write k b).builder.schema = schema := hsame.trans hschema
    have hin' : (keyGroup.write k b).builder.index + valueGroup.accessors.length ≤
        (keyGroup.write k b).builder.schema.length := by
      rw [show (keyGroup.write k b).builder.index = _ from hnext,
        hsame, hvlength]
      exact Nat.le_refl _
    obtain ⟨hvrefused, _⟩ := GroupBinding.writeAll_numbered (o := v) (hnext.symm ▸ hvnumbered) hin'
    obtain ⟨i, c, a, e, hc, ha, hi, he, hd⟩ := hvrefused d hwrite
    rw [hsame] at hc
    exact ⟨i, c, _, e, hc, .value rfl ha hi, he, hd⟩

end Serializer

/-! ## 3. Reading a cause off its message -/

namespace TupleError

variable {j required required' capacity capacity' declared declared' actual actual' length length' : Nat}
  {expected expected' type type' : ColumnType} {bits bits' : UInt32}

theorem eq_of_mismatch_message (h : (typeMismatch i expected type).message =
    (typeMismatch i expected' type').message) : expected = expected' ∧ type = type' := by
  have htext : "column " ++ toString i ++ " is " ++ expected.text ++ ", not " ++ type.text =
    "column " ++ toString i ++ " is " ++ expected'.text ++ ", not " ++ type'.text := h
  simp only [String.append_assoc, String.append_right_inj] at htext
  have hlist := congrArg String.toList htext
  have hsep : ", not ".toList = ',' :: " not ".toList := by decide
  simp only [String.toList_append, hsep, List.cons_append] at hlist
  have hlast : ',' ∉ " not ".toList ++ type.text.toList := by
    intro hmem
    rcases List.mem_append.mp hmem with h | h
    · exact absurd h (by decide)
    · exact ColumnType.comma_notMem_text type h
  obtain ⟨hexpected, _, hrest⟩ :=
    (List.append_cons_inj_of_notMem (ColumnType.comma_notMem_text expected) hlast).mp hlist
  refine ⟨ColumnType.text_injective (String.toList_inj.mp hexpected), ?_⟩
  exact ColumnType.text_injective (String.toList_inj.mp (List.append_cancel_left hrest))

theorem eq_of_capacity_message (h : (capacityExceeded i required capacity).message =
    (capacityExceeded j required' capacity').message) :
    i = j ∧ required = required' ∧ capacity = capacity' := by
  have htext : "column " ++ toString i ++ " needs the tuple to span " ++ toString required
      ++ " bytes, only " ++ toString capacity ++ " reserved" =
    "column " ++ toString j ++ " needs the tuple to span " ++ toString required'
      ++ " bytes, only " ++ toString capacity' ++ " reserved" := h
  simp only [String.append_assoc, String.append_right_inj] at htext
  obtain ⟨hindex, htext⟩ := number_sep_inj (by decide) htext
  obtain ⟨hrequired, htext⟩ := number_sep_inj (by decide) htext
  exact ⟨hindex, hrequired, number_inj ((String.append_left_inj _).mp htext)⟩

theorem eq_of_count_message (h : (varlenCountMismatch i declared actual).message =
    (varlenCountMismatch i declared' actual').message) : declared = declared' ∧ actual = actual' := by
  have htext : "chunk reserved " ++ toString declared ++ " variable-length entries, column "
      ++ toString i ++ " brings the count to " ++ toString actual =
    "chunk reserved " ++ toString declared' ++ " variable-length entries, column "
      ++ toString i ++ " brings the count to " ++ toString actual' := h
  simp only [String.append_assoc, String.append_right_inj] at htext
  obtain ⟨hdeclared, htext⟩ := number_sep_inj (by decide) htext
  simp only [String.append_right_inj] at htext
  exact ⟨hdeclared, number_inj htext⟩

theorem eq_of_tooLong_message (h : (bitmaskTooLong i length bits).message =
    (bitmaskTooLong i length' bits').message) : length = length' ∧ bits = bits' := by
  have htext : "bit set of length " ++ toString length ++ " does not fit column " ++ toString i
      ++ " of " ++ toString bits.toNat ++ " bits" =
    "bit set of length " ++ toString length' ++ " does not fit column " ++ toString i
      ++ " of " ++ toString bits'.toNat ++ " bits" := h
  simp only [String.append_assoc, String.append_right_inj] at htext
  obtain ⟨hlength, htext⟩ := number_sep_inj (by decide) htext
  simp only [String.append_right_inj] at htext
  exact ⟨hlength, UInt32.toNat_inj.mp (number_inj ((String.append_left_inj _).mp htext))⟩

namespace ArisesAt

/-- **A cause can be read off its message**, once its code and column are known. -/
theorem eq_of_message (h : e.ArisesAt i c v) (h' : e'.ArisesAt i c' v') (hcode : e.code = e'.code)
    (hm : e.message = e'.message) : e = e' := by
  cases h with
  | mismatch hv hk =>
      cases h' with
      | mismatch hv' hk' =>
          obtain ⟨hexpected, hactual⟩ := eq_of_mismatch_message hm
          rw [hexpected, hactual]
      | _ => simp [TupleError.code] at hcode
  | null hv hc =>
      cases h' with
      | null hv' hc' => rfl
      | _ => simp [TupleError.code] at hcode
  | tooLong hv hc hlt =>
      cases h' with
      | tooLong hv' hc' hlt' =>
          obtain ⟨hlength, hbits⟩ := eq_of_tooLong_message hm
          rw [hlength, hbits]
      | _ => simp [TupleError.code] at hcode
  | capacity required capacity =>
      cases h' with
      | capacity required' capacity' =>
          obtain ⟨_, hrequired, hcapacity⟩ := eq_of_capacity_message hm
          rw [hrequired, hcapacity]
      | behind required' capacity' =>
          obtain ⟨hindex, _⟩ := eq_of_capacity_message hm
          omega
      | _ => simp [TupleError.code] at hcode
  | behind required capacity =>
      cases h' with
      | capacity required' capacity' =>
          obtain ⟨hindex, _⟩ := eq_of_capacity_message hm
          omega
      | behind required' capacity' =>
          obtain ⟨_, hrequired, hcapacity⟩ := eq_of_capacity_message hm
          rw [hrequired, hcapacity]
      | _ => simp [TupleError.code] at hcode
  | count declared actual =>
      cases h' with
      | count declared' actual' =>
          obtain ⟨hdeclared, hactual⟩ := eq_of_count_message hm
          rw [hdeclared, hactual]
      | _ => simp [TupleError.code] at hcode

/-- Causes with one code give the same advice. -/
theorem report_eq (h : e.ArisesAt i c v) (h' : e'.ArisesAt i c' v') (hcode : e.code = e'.code) :
    e'.diagnostic.report = { e.diagnostic.report with message := e'.message } := by
  cases h <;> cases h' <;> first | rfl | simp [TupleError.code] at hcode

end ArisesAt

end TupleError

/-- A report's text tells its message. -/
theorem Report.message_of_text {r : Report} {message : String}
    (h : { r with message }.text = r.text) : message = r.message := by
  unfold text lines at h
  simp only [List.append_assoc, List.cons_append, List.nil_append] at h
  rw [← String.append_empty (s := r.code ++ ": " ++ message),
    ← String.append_empty (s := r.code ++ ": " ++ r.message), String.intercalate_cons_append,
    String.intercalate_cons_append, String.append_left_inj, String.append_right_inj] at h
  exact h

theorem Diagnostic.text_unnamed (i : Nat) (e : TupleError) :
    (unnamed i e.diagnostic).text = (unnamed i e.diagnostic).report.text ++ "\ncaused by: "
      ++ e.diagnostic.report.text := by
  have hcauses : (unnamed i e.diagnostic).causes = [e.diagnostic.report] :=
    congrArg (e.diagnostic.report :: ·) e.causes_diagnostic
  unfold text
  rw [hcauses]
  simp only [List.map_cons, List.map_nil]
  rw [String.intercalate_cons_cons, String.intercalate_singleton]

namespace TupleError.ArisesAt

variable (h : e.ArisesAt i c v) (h' : e'.ArisesAt i c' v') (hcode : e.code = e'.code)

include h h' hcode

/-- **Reports of one column are told apart by what their causes tell**, and by nothing else. -/
theorem text_eq_iff : (Diagnostic.unnamed i e.diagnostic).text =
    (Diagnostic.unnamed i e'.diagnostic).text ↔ e = e' := by
  refine ⟨fun htext => h.eq_of_message h' hcode ?_, fun heq => heq ▸ rfl⟩
  have hreport : (Diagnostic.unnamed i e.diagnostic).report =
      (Diagnostic.unnamed i e'.diagnostic).report := rfl
  rw [Diagnostic.text_unnamed, Diagnostic.text_unnamed, hreport, String.append_right_inj,
    h.report_eq h' hcode] at htext
  rw [Report.message_of_text htext.symm, e.message_diagnostic]

theorem unnamed_eq_iff :
    Diagnostic.unnamed i e.diagnostic = Diagnostic.unnamed i e'.diagnostic ↔ e = e' :=
  ⟨fun heq => (h.text_eq_iff h' hcode).mp (congrArg Diagnostic.text heq), fun heq => heq ▸ rfl⟩

end TupleError.ArisesAt

/-! ## 4. Two failed writes -/

namespace TupleError

/-- A null tells nothing but where it is. -/
theorem ArisesAt.eq_of_null (h : e.ArisesAt i c v) (hcode : e.code = "TUPLE_004") :
    e = .nullNotAllowed i := by
  cases h with
  | null hv hc => rfl
  | _ => simp [TupleError.code] at hcode

/-- A bit set that is too long tells its length and the width of its mask. -/
theorem ArisesAt.eq_of_tooLong (h : e.ArisesAt i c v) (hcode : e.code = "TUPLE_009") :
    ∃ bits width, v = .bitSet bits ∧ c.type = .bitmask width ∧
      e = .bitmaskTooLong i bits.length width := by
  cases h with
  | @tooLong bits width hv hc hlt => exact ⟨bits, width, hv, hc, rfl⟩
  | _ => simp [TupleError.code] at hcode

end TupleError

namespace Serializer

variable {schema schema' : Schema} {key key' value value' : Offer} {s s' : Serializer} {k k' : Object}
  {o o' : Option Object} {d d' : Diagnostic}

/-- A refused row that is reported under a column's index: the column, its value, and the cause. -/
theorem cause_of_failsAt (hnew : ofOffers schema ⟨true⟩ key value = .ok s)
    (hd : s.serialize k o = Outcome.refuse d) (hi : d.FailsAt i) :
    ∃ c v e, schema.column? i = some c ∧ s.Holds k o i v ∧ TupleError.ArisesAt i c v e ∧
      d = .unnamed i e.diagnostic := by
  obtain ⟨cause, hcause⟩ := hi
  rcases serialize_refused hnew hd with ⟨j, c, v, e, hc, hv, he, hunnamed⟩ | ⟨e, hplain⟩
  · obtain rfl := Diagnostic.index_of_unnamed (hcause.symm.trans hunnamed)
    exact ⟨c, v, e, hc, hv, he, hunnamed⟩
  · have hcauses := congrArg Diagnostic.causes (hplain.symm.trans hcause)
    rw [e.causes_diagnostic] at hcauses
    cases hcauses

theorem rootCause_unnamed (i : Nat) (e : TupleError) :
    (Diagnostic.unnamed i e.diagnostic).rootCause.code = e.code := by
  have hcauses : (Diagnostic.unnamed i e.diagnostic).causes = [e.diagnostic.report] :=
    congrArg (e.diagnostic.report :: ·) e.causes_diagnostic
  unfold Diagnostic.rootCause
  rw [hcauses]
  exact e.code_diagnostic

/-- **What two redacted failures tell apart.** Two serializers that show no names, for whatever schemas and
    types, each fail to write a row at the column of one index, with one root code. Each failure names
    nothing but the index, and hands on why its column was refused its value. The two are one report, and
    one text, exactly when they hand on the same: always for a null, and for a bit set that is too long if
    the other set is as long and the other mask as wide. -/
theorem redacted_eq_iff (hnew : ofOffers schema ⟨true⟩ key value = .ok s)
    (hnew' : ofOffers schema' ⟨true⟩ key' value' = .ok s')
    (hd : s.serialize k o = Outcome.refuse d) (hd' : s'.serialize k' o' = Outcome.refuse d')
    (hi : d.FailsAt i) (hi' : d'.FailsAt i) (hcode : d.rootCause.code = d'.rootCause.code) :
    ∃ c c' v v' e e', schema.column? i = some c ∧ schema'.column? i = some c' ∧
      s.Holds k o i v ∧ s'.Holds k' o' i v' ∧
      TupleError.ArisesAt i c v e ∧ TupleError.ArisesAt i c' v' e' ∧
      d = .unnamed i e.diagnostic ∧ d' = .unnamed i e'.diagnostic ∧
      (d = d' ↔ e = e') ∧ (d.text = d'.text ↔ e = e') ∧
      (d.rootCause.code = "TUPLE_004" → d = d') ∧
      (d.rootCause.code = "TUPLE_009" → ∃ bits bits' width width',
        v = .bitSet bits ∧ v' = .bitSet bits' ∧ c.type = .bitmask width ∧ c'.type = .bitmask width' ∧
        (d = d' ↔ bits.length = bits'.length ∧ width = width')) := by
  obtain ⟨c, v, e, hc, hv, he, rfl⟩ := cause_of_failsAt hnew hd hi
  obtain ⟨c', v', e', hc', hv', he', rfl⟩ := cause_of_failsAt hnew' hd' hi'
  rw [rootCause_unnamed, rootCause_unnamed] at hcode
  have heq := he.unnamed_eq_iff he' hcode
  refine ⟨c, c', v, v', e, e', hc, hc', hv, hv', he, he', rfl, rfl, heq, he.text_eq_iff he' hcode,
    fun hnull => ?_, fun hlong => ?_⟩
  · rw [rootCause_unnamed] at hnull
    exact heq.mpr ((he.eq_of_null hnull).trans (he'.eq_of_null (hcode ▸ hnull)).symm)
  · rw [rootCause_unnamed] at hlong
    obtain ⟨bits, width, hset, htype, hcause⟩ := he.eq_of_tooLong hlong
    obtain ⟨bits', width', hset', htype', hcause'⟩ := he'.eq_of_tooLong (hcode ▸ hlong)
    refine ⟨bits, bits', width, width', hset, hset', htype, htype', heq.trans ?_⟩
    rw [hcause, hcause', TupleError.bitmaskTooLong.injEq]
    exact and_iff_right rfl

/-- A record of one bit set. -/
def bitsOffer (name : String) : Offer := (Shape.record [⟨name, .encoded .bitmask, .undefined⟩]).offer

def bitsObject (indices : List Nat) : Object := .record [.bitSet (BitSet.ofList indices)]

/-- A number, and a record for a mask of four bits. -/
def bitsSerializer (id flags : String) : Serializer :=
  { schema := flagSchema id flags
    config := ⟨true⟩
    key := .whole ⟨0, id, ⟨id, .number .int4⟩, .nullable .int4, true, .whole (.nullable .int4)⟩
    value := .record (.record [.undefined])
      [⟨1, flags, ⟨flags, .bitmask 4⟩, .bitmask, true, .field ⟨0, .bitmask⟩⟩] }

/-- The report of a bit set of a length that four bits do not hold. -/
def bitsFailure (length : Nat) : Diagnostic :=
  .unnamed 1 (TupleError.bitmaskTooLong 1 length 4).diagnostic

/-- Under either name, and whatever else the rows hold, a bit set of one length is reported in the same
    words. -/
theorem redacted_eq_iff_flags :
    ofOffers (flagSchema "id" "flags") ⟨true⟩ (Shape.ofMode (.nullable .int4)).offer
      (bitsOffer "flags") = .ok (bitsSerializer "id" "flags") ∧
    ofOffers (flagSchema "secret id" "secret flags") ⟨true⟩ (Shape.ofMode (.nullable .int4)).offer
      (bitsOffer "secret flags") = .ok (bitsSerializer "secret id" "secret flags") ∧
    (bitsSerializer "id" "flags").serialize (.whole (.number .int4 42)) (some (bitsObject [0, 9])) =
      Outcome.refuse (bitsFailure 10) ∧
    (bitsSerializer "secret id" "secret flags").serialize (.whole (.number .int4 7))
      (some (bitsObject [9])) = Outcome.refuse (bitsFailure 10) ∧
    (bitsFailure 10).FailsAt 1 ∧ (bitsFailure 10).rootCause.code = "TUPLE_009" ∧
    ∃ e e' : TupleError, bitsFailure 10 = .unnamed 1 e.diagnostic ∧
      bitsFailure 10 = .unnamed 1 e'.diagnostic ∧ e = e' := by
  have hnew : ofOffers (flagSchema "id" "flags") ⟨true⟩ (Shape.ofMode (.nullable .int4)).offer
      (bitsOffer "flags") = .ok (bitsSerializer "id" "flags") := rfl
  have hnew' : ofOffers (flagSchema "secret id" "secret flags") ⟨true⟩
      (Shape.ofMode (.nullable .int4)).offer (bitsOffer "secret flags") =
        .ok (bitsSerializer "secret id" "secret flags") := rfl
  have hd : (bitsSerializer "id" "flags").serialize (.whole (.number .int4 42))
      (some (bitsObject [0, 9])) = Outcome.refuse (bitsFailure 10) := rfl
  have hd' : (bitsSerializer "secret id" "secret flags").serialize (.whole (.number .int4 7))
      (some (bitsObject [9])) = Outcome.refuse (bitsFailure 10) := rfl
  have hi : (bitsFailure 10).FailsAt 1 := ⟨_, rfl⟩
  obtain ⟨_, _, _, _, e, e', _, _, _, _, _, _, he, he', heq, _⟩ :=
    redacted_eq_iff hnew hnew' hd hd' hi hi rfl
  exact ⟨hnew, hnew', hd, hd', hi, rfl, e, e', he, he', heq.mp rfl⟩

/-- **The length of a bit set is told.** One redacting serializer reports two rows at one column with one root
    code, and in different words. -/
theorem redacted_tells_length :
    ofOffers (flagSchema "id" "flags") ⟨true⟩ (Shape.ofMode (.nullable .int4)).offer
      (bitsOffer "flags") = .ok (bitsSerializer "id" "flags") ∧
    (bitsSerializer "id" "flags").serialize (.whole (.number .int4 42)) (some (bitsObject [4])) =
      Outcome.refuse (bitsFailure 5) ∧
    (bitsSerializer "id" "flags").serialize (.whole (.number .int4 42)) (some (bitsObject [0, 9])) =
      Outcome.refuse (bitsFailure 10) ∧
    (bitsFailure 5).FailsAt 1 ∧ (bitsFailure 10).FailsAt 1 ∧
    (bitsFailure 5).rootCause.code = (bitsFailure 10).rootCause.code ∧
    bitsFailure 5 ≠ bitsFailure 10 ∧ (bitsFailure 5).text ≠ (bitsFailure 10).text := by
  have hfive : TupleError.ArisesAt 1 ⟨"flags", .bitmask 4, true⟩ (.bitSet (BitSet.ofList [4]))
      (.bitmaskTooLong 1 5 4) := .tooLong rfl rfl (by decide)
  have hten : TupleError.ArisesAt 1 ⟨"flags", .bitmask 4, true⟩ (.bitSet (BitSet.ofList [0, 9]))
      (.bitmaskTooLong 1 10 4) := .tooLong rfl rfl (by decide)
  have hne : TupleError.bitmaskTooLong 1 5 4 ≠ .bitmaskTooLong 1 10 4 := by decide
  have hcode := (rootCause_unnamed 1 (.bitmaskTooLong 1 5 4)).trans
    (rootCause_unnamed 1 (.bitmaskTooLong 1 10 4)).symm
  exact ⟨rfl, rfl, rfl, ⟨_, rfl⟩, ⟨_, rfl⟩, hcode, fun h => hne ((hfive.unnamed_eq_iff hten rfl).mp h),
    fun h => hne ((hfive.text_eq_iff hten rfl).mp h)⟩

end Serializer

end RowCodec
