import RowCodec.Json.Encoded
import RowCodec.Json.Report
import RowCodec.Proofs.Json.Records
import RowCodec.Proofs.Schema.StableLayout
import RowCodec.Proofs.Text.TypeNames

/-!
# Records as JSON and back

Every record is read back from its text as it was written.

* `Json.Restores` for column types, columns, column groups, reported columns, diagnostics and encoded tuples,
  each from the records it contains: a reader gives the record back exactly if it gives back every field. For a
  diagnostic by induction on its causes (`Diagnostic.cause?`).
* `Columns.inWords_ofList` -- the layout of a group is made of machine words if its size and its length are.
* `Columns.depth_toJson_le`, `EncodedTuple.depth_toJson_le` -- only a diagnostic can nest too deep.
* `json_text_parses` -- the texts of diagnostics, column groups and encoded tuples.
-/

namespace RowCodec

open Json

/-! ## 1. Column types -/

namespace ColumnType

theorem ofName?_text : ∀ type ∈ plainTypes, ofName? type.text = some type := by decide

theorem toJson_of_mem {type : ColumnType} (h : type ∈ plainTypes) : type.toJson = Json.ofText type.text := by
  cases type with
  | bitmask bits => simp [plainTypes] at h
  | _ => rfl

theorem ofJson?_ofText (depth : Nat) (name : String) : ofJson? depth (Json.ofText name) = ofName? name := by
  have hname : (Piece.toText? (Piece.ofText name)).bind ofName? = ofName? name := by
    rw [Piece.toText?_ofText, Option.bind_some]
  cases depth <;> exact hname

theorem restores (type : ColumnType) : Restores toJson ofJson? type := by
  rcases mem_plainTypes type with hplain | ⟨bits, rfl⟩
  · have hjson := toJson_of_mem hplain
    constructor
    · rw [hjson]
      exact written_ofText _
    · intro depth
      rw [hjson, ofJson?_ofText, ofName?_text type hplain]
      exact iff_of_true rfl (Nat.zero_le depth)
  · constructor
    · exact written_ofMembers (List.forall_mem_singleton.mpr (written_ofNat _))
    · intro depth
      cases depth with
      | zero => exact iff_of_false (fun hread => by cases hread) (Nat.not_succ_le_zero _)
      | succ depth =>
          have hbits : toNat? (maxWord 32) (ofNat bits.toNat) = some bits.toNat :=
            if_pos (Nat.le_of_lt_succ bits.toNat_lt)
          refine iff_of_true ?_ (depth_ofMembers_le.mpr (List.forall_mem_singleton.mpr (Nat.zero_le depth)))
          rw [toJson, ofMembers, List.map_singleton, ofJson?, Piece.toText?_ofText]
          simp [hbits]

theorem depth_toJson_le (type : ColumnType) : type.toJson.depth ≤ 1 := by
  cases type with
  | bitmask bits => exact depth_ofMembers_le.mpr (List.forall_mem_singleton.mpr (Nat.le_refl 0))
  | _ => exact Nat.zero_le 1

end ColumnType

/-! ## 2. Columns and column groups -/

namespace Column

theorem restores (c : Column) : Restores toJson ofJson? c := by
  refine Restores.record ["name", "type", "nullable"] rfl rfl (by decide) ?_ (fun _ => rfl) ?_
  · simp only [List.forall_mem_cons]
    exact ⟨written_ofText _, c.type.restores.written, (restores_bool _).written, List.forall_mem_nil _⟩
  · intro depth j hfields
    simp only [List.forall_mem_cons]
    rw [← (restores_text c.name).read_iff depth, ← c.type.restores.read_iff depth,
      ← (restores_bool c.nullable).read_iff depth, ofJson?, hfields]
    simp only [required, List.map_cons, List.map_nil, Option.bind_eq_bind, Option.bind_some,
      Option.bind_eq_some_iff]
    constructor
    · intro h
      obtain ⟨name, hname, type, htype, nullable, hnullable, h⟩ := h
      cases h
      exact ⟨hname, htype, hnullable, List.forall_mem_nil _⟩
    · intro h
      obtain ⟨hname, htype, hnullable, -⟩ := h
      exact ⟨c.name, hname, c.type, htype, c.nullable, hnullable, rfl⟩

theorem depth_toJson_le (c : Column) : c.toJson.depth ≤ 2 := by
  refine depth_ofMembers_le.mpr ?_
  simp only [List.forall_mem_cons]
  exact ⟨Nat.zero_le 1, c.type.depth_toJson_le, Nat.zero_le 1, List.forall_mem_nil _⟩

end Column

namespace Columns

variable {g : Columns}

/-- The numbers of a group's layout are machine words. -/
structure InWords (g : Columns) : Prop where
  fixedOffsets : ∀ offset ∈ g.fixedOffsets, offset < wordLimit
  fixedSize : g.fixedSize < wordLimit
  firstVarlen : ∀ index ∈ g.firstVarlen, index < wordLimit

theorem restores_word {n : Nat} (h : n < wordLimit) : Restores ofNat (fun _ => toNat? (maxWord 64)) n :=
  restores_nat (Nat.le_of_lt_succ h)

theorem restores (h : g.InWords) : Restores toJson ofJson? g := by
  have hcolumns := Restores.list fun c (_ : c ∈ g.columns) => c.restores
  have hoffsets := Restores.list fun o ho => restores_word (h.fixedOffsets o ho)
  have hsize := restores_word h.fixedSize
  have hvarlen := Restores.optional (fun i hi => restores_word (h.firstVarlen i hi)) fun _ => Json.noConfusion
  refine Restores.record ["columns", "fixed_offsets", "fixed_size", "first_varlen"] rfl rfl (by decide) ?_
    (fun _ => rfl) ?_
  · simp only [List.forall_mem_cons]
    exact ⟨hcolumns.written, hoffsets.written, hsize.written, hvarlen.written, List.forall_mem_nil _⟩
  · intro depth j hfields
    simp only [List.forall_mem_cons]
    rw [← hcolumns.read_iff depth, ← hoffsets.read_iff depth, ← hsize.read_iff depth,
      ← hvarlen.read_iff depth, ofJson?, hfields]
    simp only [required, List.map_cons, List.map_nil, Option.bind_eq_bind, Option.bind_some,
      Option.bind_eq_some_iff]
    constructor
    · intro h
      obtain ⟨columns, hcolumns, offsets, hoffsets, size, hsize, varlen, hvarlen, h⟩ := h
      cases h
      exact ⟨hcolumns, hoffsets, hsize, hvarlen, List.forall_mem_nil _⟩
    · intro h
      obtain ⟨hcolumns, hoffsets, hsize, hvarlen, -⟩ := h
      exact ⟨_, hcolumns, _, hoffsets, _, hsize, _, hvarlen, rfl⟩

theorem depth_toJson_le (g : Columns) : g.toJson.depth ≤ 4 := by
  refine depth_ofMembers_le.mpr ?_
  simp only [List.forall_mem_cons]
  refine ⟨depth_array_le.mpr ?_, depth_array_le.mpr ?_, Nat.zero_le 3, ?_, List.forall_mem_nil _⟩
  · exact List.forall_mem_map.mpr fun c _ => c.depth_toJson_le
  · exact List.forall_mem_map.mpr fun _ _ => Nat.zero_le 2
  · cases g.firstVarlen <;> exact Nat.zero_le 3

theorem mem_offsetsFrom {columns : List Column} {start offset : Nat}
    (h : offset ∈ offsetsFrom start columns) : offset ≤ start + widths columns := by
  induction columns generalizing start with
  | nil => cases h
  | cons c columns ih =>
      rw [offsetsFrom] at h
      rw [widths_cons]
      rcases List.mem_cons.mp h with rfl | h
      · exact Nat.le_add_right _ _
      · have := ih h
        omega

/-- A group that is laid out in machine words. -/
theorem inWords_ofList {declared : List Column} (hsize : (ofList declared).fixedSize < wordLimit)
    (hlength : declared.length < wordLimit) : (ofList declared).InWords where
  fixedOffsets offset hoffset := by
    have hle : offset ≤ 0 + (ofList declared).fixedSize := mem_offsetsFrom hoffset
    omega
  fixedSize := hsize
  firstVarlen index hindex := by
    have hlaid := laidOut_ofList declared
    obtain ⟨rfl, -⟩ := hlaid.firstVarlen_eq_some_iff.mp hindex
    have hcount := hlaid.fixedCount_le
    have hperm := (columns_perm_ofList declared).length_eq
    unfold length at hcount
    omega

end Columns

/-! ## 3. Diagnostics -/

namespace ReportColumn

theorem restores (c : ReportColumn) : Restores toJson ofJson? c := by
  refine Restores.record ["name", "type"] rfl rfl (by decide) ?_ (fun _ => rfl) ?_
  · simp only [List.forall_mem_cons]
    exact ⟨written_ofText _, c.type.restores.written, List.forall_mem_nil _⟩
  · intro depth j hfields
    simp only [List.forall_mem_cons]
    rw [← (restores_text c.name).read_iff depth, ← c.type.restores.read_iff depth, ofJson?, hfields]
    simp only [required, List.map_cons, List.map_nil, Option.bind_eq_bind, Option.bind_some,
      Option.bind_eq_some_iff]
    constructor
    · intro h
      obtain ⟨name, hname, type, htype, h⟩ := h
      cases h
      exact ⟨hname, htype, List.forall_mem_nil _⟩
    · intro h
      obtain ⟨hname, htype, -⟩ := h
      exact ⟨_, hname, _, htype, rfl⟩

end ReportColumn

namespace Diagnostic

/-- What a diagnostic was caused by. -/
def cause? : Diagnostic → Option Diagnostic
  | ⟨_, []⟩ => none
  | ⟨_, cause :: rest⟩ => some ⟨cause, rest⟩

theorem toJson_eq (d : Diagnostic) : d.toJson = d.report.toJson (ofOption toJson d.cause?) := by
  obtain ⟨report, causes⟩ := d
  cases causes <;> rfl

theorem toJson_ne_null (d : Diagnostic) : d.toJson ≠ .null := by
  rw [toJson_eq]
  exact Json.noConfusion

/-- A diagnostic is read back as its cause is. -/
theorem restores_of_cause {d : Diagnostic} (h : ∀ cause ∈ d.cause?, Restores toJson ofJson? cause) :
    Restores toJson ofJson? d := by
  have hcode := restores_text d.report.code
  have hmessage := restores_text d.report.message
  have hcolumn := Restores.optional (fun c (_ : c ∈ d.report.column) => c.restores) fun _ => Json.noConfusion
  have hlabel := Restores.optional (fun t (_ : t ∈ d.report.label) => restores_text t) fun _ => Json.noConfusion
  have hhelp := Restores.optional (fun t (_ : t ∈ d.report.help) => restores_text t) fun _ => Json.noConfusion
  have hnotes := Restores.list fun t (_ : t ∈ d.report.notes) => restores_text t
  have hcause := Restores.optional h toJson_ne_null
  refine Restores.record ["code", "message", "column", "label", "help", "notes", "cause"] (toJson_eq d) rfl
    (by decide) ?_ (fun _ => rfl) ?_
  · simp only [List.forall_mem_cons]
    exact ⟨hcode.written, hmessage.written, hcolumn.written, hlabel.written, hhelp.written, hnotes.written,
      hcause.written, List.forall_mem_nil _⟩
  · intro depth j hfields
    simp only [List.forall_mem_cons]
    rw [← hcode.read_iff depth, ← hmessage.read_iff depth, ← hcolumn.read_iff depth, ← hlabel.read_iff depth,
      ← hhelp.read_iff depth, ← hnotes.read_iff depth, ← hcause.read_iff depth, ofJson?, hfields]
    simp only [required, List.map_cons, List.map_nil, Option.bind_eq_bind, Option.bind_some,
      Option.bind_eq_some_iff]
    constructor
    · intro h
      obtain ⟨code, hcode, message, hmessage, column, hcolumn, label, hlabel, help, hhelp, notes, hnotes, cause,
        hcause, h⟩ := h
      -- what was read as the cause tells how many reports the chain goes on for
      cases cause with
      | none =>
          cases h
          exact ⟨hcode, hmessage, hcolumn, hlabel, hhelp, hnotes, hcause, List.forall_mem_nil _⟩
      | some cause =>
          cases h
          exact ⟨hcode, hmessage, hcolumn, hlabel, hhelp, hnotes, hcause, List.forall_mem_nil _⟩
    · intro h
      obtain ⟨hcode, hmessage, hcolumn, hlabel, hhelp, hnotes, hcause, -⟩ := h
      refine ⟨_, hcode, _, hmessage, _, hcolumn, _, hlabel, _, hhelp, _, hnotes, _, hcause, ?_⟩
      obtain ⟨report, causes⟩ := d
      cases causes <;> rfl

theorem restores (d : Diagnostic) : Restores toJson ofJson? d := by
  obtain ⟨report, causes⟩ := d
  induction causes generalizing report with
  | nil =>
      apply restores_of_cause
      intro cause hcause
      cases hcause
  | cons next rest ih =>
      apply restores_of_cause
      intro cause hcause
      cases hcause
      exact ih next

end Diagnostic

/-! ## 4. Encoded tuples -/

namespace EncodedTuple

theorem depth_toJson_le (t : EncodedTuple) : t.toJson.depth ≤ 1 := by
  refine depth_array_le.mpr ?_
  exact List.forall_mem_map.mpr fun _ _ => Nat.le_refl 0

theorem restores (t : EncodedTuple) : Restores toJson ofJson? t := by
  have hbyte : ∀ n ∈ t.bytes.map UInt8.toNat, n ≤ maxWord 8 :=
    List.forall_mem_map.mpr fun b _ => Nat.le_of_lt_succ b.toNat_lt
  have hbytes := Restores.list fun n hn => restores_nat (hbyte n hn)
  have hjson : t.toJson = .array ((t.bytes.map UInt8.toNat).map ofNat) := by
    rw [List.map_map]
    rfl
  have hback : (t.bytes.map UInt8.toNat).map UInt8.ofNat = t.bytes := by
    simp [Function.comp_def]
  constructor
  · rw [hjson]
    exact hbytes.written
  · intro depth
    cases depth with
    | zero => exact iff_of_false (fun hread => by cases hread) (Nat.not_succ_le_zero _)
    | succ depth =>
        have hle : t.toJson.depth ≤ depth + 1 := Nat.le_trans t.depth_toJson_le (Nat.le_add_left 1 depth)
        refine iff_of_true ?_ hle
        rw [hjson] at hle ⊢
        rw [ofJson?, (hbytes.read_iff _).mpr hle]
        · exact congrArg (fun bytes => some (mk bytes)) hback
        · exact fun _ => Json.noConfusion

end EncodedTuple

/-! ## 5. Texts -/

/-- **What was written as JSON is parsed as it was**: every diagnostic, exactly if it does not nest too deep,
    every column group that is laid out in machine words, and every encoded tuple. -/
theorem json_text_parses :
    (∀ d : Diagnostic, Diagnostic.parse? d.toJson.text = some d ↔ d.toJson.depth < 128) ∧
    (∀ declared : List Column, (Columns.ofList declared).fixedSize < wordLimit →
      declared.length < wordLimit →
      Columns.parse? (Columns.ofList declared).toJson.text = some (Columns.ofList declared)) ∧
    ∀ t : EncodedTuple, EncodedTuple.parse? t.toJson.text = some t := by
  refine ⟨?_, ?_, ?_⟩
  · intro d
    exact (d.restores.parse?_iff false).trans Nat.lt_succ_iff.symm
  · intro declared hsize hlength
    have hdepth := (Columns.ofList declared).depth_toJson_le
    have hrestores := Columns.restores (Columns.inWords_ofList hsize hlength)
    exact (hrestores.parse?_iff false).mpr (Nat.le_trans hdepth (by decide))
  · intro t
    exact (t.restores.parse?_iff true).mpr (Nat.le_trans t.depth_toJson_le (by decide))

/-- A diagnostic about a column, caused by a report with characters that have to be escaped. -/
def Diagnostic.nestedSample : Diagnostic :=
  ⟨⟨"tuple.flag", "flag out of range", some ⟨"flags", .bitmask 12⟩, none, some "clear it", ["12 flags"]⟩,
    [⟨"bits", "a \"quoted\" line\nand \u00e9\x00", none, some "\t", none, []⟩]⟩

/-- A text column and a bit mask, the mask declared last and stored first. -/
def Columns.mixedSample : List Column := [⟨"label", .utf8, true⟩, ⟨"flags", .bitmask 12, false⟩]

theorem json_text_parses_sample : Diagnostic.nestedSample.toJson.depth < 128 ∧
    Diagnostic.parse? Diagnostic.nestedSample.toJson.text = some Diagnostic.nestedSample ∧
    (Columns.ofList Columns.mixedSample).fixedSize < wordLimit ∧ Columns.mixedSample.length < wordLimit ∧
    Columns.parse? (Columns.ofList Columns.mixedSample).toJson.text = some (Columns.ofList Columns.mixedSample) := by
  have hdepth : Diagnostic.nestedSample.toJson.depth < 128 := by decide
  have hsize : (Columns.ofList Columns.mixedSample).fixedSize < wordLimit := by decide
  have hlength : Columns.mixedSample.length < wordLimit := by decide
  exact ⟨hdepth, (json_text_parses.1 _).mpr hdepth, hsize, hlength, json_text_parses.2.1 _ hsize hlength⟩

end RowCodec
