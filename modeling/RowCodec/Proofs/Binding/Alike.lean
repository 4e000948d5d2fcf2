import RowCodec.Proofs.Binding.RoundTrip
import RowCodec.Proofs.Tuple.RenamedBuilder
import Mathlib.Data.List.Forall2

/-!
# Two serializers at once

Two serializers whose schemas differ in names at most, each with a row of its own. When their accessors
store the same values, and report them with the same words when they are refused, the two serializers end
alike.

* `Accessor.StoresAlike` -- two accessors, which may be bound to fields of different names, or one to a
  field and the other to a whole object.
* `Accessor.ReadsAlike` -- two accessors that read a column into the same place, in the same words when
  it cannot be read; `readAll_congr` and `ReadsAlike.readWhole_eq` for tuples that agree at the columns.
* `GroupBinding.StoresAlike` -- column by column; the groups count the same texts (`statistic_eq`) and
  write them in step (`write_alike`).
* `Serializer.serialize_alike` -- **the tuples are the same behind their fingerprints, or the reports are
  the same.**
-/

namespace RowCodec

variable {ρ : String → String} {o o' : Object}

/-! ## 1. One column -/

/-- **The two accessors store alike**, each from an object of its own. -/
structure Accessor.StoresAlike (o o' : Object) (a a' : Accessor) : Prop where
  value_eq : a'.value o' = a.value o
  /-- Both are given a null where an object must not be one, or neither is. -/
  absent_eq : (a'.isWhole && (a'.value o').isUndefined) = (a.isWhole && (a.value o).isUndefined)
  failure_eq : a'.failure .write = a.failure .write

theorem Accessor.StoresAlike.write_alike {s s' : Schema} {a a' : Accessor} {b b' : Builder}
    (h : StoresAlike o o' a a') (hs : s.Renames ρ s') (hb : Builder.Alike s s' b b') :
    Step.Alike s s' (a.write o b) (a'.write o' b') := by
  unfold Accessor.write
  rw [h.absent_eq, h.value_eq, h.failure_eq]
  split
  · exact ⟨hb, rfl⟩
  · exact (hb.append hs (a.value o)).mapCause rfl

/-- **The two accessors read alike**, from tuples that agree at their column. -/
structure Accessor.ReadsAlike (a a' : Accessor) : Prop where
  index_eq : a'.index = a.index
  mode_eq : a'.mode = a.mode
  target_eq : a'.target = a.target
  failure_eq : a'.failure .read = a.failure .read

namespace Accessor.ReadsAlike

variable {a a' : Accessor} {t t' : View}

theorem refl (a : Accessor) : a.ReadsAlike a := ⟨rfl, rfl, rfl, rfl⟩

variable (h : a.ReadsAlike a') (ht : t.AgreesAt t' a.index)

include h ht

theorem readValue_eq : a'.readValue t' = a.readValue t := by
  rw [readValue_eq_valueAs, readValue_eq_valueAs, h.mode_eq, h.index_eq, ht.valueAs]

theorem readAs_eq (mode : Mode) : a'.readAs t' mode = a.readAs t mode := by
  have hvalue := h.readValue_eq ht
  cases mode with
  | required kind =>
      unfold readAs
      dsimp only
      rw [h.index_eq, ht.number]
  | _ =>
      unfold readAs
      rw [hvalue]

theorem read_eq (o : Object) : a'.read o t' = a.read o t := by
  unfold Accessor.read
  rw [h.target_eq, h.failure_eq, h.index_eq]
  simp only [h.readAs_eq ht]

theorem readWhole_eq : a'.readWhole t' = a.readWhole t := by
  unfold readWhole
  rw [h.target_eq, h.failure_eq, h.index_eq, h.readValue_eq ht]

end Accessor.ReadsAlike

/-! ## 2. One side -/

namespace GroupBinding

/-- Reading the two groups' columns in step. -/
theorem readAll_congr {t t' : View} {accessors accessors' : List Accessor}
    (h : List.Forall₂ (fun a a' => a.ReadsAlike a' ∧ t.AgreesAt t' a.index) accessors accessors') :
    ∀ o : Object, readAll t' accessors' o = readAll t accessors o := by
  induction h with
  | nil => exact fun _ => rfl
  | cons ha _ ih =>
      intro o
      unfold readAll
      rw [ha.1.read_eq ha.2]
      simp only [ih]

/-- **The two groups store alike**, column by column. -/
structure StoresAlike (g g' : GroupBinding) (o o' : Object) : Prop where
  isNull_eq : g'.isNull o' = g.isNull o
  accessors : List.Forall₂ (Accessor.StoresAlike o o') g.accessors g'.accessors

theorem storesAlike_refl (g : GroupBinding) (o : Object) : g.StoresAlike g o o :=
  ⟨rfl, List.forall₂_same.mpr fun _ _ => ⟨rfl, rfl, rfl⟩⟩

theorem map_value_eq {accessors accessors' : List Accessor}
    (h : List.Forall₂ (Accessor.StoresAlike o o') accessors accessors') :
    (accessors'.map fun a => a.value o') = accessors.map fun a => a.value o := by
  induction h with
  | nil => rfl
  | cons ha _ ih => rw [List.map_cons, List.map_cons, ha.value_eq, ih]

/-- The texts of a group are counted by the values that it stores. -/
theorem recordValues_congr {ε : Type} {g g' : GroupBinding} (h : g'.row o' = g.row o) :
    ∀ (positions : List Nat) (stat : Statistic),
      g'.recordValues (ε := ε) o' positions stat = g.recordValues o positions stat
  | [], _ => rfl
  | p :: rest, stat => by
      have ih := recordValues_congr (ε := ε) h rest
      unfold recordValues
      rw [value_eq_row g', h, ← value_eq_row g]
      simp only [ih]

/-- Writing the two groups' columns in step. -/
theorem writeAll_alike {s s' : Schema} (hs : s.Renames ρ s') {accessors accessors' : List Accessor}
    (h : List.Forall₂ (Accessor.StoresAlike o o') accessors accessors') :
    ∀ {b b' : Builder}, Builder.Alike s s' b b' →
      Step.Alike s s' (writeAll o accessors b) (writeAll o' accessors' b') := by
  induction h with
  | nil => exact fun hb => ⟨hb, rfl⟩
  | @cons a a' rest rest' ha _ ih =>
      intro b b' hb
      have hstep := ha.write_alike hs hb
      cases hend : (a.write o b).outcome with
      | ok u =>
          rw [writeAll_of_ok hend, writeAll_of_ok (hstep.outcome.trans hend)]
          exact ih hstep.builder
      | error fault =>
          rw [writeAll_of_error hend, writeAll_of_error (hstep.outcome.trans hend)]
          exact ⟨hstep.builder, rfl⟩

namespace StoresAlike

variable {g g' : GroupBinding} (h : g.StoresAlike g' o o')

include h

theorem row_eq : g'.row o' = g.row o := map_value_eq h.accessors

theorem statistic_eq {ε : Type} (columns : Columns) :
    g'.statistic (ε := ε) (columns.rename ρ) o' = g.statistic columns o := by
  unfold statistic
  rw [Columns.length_rename, Columns.varlenBefore_rename, recordValues_congr h.row_eq]

theorem write_alike {s s' : Schema} (hs : s.Renames ρ s') {b b' : Builder}
    (hb : Builder.Alike s s' b b') : Step.Alike s s' (g.write o b) (g'.write o' b') :=
  writeAll_alike hs h.accessors hb

end StoresAlike

end GroupBinding

/-! ## 3. Both sides -/

theorem Schema.Renames.tupleSize_eq {ε : Type} {s s' : Schema} (hs : s.Renames ρ s')
    (key value : Statistic) :
    s'.tupleSize (ε := ε) key value = s.tupleSize key value := by
  unfold tupleSize tupleBytes Columns.chunkBytes
  rw [hs.key_eq, hs.value_eq, Columns.nullMapSize_rename, Columns.nullMapSize_rename,
    Columns.fixedSize_rename, Columns.fixedSize_rename]

/-- Rows that are stored alike have the same texts. -/
theorem Serializer.statistics_eq {s s' : Serializer} {k k' : Object} {v v' : Option Object}
    (hs : s.schema.Renames ρ s'.schema) (hk : s.key.StoresAlike s'.key k k')
    (hv : Option.Rel (s.value.StoresAlike s'.value) v v') :
    s'.statistics k' v' = s.statistics k v := by
  unfold statistics
  rw [hs.key_eq, hs.value_eq, hk.statistic_eq]
  cases hv with
  | none => rfl
  | some hv =>
      dsimp only
      rw [hv.statistic_eq]

/-- **Rows that are stored alike are serialized alike**: to tuples that are the same behind their
    fingerprints, or to the same fault. -/
theorem Serializer.serialize_alike {s s' : Serializer} {k k' : Object} {v v' : Option Object}
    (hs : s.schema.Renames ρ s'.schema) (hk : s.key.StoresAlike s'.key k k')
    (hv : Option.Rel (s.value.StoresAlike s'.value) v v') :
    Outcome.Alike (EncodedTuple.Alike s.schema s'.schema) (s.serialize k v) (s'.serialize k' v') := by
  unfold serialize
  rw [hk.isNull_eq]
  split
  · exact .error _
  · cases hv with
    | none => exact .error _
    | @some v v' hv =>
        dsimp only
        rw [statistics_eq hs hk (.some hv)]
        refine .after _ ?_
        rintro ⟨keyStatistic, valueStatistic⟩
        dsimp only
        rw [hs.tupleSize_eq]
        refine .after _ ?_
        intro size
        refine ((Builder.new_alike hs _ _ _).mapCause rfl).bind ?_
        intro b b' hb
        have hkey := hk.write_alike hs hb
        have hvalue := hv.write_alike hs hkey.builder
        rw [hkey.outcome, hvalue.outcome]
        refine .after _ ?_
        intro _
        refine .after _ ?_
        intro _
        rw [Outcome.ofExcept_mapError, Outcome.ofExcept_mapError]
        exact (hvalue.builder.build hs).mapCause rfl

/-- Under one schema they are serialized to one tuple, or to the same fault. -/
theorem Serializer.serialize_eq {schema : Schema} {config config' : Config} {kg kg' vg vg' : GroupBinding}
    {k k' : Object} {v v' : Option Object} (hk : kg.StoresAlike kg' k k')
    (hv : Option.Rel (vg.StoresAlike vg') v v') :
    serialize ⟨schema, config', kg', vg'⟩ k' v' = serialize ⟨schema, config, kg, vg⟩ k v := by
  -- A schema is its own renaming, and two tuples of it that are the same behind the fingerprint are one.
  have halike := @serialize_alike id ⟨schema, config, kg, vg⟩ ⟨schema, config', kg', vg'⟩ k k' v v'
    (.refl schema) hk hv
  exact (halike.imp fun _ _ h => h.eq).eq.symm

end RowCodec
