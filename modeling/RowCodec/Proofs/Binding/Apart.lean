import RowCodec.Proofs.Binding.Alike
import RowCodec.Proofs.Tuple.Grammar
import Mathlib.Data.List.Forall2

/-!
# The two chunks are apart

A key is decoded from the key chunk alone, and a value from the value chunk alone. Two accepted tuples may
differ in the other chunk as they like, in its length too: the value chunk is then read at another place.

* `GroupBinding.index_of_ofShape` -- a group is bound to the columns of its side.
* `GroupBinding.read_congr` -- what a group reads depends on nothing but its columns.
* `Splits.agreesAt_key`, `Splits.agreesAt_value` -- tuples with equal chunks agree on that side.
* `Schema.chunks_apart` -- **equal chunks are read and decoded alike**, to the same values or with the same
  failures.
-/

namespace RowCodec

/-! ## 1. Columns of one side -/

namespace GroupBinding

variable {redact : Bool} {offset : Nat} {side : String} {g : GroupBinding} {t t' : View}

theorem index_of_bindColumns {columns : List Column} {fields : List FieldDef} {index : Nat}
    {accessors : List Accessor} (h : bindColumns redact index columns fields = .ok accessors) :
    ∀ a ∈ accessors, index ≤ a.index ∧ a.index < index + columns.length := by
  intro a ha
  obtain ⟨hlen, hall⟩ := ofField_of_bindColumns h
  obtain ⟨p, hp⟩ := List.mem_iff_getElem?.mp ha
  have hlt : p < columns.length := hlen ▸ (List.getElem?_eq_some_iff.mp hp).1
  obtain ⟨d, _, hof⟩ := hall p a _ hp (List.getElem?_eq_getElem hlt)
  obtain ⟨_, _, _, _, _, rfl⟩ := Accessor.ofField_ok hof
  dsimp only
  omega

/-- **A group is bound to columns of its side**, whatever type is bound. -/
theorem index_of_ofShape {shape : Shape} {columns : Columns}
    (h : ofShape shape columns offset side redact = .ok g) :
    ∀ a ∈ g.accessors, offset ≤ a.index ∧ a.index < offset + columns.length := by
  intro a ha
  cases shape with
  | scalar scalar =>
      obtain ⟨c, own, hc, hown, rfl⟩ := ofShape_scalar h
      obtain ⟨_, _, _, _, rfl⟩ := Accessor.ofWhole_ok hown
      obtain rfl := List.mem_singleton.mp ha
      unfold Columns.length
      rw [hc]
      exact ⟨Nat.le_refl _, Nat.lt_succ_self _⟩
  | record fields =>
      obtain ⟨accessors, hall, rfl⟩ := ofShape_record h
      exact index_of_bindColumns hall a ha

/-- **A group is read alike** from tuples that agree at its columns. -/
theorem read_congr (h : ∀ a ∈ g.accessors, t.AgreesAt t' a.index) : g.read t' = g.read t := by
  cases g with
  | whole a => exact (Accessor.ReadsAlike.refl a).readWhole_eq (h a List.mem_cons_self)
  | record fresh accessors =>
      refine readAll_congr (List.forall₂_same.mpr fun a ha => ?_) fresh
      exact ⟨Accessor.ReadsAlike.refl a, h a ha⟩

end GroupBinding

/-! ## 2. Chunks of bytes -/

namespace Schema

variable {s : Schema} {bytes bytes' k v k' v' : List UInt8} {t t' : View}

namespace Splits

/-- The chunks that a view's positions enclose are those that its bytes split into. -/
theorem bytes_eq_of_new (hs : s.Sound) (h : s.Splits bytes k v) (ht : View.new s bytes = .ok t) :
    t.keyChunk.bytes = k ∧ t.valueChunk.bytes = v :=
  (View.splits_of_new hs ht).unique h

/-- Tuples with one key chunk agree at the key's columns. -/
theorem agreesAt_key (hs : s.Sound) (h : s.Splits bytes k v) (h' : s.Splits bytes' k v')
    (ht : View.new s bytes = .ok t) (ht' : View.new s bytes' = .ok t') {i : Nat}
    (hi : i < s.key.length) : t.AgreesAt t' i := by
  obtain ⟨hsound, rfl, _⟩ := View.sound_of_new hs ht
  obtain ⟨hsound', hsame, _⟩ := View.sound_of_new hs ht'
  have hkey : t'.keyChunk = t.keyChunk :=
    hsound.key.ext hsound'.key (congrArg Schema.key hsame)
      ((h'.bytes_eq_of_new hs ht').1.trans (h.bytes_eq_of_new hs ht).1.symm)
  exact View.agreesAt_key hsound hsound' hsame hkey hi

/-- Tuples with one value chunk agree at all other indices, wherever the chunk stands. -/
theorem agreesAt_value (hs : s.Sound) (h : s.Splits bytes k v) (h' : s.Splits bytes' k' v)
    (ht : View.new s bytes = .ok t) (ht' : View.new s bytes' = .ok t') {i : Nat}
    (hi : s.key.length ≤ i) : t.AgreesAt t' i := by
  obtain ⟨hsound, rfl, _⟩ := View.sound_of_new hs ht
  obtain ⟨hsound', hsame, _⟩ := View.sound_of_new hs ht'
  have hvalue : t'.valueChunk = t.valueChunk :=
    hsound.value.ext hsound'.value (congrArg Schema.value hsame)
      ((h'.bytes_eq_of_new hs ht').2.trans (h.bytes_eq_of_new hs ht).2.symm)
  exact View.agreesAt_value hsound hsound' hsame hvalue hi

end Splits

end Schema

/-! ## 3. Both sides -/

namespace Serializer

variable {s : Schema} {config : Config} {key value : Shape} {z : Serializer}
  {bytes bytes' : List UInt8} {t t' : View}

theorem decodeKey_congr (hnew : Serializer.new s config key value = .ok z)
    (ht : View.new s bytes = .ok t) (ht' : View.new s bytes' = .ok t')
    (h : ∀ i < s.key.length, t.AgreesAt t' i) : z.decodeKey bytes' = z.decodeKey bytes := by
  obtain ⟨kg, hkey, hnew⟩ := Outcome.bind_ok hnew
  obtain ⟨vg, _, hnew⟩ := Outcome.bind_ok hnew
  cases hnew
  unfold decodeKey view
  dsimp only
  rw [ht, ht', Outcome.mapCause_eq, Outcome.mapCause_eq, Outcome.ok_bind, Outcome.ok_bind]
  refine GroupBinding.read_congr fun a ha => h _ ?_
  have hindex := GroupBinding.index_of_ofShape hkey a ha
  omega

theorem decodeValue_congr (hnew : Serializer.new s config key value = .ok z)
    (ht : View.new s bytes = .ok t) (ht' : View.new s bytes' = .ok t')
    (h : ∀ i, s.key.length ≤ i → t.AgreesAt t' i) : z.decodeValue bytes' = z.decodeValue bytes := by
  obtain ⟨kg, _, hnew⟩ := Outcome.bind_ok hnew
  obtain ⟨vg, hvalue, hnew⟩ := Outcome.bind_ok hnew
  cases hnew
  unfold decodeValue view
  dsimp only
  rw [ht, ht', Outcome.mapCause_eq, Outcome.mapCause_eq, Outcome.ok_bind, Outcome.ok_bind]
  exact GroupBinding.read_congr fun a ha => h _ (GroupBinding.index_of_ofShape hvalue a ha).1

end Serializer

/-- **Nothing is read across the border of the chunks.** Any two accepted tuples split into a key chunk and
    a value chunk each, in one way only. If the key chunks are the same bytes, every getter gives the same
    at every column of the key, and every serializer decodes the same key or fails in the same way. If the
    value chunks are, the same holds of the value, also when they start at different places. -/
theorem Schema.chunks_apart {version : UInt32} {keyColumns valueColumns : List Column} {s : Schema}
    (hdef : Schema.define version keyColumns valueColumns = .ok s) {bytes bytes' : List UInt8}
    {t t' : View} (ht : View.new s bytes = .ok t) (ht' : View.new s bytes' = .ok t') :
    ∃ k v k' v', s.Splits bytes k v ∧ s.Splits bytes' k' v' ∧
      (k = k' → (∀ i < s.key.length, t.AgreesAt t' i) ∧
        ∀ config key value z, Serializer.new s config key value = .ok z →
          z.decodeKey bytes' = z.decodeKey bytes) ∧
      (v = v' → (∀ i, s.key.length ≤ i → t.AgreesAt t' i) ∧
        ∀ config key value z, Serializer.new s config key value = .ok z →
          z.decodeValue bytes' = z.decodeValue bytes) := by
  have hs := Schema.sound_of_define hdef
  have hsplit := View.splits_of_new hs ht
  have hsplit' := View.splits_of_new hs ht'
  refine ⟨_, _, _, _, hsplit, hsplit', fun hk => ?_, fun hv => ?_⟩
  · rw [← hk] at hsplit'
    have hagree : ∀ i < s.key.length, t.AgreesAt t' i :=
      fun i hi => hsplit.agreesAt_key hs hsplit' ht ht' hi
    exact ⟨hagree, fun _ _ _ _ hnew => Serializer.decodeKey_congr hnew ht ht' hagree⟩
  · rw [← hv] at hsplit'
    have hagree : ∀ i, s.key.length ≤ i → t.AgreesAt t' i :=
      fun i hi => hsplit.agreesAt_value hs hsplit' ht ht' hi
    exact ⟨hagree, fun _ _ _ _ hnew => Serializer.decodeValue_congr hnew ht ht' hagree⟩

/-- A key chunk with a byte behind its number. -/
def View.longChunk : List UInt8 := [10, 0, 0, 0, 1, 1, 2, 3, 4, 7]

/-- The value chunk stands at another place in the second tuple, and leads nowhere in both. -/
theorem Schema.chunks_apart_long : ∃ t t' z,
    Schema.define 1 [⟨"id", .number .int4, false⟩] [⟨"name", .utf8, true⟩] = .ok View.nameSchema ∧
    View.new View.nameSchema
      (View.nameSchema.fingerprint.toBytes ++ View.strayChunk ++ View.looseChunk) = .ok t ∧
    View.new View.nameSchema
      (View.nameSchema.fingerprint.toBytes ++ View.longChunk ++ View.looseChunk) = .ok t' ∧
    Serializer.new View.nameSchema Config.standard (.ofMode (.nullable .int4)) (.ofMode .utf8) = .ok z ∧
    t.AgreesAt t' 1 ∧
    z.decodeValue (View.nameSchema.fingerprint.toBytes ++ View.longChunk ++ View.looseChunk) =
      z.decodeValue (View.nameSchema.fingerprint.toBytes ++ View.strayChunk ++ View.looseChunk) := by
  have hdef : Schema.define 1 [⟨"id", .number .int4, false⟩] [⟨"name", .utf8, true⟩] =
      .ok View.nameSchema := rfl
  have hs := Schema.sound_of_define hdef
  have hstray : View.nameSchema.Splits
      (View.nameSchema.fingerprint.toBytes ++ View.strayChunk ++ View.looseChunk)
      View.strayChunk View.looseChunk := ⟨rfl, by decide, by decide⟩
  have hlong : View.nameSchema.Splits
      (View.nameSchema.fingerprint.toBytes ++ View.longChunk ++ View.looseChunk)
      View.longChunk View.looseChunk := ⟨rfl, by decide, by decide⟩
  have hnew : Serializer.new View.nameSchema Config.standard (.ofMode (.nullable .int4))
      (.ofMode .utf8) = .ok _ := rfl
  obtain ⟨k, v, k', v', h, h', _, hvalue⟩ :=
    chunks_apart hdef (hstray.new_eq hs) (hlong.new_eq hs)
  obtain ⟨hagree, hdecode⟩ := hvalue ((h.unique hstray).2.trans (h'.unique hlong).2.symm)
  exact ⟨_, _, _, hdef, hstray.new_eq hs, hlong.new_eq hs, hnew, hagree 1 (Nat.le_refl _),
    hdecode _ _ _ _ hnew⟩

end RowCodec
