import RowCodec.Proofs.Tuple.Renaming
import Mathlib.Data.List.Basic

/-!
# What a fingerprint identifies

A fingerprint is a hash of a layout that was written out. Nothing depends on which hash it is: what is
hashed determines the layout, since each column's record says where it ends, so that the records that
stand one behind the other can be taken apart again, and each says which group it belongs to.

* `typeRecord_append`, `columnRecord_append` -- a record in front of anything is found again.
* `records_injective` -- so are the records of a whole schema, by induction on its columns.
* `Schema.SameLayout` -- two schemas with the same columns in the same order, of any two versions.
* `Schema.layout_of_hash` -- **the layout decides what is hashed, and the other way round**, whatever the
  hash (`Schema.HashedBy`): schemas of one layout read each other's tuples, and two layouts share a
  fingerprint only where the hash collides.
* `Schema.layout_of_fingerprint` -- the same of the schemas that `Schema.define` makes, and its hash.
-/

namespace RowCodec

/-! ## 1. Records -/

theorem Utf8.encode_injective {text text' : String} (h : encode text = encode text') :
    text = text' := by
  have hdecode := congrArg decode? h
  rw [decode?_encode, decode?_encode] at hdecode
  exact Option.some.inj hdecode

/-- Types of one tag are of one kind. -/
theorem ColumnType.sameKind_of_tag {type type' : ColumnType} (h : type.tag = type'.tag) :
    type.sameKind type' = true := by
  -- There are ten tags: two types with different ones cannot be given `h`.
  rcases type with (_ | _ | _ | _ | _ | _) | _ | bits | _ | _ <;>
    rcases type' with (_ | _ | _ | _ | _ | _) | _ | bits' | _ | _ <;>
    first | rfl | cases h

/-- The length of the column's name is a 32-bit word, as it is written out. -/
def Column.NameFits (c : Column) : Prop := (Utf8.encode c.name).length < 256 ^ 4

instance (c : Column) : Decidable c.NameFits := inferInstanceAs (Decidable (_ < _))

namespace Fingerprint

variable {rest rest' : List UInt8}

/-- A word in front of anything is found again. -/
theorem word_append {m n : Nat} (hm : m < 256 ^ 4) (hn : n < 256 ^ 4)
    (h : LittleEndian.encode 4 m ++ rest = LittleEndian.encode 4 n ++ rest') :
    m = n ∧ rest = rest' := by
  obtain ⟨hword, hrest⟩ := List.append_inj h (by
    rw [LittleEndian.length_encode, LittleEndian.length_encode])
  exact ⟨LittleEndian.encode_injective hm hn hword, hrest⟩

theorem typeRecord_append {type type' : ColumnType}
    (h : typeRecord type ++ rest = typeRecord type' ++ rest') : type = type' ∧ rest = rest' := by
  have hhead : ∀ type : ColumnType, ∃ more, typeRecord type = type.tag :: more := by
    intro type
    cases type <;> exact ⟨_, rfl⟩
  obtain ⟨more, hmore⟩ := hhead type
  obtain ⟨more', hmore'⟩ := hhead type'
  have htag : type.tag = type'.tag := by
    rw [hmore, hmore'] at h
    exact (List.cons.inj h).1
  rcases ColumnType.sameKind_iff.mp (ColumnType.sameKind_of_tag htag) with rfl | ⟨m, n, rfl, rfl⟩
  · exact ⟨rfl, List.append_cancel_left h⟩
  · obtain ⟨hbits, hrest⟩ := word_append m.toNat_lt n.toNat_lt (List.cons.inj h).2
    exact ⟨congrArg ColumnType.bitmask (UInt32.toNat_inj.mp hbits), hrest⟩

/-- **A column's record says where it ends**, and whose it is. -/
theorem columnRecord_append {group group' : UInt8} {c c' : Column} (hc : c.NameFits)
    (hc' : c'.NameFits) (h : columnRecord group c ++ rest = columnRecord group' c' ++ rest') :
    group = group' ∧ c = c' ∧ rest = rest' := by
  obtain ⟨name, type, nullable⟩ := c
  obtain ⟨name', type', nullable'⟩ := c'
  have hc : (Utf8.encode name).length < 256 ^ 4 := hc
  have hc' : (Utf8.encode name').length < 256 ^ 4 := hc'
  unfold columnRecord at h
  simp only [List.cons_append, List.append_assoc, List.nil_append] at h
  obtain ⟨hgroup, hword⟩ := List.cons.inj h
  obtain ⟨hlen, hbytes⟩ := word_append hc hc' hword
  obtain ⟨hname, htyped⟩ := List.append_inj hbytes hlen
  obtain ⟨htype, hflag⟩ := typeRecord_append htyped
  obtain ⟨hnull, hrest⟩ := List.cons.inj hflag
  have hnullable : nullable = nullable' := by
    revert hnull
    cases nullable <;> cases nullable' <;> simp
  rw [Utf8.encode_injective hname, htype, hnullable]
  exact ⟨hgroup, rfl, hrest⟩

/-! ## 2. Layouts -/

/-- The records of columns, each with its group. -/
def records (columns : List (UInt8 × Column)) : List UInt8 :=
  columns.flatMap fun column => columnRecord column.1 column.2

/-- Columns of a key and a value, each with its group. -/
def grouped (key value : Columns) : List (UInt8 × Column) :=
  key.columns.map (0, ·) ++ value.columns.map (1, ·)

theorem preimage_eq (key value : Columns) : preimage key value = records (grouped key value) := by
  unfold preimage records grouped
  rw [List.flatMap_append, List.flatMap_map, List.flatMap_map]

/-- **The records are taken apart**, one column at a time. -/
theorem records_injective : ∀ {columns columns' : List (UInt8 × Column)},
    (∀ column ∈ columns, column.2.NameFits) → (∀ column ∈ columns', column.2.NameFits) →
      records columns = records columns' → columns = columns'
  | [], [], _, _, _ => rfl
  | [], _ :: _, _, _, h => by cases h
  | _ :: _, [], _, _, h => by cases h
  | (group, c) :: more, (group', c') :: more', hn, hn', h => by
      obtain ⟨hgroup, hcolumn, hrest⟩ :
          group = group' ∧ c = c' ∧ records more = records more' :=
        columnRecord_append (hn _ List.mem_cons_self) (hn' _ List.mem_cons_self) h
      have ih := records_injective (fun column hm => hn column (List.mem_cons_of_mem _ hm))
        (fun column hm => hn' column (List.mem_cons_of_mem _ hm)) hrest
      rw [ih, hgroup, hcolumn]

/-- No column can be taken for one of the other group. -/
theorem grouped_injective {key value key' value' : Columns}
    (h : grouped key value = grouped key' value') :
    key.columns = key'.columns ∧ value.columns = value'.columns := by
  have hkey : ∀ key value : Columns,
      ((grouped key value).filter (·.1 = 0)).map (·.2) = key.columns := by
    intro key value
    simp [grouped, List.filter_map, Function.comp_def, List.filter_true, List.filter_false]
  have hvalue : ∀ key value : Columns,
      ((grouped key value).filter (·.1 = 1)).map (·.2) = value.columns := by
    intro key value
    simp [grouped, List.filter_map, Function.comp_def, List.filter_true, List.filter_false]
  constructor
  · rw [← hkey key value, h, hkey]
  · rw [← hvalue key value, h, hvalue]

/-- **What is hashed determines the columns** of both groups, in their order. -/
theorem preimage_injective {key value key' value' : Columns}
    (hn : ∀ c ∈ key.columns ++ value.columns, c.NameFits)
    (hn' : ∀ c ∈ key'.columns ++ value'.columns, c.NameFits)
    (h : preimage key value = preimage key' value') :
    key.columns = key'.columns ∧ value.columns = value'.columns := by
  have hfits : ∀ {key value : Columns}, (∀ c ∈ key.columns ++ value.columns, c.NameFits) →
      ∀ column ∈ grouped key value, column.2.NameFits := by
    intro key value hn column hm
    apply hn
    rcases List.mem_append.mp hm with hm | hm
    · obtain ⟨c, hc, rfl⟩ := List.mem_map.mp hm
      exact List.mem_append_left _ hc
    · obtain ⟨c, hc, rfl⟩ := List.mem_map.mp hm
      exact List.mem_append_right _ hc
  rw [preimage_eq, preimage_eq] at h
  exact grouped_injective (records_injective (hfits hn) (hfits hn') h)

end Fingerprint

/-! ## 3. Schemas -/

namespace Schema

variable {s s' : Schema}

/-- **The two schemas have the same layout**: the same key columns and the same value columns, in the
    order in which they are stored. -/
structure SameLayout (s s' : Schema) : Prop where
  key_eq : s.key.columns = s'.key.columns
  value_eq : s.value.columns = s'.value.columns

/-- The length of every column's name is a 32-bit word. -/
def NamesFit (s : Schema) : Prop := ∀ c ∈ s.key.columns ++ s.value.columns, c.NameFits

instance (s : Schema) : Decidable s.NamesFit := inferInstanceAs (Decidable (∀ c ∈ _, _))

/-- **The schema's fingerprint is the hash of its layout** under `hash`, and its groups are laid out. -/
structure HashedBy (hash : List UInt8 → UInt64) (s : Schema) : Prop where
  key : s.key.LaidOut
  value : s.value.LaidOut
  fingerprint : s.fingerprint = ⟨hash (Fingerprint.preimage s.key s.value)⟩

theorem Sound.hashedBy (h : s.Sound) : s.HashedBy Xxh3.hash := ⟨h.key, h.value, h.fingerprint⟩

/-- Schemas of one layout, hashed alike, differ in their versions only. -/
theorem SameLayout.eq_version {hash : List UInt8 → UInt64} (h : s.SameLayout s')
    (hs : s.HashedBy hash) (hs' : s'.HashedBy hash) : s' = { s with version := s'.version } := by
  have hkey : s'.key = s.key := by
    rw [← hs'.key, ← hs.key, h.key_eq]
  have hvalue : s'.value = s.value := by
    rw [← hs'.value, ← hs.value, h.value_eq]
  have hprint : s'.fingerprint = s.fingerprint := by
    rw [hs'.fingerprint, hs.fingerprint, hkey, hvalue]
  obtain ⟨version, fingerprint, key, value⟩ := s
  obtain ⟨version', fingerprint', key', value'⟩ := s'
  cases hkey
  cases hvalue
  cases hprint
  rfl

/-- What a view of the same bytes counts does not depend on its schema. -/
theorem rank_schema (t : View) (s : Schema) (chunk : ChunkView) : ∀ positions : List Nat,
    View.rank { t with schema := s } chunk positions = t.rank chunk positions
  | [] => rfl
  | p :: rest => by
      have ih := rank_schema t s chunk rest
      unfold View.rank
      rw [ih]
      rfl

/-- A view's getters do not look at its schema's version. -/
theorem agrees_version (t : View) (version : UInt32) :
    t.Agrees { t with schema := { t.schema with version } } := by
  refine View.agrees_of_agreesAt fun index => View.agreesAt_of_bytes ?_ rfl (fun _ _ => rfl) ?_
  · exact (Outcome.Alike.same (t.locate index)).imp fun found found' hsame => by rw [hsame]
  · intro requested _
    unfold View.varlenBytes? View.varlenBytes View.varlenRange
    simp only [rank_schema]
    rfl

/-- The version of a schema is not looked at by its reader. -/
theorem new_version (s : Schema) (version : UInt32) (bytes : List UInt8) :
    Outcome.Alike View.Agrees (View.new s bytes) (View.new { s with version } bytes) := by
  unfold View.new
  split
  · exact .error _
  · dsimp only
    split
    · exact .error _
    · refine .after _ ?_
      intro keyView
      refine .after _ ?_
      intro valueView
      split
      · refine .after _ ?_
        intro count
        exact .error _
      · exact .ok (agrees_version ⟨s, bytes, keyView, valueView⟩ version)

/-- **The layout decides what is hashed, and what is hashed decides the layout**, whatever the hash.
    Schemas of one layout read each other's tuples alike, and two layouts with one fingerprint are a
    collision of the hash. -/
theorem layout_of_hash {hash : List UInt8 → UInt64} (hs : s.HashedBy hash) (hs' : s'.HashedBy hash)
    (hn : s.NamesFit) (hn' : s'.NamesFit) :
    (Fingerprint.preimage s.key s.value = Fingerprint.preimage s'.key s'.value ↔ s.SameLayout s') ∧
    (s.SameLayout s' → s.fingerprint = s'.fingerprint ∧
      ∀ bytes, Outcome.Alike View.Agrees (View.new s bytes) (View.new s' bytes)) ∧
    (¬ s.SameLayout s' → s.fingerprint = s'.fingerprint →
      Fingerprint.preimage s.key s.value ≠ Fingerprint.preimage s'.key s'.value ∧
      hash (Fingerprint.preimage s.key s.value) = hash (Fingerprint.preimage s'.key s'.value)) := by
  have hlayout : Fingerprint.preimage s.key s.value = Fingerprint.preimage s'.key s'.value →
      s.SameLayout s' := by
    intro h
    obtain ⟨hkey, hvalue⟩ := Fingerprint.preimage_injective hn hn' h
    exact ⟨hkey, hvalue⟩
  refine ⟨⟨hlayout, fun h => ?_⟩, fun h => ?_, fun hne hprint => ⟨fun h => hne (hlayout h), ?_⟩⟩
  · rw [h.eq_version hs hs']
  · rw [h.eq_version hs hs']
    exact ⟨rfl, new_version s s'.version⟩
  · rw [hs.fingerprint, hs'.fingerprint] at hprint
    exact congrArg Fingerprint.hash hprint

/-- **The layout decides what is hashed, and what is hashed decides the layout.** Schemas of one layout have
    one fingerprint, and read each other's tuples alike; two layouts have one fingerprint only if the hash
    takes two different byte strings to one word. -/
theorem layout_of_fingerprint {version version' : UInt32} {key value key' value' : List Column}
    (hdef : Schema.define version key value = .ok s)
    (hdef' : Schema.define version' key' value' = .ok s') (hn : s.NamesFit) (hn' : s'.NamesFit) :
    (Fingerprint.preimage s.key s.value = Fingerprint.preimage s'.key s'.value ↔ s.SameLayout s') ∧
    (s.SameLayout s' → s.fingerprint = s'.fingerprint ∧
      ∀ bytes, Outcome.Alike View.Agrees (View.new s bytes) (View.new s' bytes)) ∧
    (¬ s.SameLayout s' → s.fingerprint = s'.fingerprint →
      Fingerprint.preimage s.key s.value ≠ Fingerprint.preimage s'.key s'.value ∧
      Xxh3.hash (Fingerprint.preimage s.key s.value) =
        Xxh3.hash (Fingerprint.preimage s'.key s'.value)) :=
  layout_of_hash (sound_of_define hdef).hashedBy (sound_of_define hdef').hashedBy hn hn'

/-- The order of declaration and the version make no other layout, and whether a name may be missing
    does. -/
theorem layout_of_fingerprint_reordered : ∃ s s' s'',
    Schema.define 1 [⟨"id", .number .int4, false⟩] [⟨"name", .utf8, true⟩, ⟨"mask", .bitmask 9, false⟩] =
      .ok s ∧
    Schema.define 2 [⟨"id", .number .int4, false⟩] [⟨"mask", .bitmask 9, false⟩, ⟨"name", .utf8, true⟩] =
      .ok s' ∧
    Schema.define 2 [⟨"id", .number .int4, false⟩] [⟨"mask", .bitmask 9, false⟩, ⟨"name", .utf8, false⟩] =
      .ok s'' ∧
    s.fingerprint = s'.fingerprint ∧
    Fingerprint.preimage s.key s.value ≠ Fingerprint.preimage s''.key s''.value := by
  have hdef : Schema.define 1 [⟨"id", .number .int4, false⟩]
      [⟨"name", .utf8, true⟩, ⟨"mask", .bitmask 9, false⟩] = .ok _ := rfl
  have hdef' : Schema.define 2 [⟨"id", .number .int4, false⟩]
      [⟨"mask", .bitmask 9, false⟩, ⟨"name", .utf8, true⟩] = .ok _ := rfl
  have hdef'' : Schema.define 2 [⟨"id", .number .int4, false⟩]
      [⟨"mask", .bitmask 9, false⟩, ⟨"name", .utf8, false⟩] = .ok _ := rfl
  refine ⟨_, _, _, hdef, hdef', hdef'', ?_, ?_⟩
  · exact ((layout_of_fingerprint hdef hdef' (by decide) (by decide)).2.1 ⟨rfl, rfl⟩).1
  · intro h
    have hlayout := (layout_of_fingerprint hdef hdef'' (by decide) (by decide)).1.mp h
    exact absurd hlayout.value_eq (by decide)

end Schema

end RowCodec
