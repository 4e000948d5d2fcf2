import RowCodec.Proofs.Tuple.Agreement

/-!
# Renamed columns

Two schemas whose columns differ in their names only. A tuple of one is a tuple of the other, up to the
fingerprint it starts with, and both read the same in it: names are looked at when a schema is defined
and when a type is bound to it, and at no time after.

* `Columns.rename`, `Schema.Renames` -- a group, and a schema, with other names. Laying columns out and
  naming them commute (`ofList_rename`).
* `View.Renames` -- views of two such tuples: the same positions, in bytes that are the same behind the
  fingerprint. One lemma for each way of looking into a chunk says that both see the same there.
* `View.Agrees` -- two views that every getter answers alike, and **`View.Renames.agrees`**.
* `View.new_alike` -- behind their own fingerprints the same bytes are accepted or refused, for the
  same cause.
-/

namespace RowCodec

variable {ρ : String → String}

/-! ## 1. Schemas -/

/-- The column under another name. -/
def Column.rename (ρ : String → String) (c : Column) : Column := { c with name := ρ c.name }

namespace Columns

/-- The group with every column under another name. -/
def rename (ρ : String → String) (g : Columns) : Columns :=
  { g with columns := g.columns.map (Column.rename ρ) }

@[simp] theorem length_rename (g : Columns) : (g.rename ρ).length = g.length := List.length_map _

@[simp] theorem fixedSize_rename (g : Columns) : (g.rename ρ).fixedSize = g.fixedSize := rfl

@[simp] theorem nullMapSize_rename (g : Columns) : (g.rename ρ).nullMapSize = g.nullMapSize := by
  unfold nullMapSize
  rw [length_rename]

@[simp] theorem column?_rename (g : Columns) (p : Nat) :
    (g.rename ρ).column? p = (g.column? p).map (Column.rename ρ) := List.getElem?_map

@[simp] theorem fixedOffset_rename {ε : Type} (g : Columns) (p : Nat) :
    (g.rename ρ).fixedOffset (ε := ε) p = g.fixedOffset p := by
  unfold fixedOffset
  rw [column?_rename]
  cases g.column? p <;> rfl

@[simp] theorem varlenBefore_rename (g : Columns) (stop : Nat) :
    (g.rename ρ).varlenBefore stop = g.varlenBefore stop := rfl

theorem widths_rename : ∀ columns : List Column,
    widths (columns.map (Column.rename ρ)) = widths columns
  | [] => rfl
  | c :: rest => congrArg (c.type.size + ·) (widths_rename rest)

theorem offsetsFrom_rename : ∀ (columns : List Column) (start : Nat),
    offsetsFrom start (columns.map (Column.rename ρ)) = offsetsFrom start columns
  | [], _ => rfl
  | c :: rest, start => congrArg (start :: ·) (offsetsFrom_rename rest (start + c.type.size))

/-- **Laying out looks at no name.** -/
theorem ofList_rename (declared : List Column) :
    ofList (declared.map (Column.rename ρ)) = (ofList declared).rename ρ := by
  have hfixed : (declared.map (Column.rename ρ)).filter Column.isFixedSize =
      (declared.filter Column.isFixedSize).map (Column.rename ρ) := List.filter_map
  have hvarlen : (declared.map (Column.rename ρ)).filter (fun c => !c.isFixedSize) =
      (declared.filter fun c => !c.isFixedSize).map (Column.rename ρ) := List.filter_map
  unfold ofList rename
  dsimp only
  rw [hfixed, hvarlen, widths_rename, offsetsFrom_rename, List.length_map, List.isEmpty_map,
    List.map_append]

end Columns

/-- **The second schema is the first with other names.** Their versions and fingerprints may differ. -/
structure Schema.Renames (ρ : String → String) (s s' : Schema) : Prop where
  key_eq : s'.key = s.key.rename ρ
  value_eq : s'.value = s.value.rename ρ

namespace Schema

variable {s s' : Schema}

theorem renames_of_define {version version' : UInt32} {key value : List Column}
    (h : define version key value = .ok s)
    (h' : define version' (key.map (Column.rename ρ)) (value.map (Column.rename ρ)) = .ok s') :
    s.Renames ρ s' := by
  obtain ⟨_, _, hkey, hvalue, _⟩ := of_define h
  obtain ⟨_, _, hkey', hvalue', _⟩ := of_define h'
  rw [Columns.ofList_rename, ← hkey] at hkey'
  rw [Columns.ofList_rename, ← hvalue] at hvalue'
  exact ⟨hkey', hvalue'⟩

namespace Renames

/-- A schema is itself under its own names. -/
theorem refl (s : Schema) : s.Renames id s := by
  have hsame : ∀ g : Columns, g = g.rename id := by
    intro g
    have hmap : g.columns.map (Column.rename id) = g.columns := List.map_id _
    unfold Columns.rename
    rw [hmap]
  exact ⟨hsame s.key, hsame s.value⟩

theorem length_eq (h : s.Renames ρ s') : s'.length = s.length := by
  unfold Schema.length
  rw [h.key_eq, h.value_eq, Columns.length_rename, Columns.length_rename]

theorem isKeyColumn_eq (h : s.Renames ρ s') (index : Nat) :
    s'.isKeyColumn index = s.isKeyColumn index := by
  unfold isKeyColumn
  rw [h.key_eq, Columns.length_rename]

/-- What is found at an index, and what is found there under other names. -/
def Located (ρ : String → String) (found found' : Columns × Nat × Column) : Prop :=
  found' = (found.1.rename ρ, found.2.1, found.2.2.rename ρ)

/-- **An index leads to the same place.** -/
theorem locate_alike (h : s.Renames ρ s') (index : Nat) :
    Outcome.Alike (Located ρ) (Outcome.ofExcept (s.locate index))
      (Outcome.ofExcept (s'.locate index)) := by
  have hgroup : s'.group index = ((s.group index).1.rename ρ, (s.group index).2) := by
    unfold group
    rw [h.key_eq, h.value_eq, Columns.length_rename]
    split <;> rfl
  unfold locate
  rw [hgroup, h.length_eq]
  dsimp only
  rw [Columns.column?_rename]
  cases (s.group index).1.column? (s.group index).2
  · exact .error _
  · exact .ok rfl

end Renames

end Schema

/-! ## 2. Bytes -/

/-- The two byte lists are the same behind the fingerprints that they start with. -/
def SameBody (s s' : Schema) (bytes bytes' : List UInt8) : Prop :=
  ∃ body, bytes = s.fingerprint.toBytes ++ body ∧ bytes' = s'.fingerprint.toBytes ++ body

namespace SameBody

variable {s s' : Schema} {bytes bytes' : List UInt8} {start : Nat}

theorem length_eq (h : SameBody s s' bytes bytes') : bytes'.length = bytes.length := by
  obtain ⟨body, rfl, rfl⟩ := h
  rw [List.length_append, List.length_append, Fingerprint.length_toBytes, Fingerprint.length_toBytes]

theorem drop_eq (h : SameBody s s' bytes bytes') (hs : Fingerprint.size ≤ start) :
    bytes'.drop start = bytes.drop start := by
  obtain ⟨body, rfl, rfl⟩ := h
  obtain ⟨n, rfl⟩ := Nat.exists_eq_add_of_le hs
  rw [← List.drop_drop, ← List.drop_drop, List.drop_left' s.fingerprint.length_toBytes,
    List.drop_left' s'.fingerprint.length_toBytes]

/-- A read behind the fingerprint sees nothing of it. -/
theorem slice_eq {ε : Type} (h : SameBody s s' bytes bytes') (hs : Fingerprint.size ≤ start)
    (stop : Nat) : slice (ε := ε) bytes' start stop = slice bytes start stop := by
  unfold slice
  rw [h.length_eq, h.drop_eq hs]

theorem byteAt_eq {ε : Type} (h : SameBody s s' bytes bytes') (hs : Fingerprint.size ≤ start) :
    byteAt (ε := ε) bytes' start = byteAt bytes start := by
  have hbyte : bytes'[start]? = bytes[start]? := by
    rw [← List.head?_drop, ← List.head?_drop, h.drop_eq hs]
  unfold byteAt
  rw [hbyte]

end SameBody

/-- **The chunk's positions lie behind the fingerprint.** -/
structure ChunkView.Behind (chunk : ChunkView) : Prop where
  start : Fingerprint.size ≤ chunk.start
  table : Fingerprint.size ≤ chunk.table
  fixed : Fingerprint.size ≤ chunk.fixed

/-! ## 3. Getters -/

namespace View

variable {t t' : View}

/-- **The two views are read alike**: every getter gives the same answer or the same cause, at every
    index. -/
structure Agrees (t t' : View) : Prop where
  isNull : ∀ index, t'.isNull index = t.isNull index
  number? : ∀ kind index, t'.number? kind index = t.number? kind index
  number : ∀ kind index, t'.number kind index = t.number kind index
  uuid? : ∀ index, t'.uuid? index = t.uuid? index
  bitSet? : ∀ index, t'.bitSet? index = t.bitSet? index
  utf8? : ∀ index, t'.utf8? index = t.utf8? index
  blob? : ∀ index, t'.blob? index = t.blob? index
  value : ∀ index, t'.value index = t.value index

theorem Agrees.at (h : t.Agrees t') (index : Nat) : t.AgreesAt t' index :=
  ⟨h.isNull index, fun kind => h.number? kind index, fun kind => h.number kind index, h.uuid? index,
    h.bitSet? index, h.utf8? index, h.blob? index, h.value index⟩

theorem agrees_of_agreesAt (h : ∀ index, t.AgreesAt t' index) : t.Agrees t' :=
  ⟨fun index => (h index).isNull, fun kind index => (h index).number? kind,
    fun kind index => (h index).number kind, fun index => (h index).uuid?,
    fun index => (h index).bitSet?, fun index => (h index).utf8?, fun index => (h index).blob?,
    fun index => (h index).value⟩

/-- **The second view is the first under other names**, behind a fingerprint of its own. -/
structure Renames (ρ : String → String) (t t' : View) : Prop where
  schema : t.schema.Renames ρ t'.schema
  body : SameBody t.schema t'.schema t.bytes t'.bytes
  keyView_eq : t'.keyView = t.keyView
  valueView_eq : t'.valueView = t.valueView
  key_behind : t.keyView.Behind
  value_behind : t.valueView.Behind

namespace Renames

/-- What an index leads to, and what it leads to under other names. -/
def Located (ρ : String → String) (found found' : ChunkView × Columns × Nat × Column) : Prop :=
  found.1.Behind ∧ found' = (found.1, found.2.1.rename ρ, found.2.2.1, found.2.2.2.rename ρ)

variable (h : t.Renames ρ t')

include h

/-! ### Chunks -/

section Chunks

variable {chunk : ChunkView} (hb : chunk.Behind)

include hb

theorem isDefined_eq (p : Nat) : t'.isDefined chunk p = t.isDefined chunk p := by
  unfold isDefined
  rw [h.body.byteAt_eq (Nat.le_add_right_of_le (Nat.le_add_right_of_le hb.start))]

theorem rank_eq : ∀ positions : List Nat, t'.rank chunk positions = t.rank chunk positions
  | [] => rfl
  | p :: rest => by
      unfold rank
      rw [h.isDefined_eq hb, rank_eq rest]

theorem entry_eq (slot : Nat) : t'.entry chunk slot = t.entry chunk slot := by
  unfold entry
  dsimp only
  rw [h.body.slice_eq (Nat.le_add_right_of_le hb.table)]

theorem fixedBytes_eq (g : Columns) (p : Nat) (column : Column) :
    t'.fixedBytes chunk (g.rename ρ) p (column.rename ρ) = t.fixedBytes chunk g p column := by
  unfold fixedBytes
  rw [Columns.fixedOffset_rename]
  refine congrArg _ (funext fun offset => ?_)
  exact h.body.slice_eq (Nat.le_add_right_of_le hb.fixed) _

theorem varlenBytes_eq (g : Columns) (p index : Nat) :
    t'.varlenBytes chunk (g.rename ρ) p index = t.varlenBytes chunk g p index := by
  have hrange : t'.varlenRange chunk (g.rename ρ) p = t.varlenRange chunk g p := by
    unfold varlenRange
    simp only [Columns.varlenBefore_rename, h.rank_eq hb, h.entry_eq hb]
  unfold varlenBytes
  rw [hrange, Columns.fixedSize_rename]
  simp only [h.body.slice_eq (Nat.le_add_right_of_le hb.start)]

end Chunks

/-! ### Columns -/

theorem locate_alike (index : Nat) :
    Outcome.Alike (Located ρ) (t.locate index) (t'.locate index) := by
  refine (h.schema.locate_alike index).bind ?_
  rintro ⟨g, p, c⟩ _ rfl
  rw [h.schema.isKeyColumn_eq, h.keyView_eq, h.valueView_eq]
  cases t.schema.isKeyColumn index
  · exact .ok ⟨h.value_behind, rfl⟩
  · exact .ok ⟨h.key_behind, rfl⟩

theorem locateOf_alike (index : Nat) (requested : ColumnType) :
    Outcome.Alike (Located ρ) (t.locateOf index requested) (t'.locateOf index requested) := by
  refine (h.locate_alike index).bind ?_
  rintro ⟨chunk, g, p, c⟩ _ ⟨hb, rfl⟩
  show Outcome.Alike _ (if c.type.sameKind requested = true then _ else _)
    (if c.type.sameKind requested = true then _ else _)
  split
  · exact .ok ⟨hb, rfl⟩
  · exact .error _

theorem isNull_eq (index : Nat) : t'.isNull index = t.isNull index := by
  refine ((h.locate_alike index).bind_eq ?_).symm
  rintro ⟨chunk, g, p, c⟩ _ ⟨hb, rfl⟩
  dsimp only
  rw [h.isDefined_eq hb]

theorem fixedBytes?_eq (index : Nat) (requested : ColumnType) :
    t'.fixedBytes? index requested = t.fixedBytes? index requested := by
  refine ((h.locateOf_alike index requested).bind_eq ?_).symm
  rintro ⟨chunk, g, p, c⟩ _ ⟨hb, rfl⟩
  dsimp only
  rw [h.isDefined_eq hb, h.fixedBytes_eq hb]

theorem varlenBytes?_eq (index : Nat) (requested : ColumnType) :
    t'.varlenBytes? index requested = t.varlenBytes? index requested := by
  refine ((h.locateOf_alike index requested).bind_eq ?_).symm
  rintro ⟨chunk, g, p, c⟩ _ ⟨hb, rfl⟩
  dsimp only
  rw [h.isDefined_eq hb, h.varlenBytes_eq hb]

/-- **No getter looks at a name.** -/
theorem agrees : t.Agrees t' := by
  refine agrees_of_agreesAt fun index => ?_
  refine agreesAt_of_bytes ?_ (h.isNull_eq index) (fun requested _ => h.fixedBytes?_eq index requested)
    fun requested _ => h.varlenBytes?_eq index requested
  refine (h.locate_alike index).imp ?_
  rintro ⟨chunk, g, p, c⟩ _ ⟨_, rfl⟩
  rfl

end Renames

end View

/-! ## 4. Acceptance -/

/-- The same positions are read, if any. -/
theorem ChunkView.read_alike {s s' : Schema} {bytes bytes' : List UInt8}
    (h : SameBody s s' bytes bytes') {start : Nat} (hs : Fingerprint.size ≤ start) (g : Columns) :
    Outcome.Alike (fun v v' => v' = v ∧ v.Behind) (read bytes start g)
      (read bytes' start (g.rename ρ)) := by
  unfold read
  simp only [Columns.nullMapSize_rename, Columns.length_rename, Columns.varlenBefore_rename,
    Columns.fixedSize_rename, h.length_eq, h.slice_eq hs, h.slice_eq (Nat.le_add_right_of_le hs)]
  split
  · exact .error _
  · refine .after _ ?_
    intro word
    split
    · exact .error _
    · refine .after _ ?_
      intro marks
      refine .after _ ?_
      intro entries
      refine .after _ ?_
      intro static
      split
      · exact .error _
      · have htable : Fingerprint.size ≤ start + chunkHeaderSize + g.nullMapSize := by omega
        exact .ok ⟨rfl, hs, htable, Nat.le_add_right_of_le htable⟩

/-- **Behind their own fingerprints the same bytes are accepted**, or refused for the same cause. -/
theorem View.new_alike {s s' : Schema} (h : s.Renames ρ s') (body : List UInt8) :
    Outcome.Alike (View.Renames ρ) (View.new s (s.fingerprint.toBytes ++ body))
      (View.new s' (s'.fingerprint.toBytes ++ body)) := by
  have htake : ∀ f : Fingerprint, (f.toBytes ++ body).take Fingerprint.size = f.toBytes := fun f =>
    List.take_left' f.length_toBytes
  have hlen : ∀ f : Fingerprint, (f.toBytes ++ body).length = Fingerprint.size + body.length := by
    intro f
    rw [List.length_append, f.length_toBytes]
  have hlong : ¬ Fingerprint.size + body.length < Fingerprint.size :=
    Nat.not_lt.mpr (Nat.le_add_right _ _)
  have hbody : SameBody s s' (s.fingerprint.toBytes ++ body) (s'.fingerprint.toBytes ++ body) :=
    ⟨body, rfl, rfl⟩
  unfold View.new
  simp only [hlen, if_neg hlong, htake, Fingerprint.ofBytes_toBytes, ne_eq, not_true, if_false,
    h.key_eq, h.value_eq]
  refine (ChunkView.read_alike hbody (Nat.le_refl _) s.key).bind ?_
  rintro keyView _ ⟨rfl, hkey⟩
  refine (ChunkView.read_alike hbody (Nat.le_add_right_of_le hkey.start) s.value).bind ?_
  rintro valueView _ ⟨rfl, hvalue⟩
  split
  · refine .after _ ?_
    intro count
    exact .error _
  · exact .ok ⟨h, hbody, rfl, rfl, hkey, hvalue⟩

end RowCodec
