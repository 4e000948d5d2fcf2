import RowCodec.Schema

/-!
# The layout of a defined schema

What every row rests on, said once for a group and once for a schema.

* `Columns.LaidOut` -- the group is as `Columns.ofList` makes it; laying it out again gives it back
  (`laidOut_ofList`).
* `fixedOffset_eq` -- a fixed-size column's offset is the sum of the sizes of all columns before it,
  and `fixedSize_eq` is that sum over the whole group.
* `isFixedSize_iff` -- the columns of variable length stand from position `fixedCount` on.
* `Schema.Sound` -- what `Schema.define` promises of the schema it makes (`sound_of_define`), and
  `define_of_nodup` the columns that it makes one of.
* `Schema.column?_cases` -- the columns of a schema are the key's, and behind them the value's.
-/

namespace RowCodec

/-! ## 1. Types -/

namespace ColumnType

theorem size_of_varlen {type : ColumnType} (h : type.isFixedSize = false) : type.size = 0 := by
  cases type with
  | utf8 => rfl
  | blob => rfl
  | number kind => cases h
  | uuid => cases h
  | bitmask bits => cases h

/-- Types are of one kind when they are equal or both bit masks. -/
theorem sameKind_iff {a b : ColumnType} :
    a.sameKind b = true ↔ a = b ∨ ∃ m n, a = .bitmask m ∧ b = .bitmask n := by
  unfold sameKind
  split
  · rename_i m n
    exact ⟨fun _ => Or.inr ⟨m, n, rfl, rfl⟩, fun _ => rfl⟩
  · rename_i h
    rw [decide_eq_true_iff]
    refine ⟨Or.inl, ?_⟩
    rintro (hab | ⟨m, n, ha, hb⟩)
    · exact hab
    · exact absurd hb (h m n ha)

theorem sameKind_of_eq {a b : ColumnType} (h : a = b) : a.sameKind b = true :=
  sameKind_iff.mpr (Or.inl h)

/-- Only bit masks differ within their kind. -/
theorem eq_of_sameKind {a b : ColumnType} (h : a.sameKind b = true)
    (hb : (∀ width, a ≠ .bitmask width) ∨ ∀ width, b ≠ .bitmask width) : a = b := by
  rcases sameKind_iff.mp h with hab | ⟨m, n, hm, hn⟩
  · exact hab
  · rcases hb with ha | hb
    · exact absurd hm (ha m)
    · exact absurd hn (hb n)

/-- Types of one kind are of a kind with the same types. -/
theorem sameKind_congr {a b : ColumnType} (h : a.sameKind b = true) (type : ColumnType) :
    a.sameKind type = b.sameKind type := by
  rcases sameKind_iff.mp h with rfl | ⟨m, n, rfl, rfl⟩
  · rfl
  · cases type <;> rfl

theorem isFixedSize_of_sameKind {a b : ColumnType} (h : a.sameKind b = true) :
    a.isFixedSize = b.isFixedSize := by
  rcases sameKind_iff.mp h with rfl | ⟨m, n, rfl, rfl⟩
  · rfl
  · rfl

end ColumnType

namespace Columns

variable {g : Columns}

/-! ## 2. Groups -/

/-- The group is laid out as `ofList` does it. -/
def LaidOut (g : Columns) : Prop := ofList g.columns = g

/-- The number of fixed-size columns. -/
def fixedCount (g : Columns) : Nat := (g.columns.filter Column.isFixedSize).length

@[simp] theorem widths_nil : widths [] = 0 := rfl

@[simp] theorem widths_cons (c : Column) (rest : List Column) :
    widths (c :: rest) = c.type.size + widths rest := rfl

theorem widths_append : ∀ a b : List Column, widths (a ++ b) = widths a + widths b
  | [], b => by rw [List.nil_append, widths_nil, Nat.zero_add]
  | c :: rest, b => by
      rw [List.cons_append, widths_cons, widths_cons, widths_append rest b, Nat.add_assoc]

/-- A column ends where the sizes up to it say, and not past the group's end. -/
theorem widths_take_le : ∀ {columns : List Column} {p : Nat} {c : Column}, columns[p]? = some c →
    widths (columns.take p) + c.type.size ≤ widths columns
  | [], _, _, h => by cases h
  | d :: rest, 0, c, h => by
      cases h
      rw [List.take_zero, widths_nil, Nat.zero_add, widths_cons]
      exact Nat.le_add_right _ _
  | d :: rest, p + 1, c, h => by
      have ih : widths (rest.take p) + c.type.size ≤ widths rest := widths_take_le h
      rw [List.take_succ_cons, widths_cons, widths_cons, Nat.add_assoc]
      exact Nat.add_le_add_left ih _

theorem widths_filter_fixed : ∀ columns : List Column,
    widths (columns.filter Column.isFixedSize) = widths columns
  | [] => rfl
  | c :: rest => by
      have ih := widths_filter_fixed rest
      rw [List.filter_cons]
      split
      · rw [widths_cons, widths_cons, ih]
      · rename_i h
        have hz : c.type.size = 0 := ColumnType.size_of_varlen (by simpa [Column.isFixedSize] using h)
        rw [widths_cons, ih, hz, Nat.zero_add]

/-- Laying out puts the fixed-size columns first and keeps the order in each kind. -/
theorem columns_ofList (declared : List Column) : (ofList declared).columns =
    declared.filter Column.isFixedSize ++ declared.filter fun c => !c.isFixedSize := rfl

theorem filter_fixed_ofList (declared : List Column) :
    (ofList declared).columns.filter Column.isFixedSize = declared.filter Column.isFixedSize := by
  rw [columns_ofList, List.filter_append, List.filter_filter, List.filter_filter]
  simp

theorem filter_varlen_ofList (declared : List Column) :
    (ofList declared).columns.filter (fun c => !c.isFixedSize) =
      declared.filter fun c => !c.isFixedSize := by
  rw [columns_ofList, List.filter_append, List.filter_filter, List.filter_filter]
  simp

/-- **Laying out a laid-out group changes nothing.** -/
theorem laidOut_ofList (declared : List Column) : (ofList declared).LaidOut := by
  show ofList (ofList declared).columns = ofList declared
  have hf := filter_fixed_ofList declared
  have hv := filter_varlen_ofList declared
  unfold ofList at hf hv ⊢
  simp only at hf hv ⊢
  rw [hf, hv]

theorem columns_perm_ofList (declared : List Column) :
    (ofList declared).columns.Perm declared :=
  List.filter_append_perm Column.isFixedSize declared

theorem exists_column {p : Nat} (h : p < g.length) : ∃ c, g.columns[p]? = some c :=
  ⟨_, List.getElem?_eq_getElem h⟩

namespace LaidOut

theorem columns_eq (h : g.LaidOut) : g.columns =
    g.columns.filter Column.isFixedSize ++ g.columns.filter fun c => !c.isFixedSize :=
  (congrArg Columns.columns h).symm.trans (columns_ofList _)

theorem fixedOffsets_eq (h : g.LaidOut) :
    g.fixedOffsets = offsetsFrom 0 (g.columns.filter Column.isFixedSize) :=
  (congrArg Columns.fixedOffsets h).symm

/-- The fixed section is as long as all columns together. -/
theorem fixedSize_eq (h : g.LaidOut) : g.fixedSize = widths g.columns :=
  (congrArg Columns.fixedSize h).symm.trans (widths_filter_fixed _)

theorem firstVarlen_eq (h : g.LaidOut) : g.firstVarlen =
    if (g.columns.filter fun c => !c.isFixedSize).isEmpty then none else some g.fixedCount :=
  (congrArg Columns.firstVarlen h).symm

theorem length_eq (h : g.LaidOut) :
    g.length = g.fixedCount + (g.columns.filter fun c => !c.isFixedSize).length := by
  have hl := congrArg List.length h.columns_eq
  rwa [List.length_append] at hl

theorem fixedCount_le (h : g.LaidOut) : g.fixedCount ≤ g.length := by
  rw [h.length_eq]
  exact Nat.le_add_right _ _

theorem take_fixedCount (h : g.LaidOut) :
    g.columns.take g.fixedCount = g.columns.filter Column.isFixedSize :=
  (congrArg (List.take g.fixedCount) h.columns_eq).trans List.take_left

theorem drop_fixedCount (h : g.LaidOut) :
    g.columns.drop g.fixedCount = g.columns.filter fun c => !c.isFixedSize :=
  (congrArg (List.drop g.fixedCount) h.columns_eq).trans List.drop_left

/-- **Fixed-size columns come first**: a column has a fixed size exactly when its position is below
    `fixedCount`. -/
theorem isFixedSize_iff (h : g.LaidOut) {p : Nat} {c : Column} (hc : g.columns[p]? = some c) :
    c.isFixedSize = true ↔ p < g.fixedCount := by
  by_cases hp : p < g.fixedCount
  · have hm : (g.columns.filter Column.isFixedSize)[p]? = some c := by
      rw [← h.take_fixedCount, List.getElem?_take_of_lt hp, hc]
    exact ⟨fun _ => hp, fun _ => (List.mem_filter.mp (List.mem_of_getElem? hm)).2⟩
  · have hm : (g.columns.filter fun c => !c.isFixedSize)[p - g.fixedCount]? = some c := by
      rw [← h.drop_fixedCount, List.getElem?_drop, Nat.add_sub_cancel' (by omega), hc]
    have hv := (List.mem_filter.mp (List.mem_of_getElem? hm)).2
    refine ⟨fun hf => ?_, fun hlt => absurd hlt hp⟩
    rw [hf] at hv
    cases hv

theorem fixedCount_le_of_varlen (h : g.LaidOut) {p : Nat} {c : Column} (hc : g.columns[p]? = some c)
    (hf : c.isFixedSize = false) : g.fixedCount ≤ p := by
  apply Nat.not_lt.mp
  intro hlt
  rw [(h.isFixedSize_iff hc).mpr hlt] at hf
  cases hf

theorem getElem?_offsetsFrom : ∀ (columns : List Column) (start p : Nat), p < columns.length →
    (offsetsFrom start columns)[p]? = some (start + widths (columns.take p))
  | [], _, _, h => absurd h (Nat.not_lt_zero _)
  | _ :: _, _, 0, _ => rfl
  | c :: rest, start, p + 1, h => by
      have ih := getElem?_offsetsFrom rest (start + c.type.size) p (Nat.lt_of_succ_lt_succ h)
      rw [offsetsFrom, List.getElem?_cons_succ, ih, List.take_succ_cons, widths_cons,
        Nat.add_assoc]

/-- **Where a fixed-size column lies**: behind everything that the columns before it take. -/
theorem fixedOffset_eq {ε : Type} (h : g.LaidOut) {p : Nat} {c : Column}
    (hc : g.columns[p]? = some c) (hf : c.isFixedSize = true) :
    g.fixedOffset (ε := ε) p = .ok (widths (g.columns.take p)) := by
  have hp : p < g.fixedCount := (h.isFixedSize_iff hc).mp hf
  have ho : g.fixedOffsets[p]? = some (widths (g.columns.take p)) := by
    rw [h.fixedOffsets_eq, getElem?_offsetsFrom _ _ _ hp, Nat.zero_add, ← h.take_fixedCount,
      List.take_take, Nat.min_eq_left (Nat.le_of_lt hp)]
  unfold fixedOffset column?
  rw [hc]
  simp only [hf, if_true, ho]

end LaidOut

end Columns

/-! ## 3. Schemas -/

theorem Fingerprint.length_toBytes (f : Fingerprint) : f.toBytes.length = size :=
  LittleEndian.length_encode _ _

namespace Schema

/-- What holds of every schema that `define` makes. -/
structure Sound (s : Schema) : Prop where
  key : s.key.LaidOut
  value : s.value.LaidOut
  /-- There is a key column. -/
  key_pos : 0 < s.key.length
  /-- No name occurs twice, in one group or across the two. -/
  names : ((s.key.columns ++ s.value.columns).map (·.name)).Nodup
  fingerprint : s.fingerprint = Fingerprint.ofColumns s.key s.value

/-- The names of the two groups, each once and in one group. -/
theorem Sound.names_apart {s : Schema} (h : s.Sound) : (s.key.columns.map (·.name)).Nodup ∧
    (s.value.columns.map (·.name)).Nodup ∧
      ∀ name ∈ s.key.columns.map (·.name), name ∉ s.value.columns.map (·.name) := by
  have hnames := h.names
  rw [List.map_append] at hnames
  obtain ⟨hkey, hvalue, hapart⟩ := List.nodup_append.mp hnames
  exact ⟨hkey, hvalue, fun name hk hv => hapart name hk name hv rfl⟩

/-- No name is found a second time exactly when none occurs twice and none was seen before. -/
theorem firstRepeated_eq_none : ∀ {names seen : List String}, firstRepeated seen names = none ↔
    names.Nodup ∧ ∀ name ∈ names, name ∉ seen
  | [], _ => iff_of_true rfl ⟨List.nodup_nil, fun _ h => absurd h List.not_mem_nil⟩
  | name :: rest, seen => by
      unfold firstRepeated
      split
      · rename_i hseen
        exact iff_of_false (fun h => by cases h) fun h => h.2 name List.mem_cons_self hseen
      · rename_i hseen
        rw [firstRepeated_eq_none, List.nodup_cons]
        constructor
        · rintro ⟨hrest, hfresh⟩
          refine ⟨⟨fun hm => hfresh name hm List.mem_cons_self, hrest⟩, fun other hm => ?_⟩
          rcases List.mem_cons.mp hm with rfl | hm
          · exact hseen
          · exact fun hs => hfresh other hm (List.mem_cons_of_mem _ hs)
        · rintro ⟨⟨hname, hrest⟩, hfresh⟩
          refine ⟨hrest, fun other hm hs => ?_⟩
          rcases List.mem_cons.mp hs with rfl | hs
          · exact hname hm
          · exact hfresh other (List.mem_cons_of_mem _ hm) hs

/-- Columns of which one is a key column and no two have one name make a schema. -/
theorem define_of_nodup {key value : List Column} (version : UInt32) (hkey : key ≠ [])
    (hnames : ((key ++ value).map (·.name)).Nodup) :
    define version key value = .ok
      { version
        fingerprint := Fingerprint.ofColumns (Columns.ofList key) (Columns.ofList value)
        key := Columns.ofList key
        value := Columns.ofList value } := by
  have hfirst : firstRepeated [] ((key ++ value).map (·.name)) = none :=
    firstRepeated_eq_none.mpr ⟨hnames, fun _ _ => List.not_mem_nil⟩
  unfold define
  rw [if_neg (by rwa [List.isEmpty_iff]), hfirst]

/-- **A schema that was made**, and from which columns. -/
theorem of_define {version : UInt32} {key value : List Column} {s : Schema}
    (h : define version key value = .ok s) :
    key ≠ [] ∧ ((key ++ value).map (·.name)).Nodup ∧ s.key = Columns.ofList key ∧
      s.value = Columns.ofList value ∧ s.fingerprint = Fingerprint.ofColumns s.key s.value := by
  unfold define at h
  split at h
  · cases h
  · rename_i hkey
    split at h
    · cases h
    · rename_i hnames
      cases h
      exact ⟨by rwa [List.isEmpty_iff] at hkey, (firstRepeated_eq_none.mp hnames).1, rfl, rfl, rfl⟩

theorem sound_of_define {version : UInt32} {key value : List Column} {s : Schema}
    (h : define version key value = .ok s) : s.Sound := by
  obtain ⟨hne, hnames, hkey, hvalue, hfingerprint⟩ := of_define h
  refine ⟨?_, ?_, ?_, ?_, hfingerprint⟩
  · rw [hkey]
    exact Columns.laidOut_ofList key
  · rw [hvalue]
    exact Columns.laidOut_ofList value
  · unfold Columns.length
    rw [hkey, (Columns.columns_perm_ofList key).length_eq]
    exact List.length_pos_iff.mpr hne
  · rw [hkey, hvalue]
    have hperm := (Columns.columns_perm_ofList key).append (Columns.columns_perm_ofList value)
    exact (hperm.map (·.name)).nodup_iff.mpr hnames

section Addressing

variable {s : Schema} {index p : Nat} {c : Column}

theorem column?_key (hp : p < s.key.length) : s.column? p = s.key.columns[p]? := by
  unfold column? group
  rw [if_pos hp]
  rfl

theorem column?_value (s : Schema) (p : Nat) :
    s.column? (s.key.length + p) = s.value.columns[p]? := by
  unfold column? group
  rw [if_neg (by omega), Nat.add_sub_cancel_left]
  rfl

/-- **A column is one of the key's or one of the value's.** -/
theorem column?_cases (h : s.column? index = some c) :
    (index < s.key.length ∧ s.key.columns[index]? = some c) ∨
    ∃ p, index = s.key.length + p ∧ s.value.columns[p]? = some c := by
  by_cases hi : index < s.key.length
  · rw [column?_key hi] at h
    exact Or.inl ⟨hi, h⟩
  · obtain ⟨p, rfl⟩ := Nat.exists_eq_add_of_le (Nat.not_lt.mp hi)
    rw [column?_value] at h
    exact Or.inr ⟨p, rfl, h⟩

theorem column?_out (h : s.length ≤ index) : s.column? index = none := by
  obtain ⟨p, rfl⟩ := Nat.exists_eq_add_of_le (Nat.le_trans (Nat.le_add_right _ _) h)
  rw [column?_value]
  exact List.getElem?_eq_none (Nat.le_of_add_le_add_left h)

theorem exists_column (h : index < s.length) : ∃ c, s.column? index = some c := by
  by_cases hi : index < s.key.length
  · rw [column?_key hi]
    exact Columns.exists_column hi
  · obtain ⟨p, rfl⟩ := Nat.exists_eq_add_of_le (Nat.not_lt.mp hi)
    rw [column?_value]
    exact Columns.exists_column (Nat.lt_of_add_lt_add_left h)

theorem exists_column_iff : (∃ c, s.column? index = some c) ↔ index < s.length := by
  refine ⟨fun ⟨c, hc⟩ => Nat.not_le.mp fun hle => ?_, exists_column⟩
  rw [column?_out hle] at hc
  cases hc

theorem locate_key (hc : s.key.columns[p]? = some c) : s.locate p = .ok (s.key, p, c) := by
  have hp : p < s.key.length := (List.getElem?_eq_some_iff.mp hc).1
  unfold locate group Columns.column?
  simp only [if_pos hp, hc]

theorem locate_value (hc : s.value.columns[p]? = some c) :
    s.locate (s.key.length + p) = .ok (s.value, p, c) := by
  have hp : ¬ s.key.length + p < s.key.length := by omega
  unfold locate group Columns.column?
  simp only [if_neg hp, Nat.add_sub_cancel_left, hc]

/-- A column that is found is found with its group and its position there. -/
theorem locate_of_column (h : s.column? index = some c) : ∃ g p, s.locate index = .ok (g, p, c) := by
  rcases column?_cases h with ⟨_, hk⟩ | ⟨p, rfl, hv⟩
  · exact ⟨_, _, locate_key hk⟩
  · exact ⟨_, _, locate_value hv⟩

/-- Past the last column there is nothing. -/
theorem locate_out (hi : s.length ≤ index) :
    s.locate index = .error (.columnOutOfRange index s.length) := by
  unfold length at hi
  have hk : ¬ index < s.key.length := by omega
  have hv : s.value.columns[index - s.key.length]? = none :=
    List.getElem?_eq_none (by unfold Columns.length at hi hk; unfold Columns.length; omega)
  unfold locate group Columns.column?
  simp only [if_neg hk, hv]

/-- A column that is found stands in its group at its position. -/
theorem of_locate {g : Columns} (h : s.locate index = .ok (g, p, c)) :
    s.group index = (g, p) ∧ g.columns[p]? = some c ∧ index < s.length := by
  have hlt : index < s.length := by
    apply Nat.not_le.mp
    intro hout
    rw [locate_out hout] at h
    cases h
  unfold locate at h
  dsimp only at h
  split at h
  · rename_i column hc
    cases h
    exact ⟨rfl, hc, hlt⟩
  · cases h

theorem Sound.group_laidOut {g : Columns} (hs : s.Sound) (h : s.group index = (g, p)) :
    g.LaidOut := by
  unfold group at h
  split at h
  · cases h
    exact hs.key
  · cases h
    exact hs.value

/-- Unless it is the value's first, the column behind has the group of the one before. -/
theorem group_succ (h : index + 1 ≠ s.key.length) :
    s.group (index + 1) = ((s.group index).1, (s.group index).2 + 1) := by
  unfold group
  by_cases hi : index < s.key.length
  · rw [if_pos hi, if_pos (by omega)]
  · rw [if_neg hi, if_neg (by omega), Nat.succ_sub (Nat.not_lt.mp hi)]

/-- Behind the key's last column comes the value's first. -/
theorem group_key_length (s : Schema) : s.group s.key.length = (s.value, 0) := by
  unfold group
  rw [if_neg (Nat.lt_irrefl _), Nat.sub_self]

end Addressing

end Schema

end RowCodec
