import RowCodec.Proofs.Schema.Layout
import Mathlib.Data.List.Nodup
import Mathlib.Data.Set.Function

/-!
# Which columns make a schema, and how it addresses them

* `Schema.Refuses` -- the two causes for which columns make no schema, and which column is named. `define`
  fails with exactly these (`define_eq_error_iff`).
* `Schema.Addresses` -- the indices of a schema are its declared columns, each once, and the names resolve
  to them, although names are checked in the order of declaration and looked up in that of the layout.
* `Schema.define_outcome` -- **columns are refused for such a cause or addressed so.**
-/

namespace RowCodec

/-! ## 1. Names in a group -/

namespace Columns

variable {g : Columns} {name : String} {p : Nat}

theorem find?_eq_none : g.find? name = none ↔ name ∉ g.columns.map (·.name) := by
  unfold find?
  rw [List.findIdx?_eq_none_iff, List.mem_map, not_exists]
  refine forall_congr' fun c => ?_
  rw [decide_eq_false_iff_not, not_and]

/-- **Where no name occurs twice, a name is found where its column stands**, and nowhere else. -/
theorem find?_eq_some_iff (hnames : (g.columns.map (·.name)).Nodup) :
    g.find? name = some p ↔ ∃ c, g.column? p = some c ∧ c.name = name := by
  constructor
  · intro h
    obtain ⟨hp, hname, _⟩ := List.findIdx?_eq_some_iff_getElem.mp h
    exact ⟨_, List.getElem?_eq_getElem hp, of_decide_eq_true hname⟩
  · rintro ⟨c, hc, rfl⟩
    cases hq : g.find? c.name with
    | none => exact absurd (List.mem_map_of_mem (List.mem_of_getElem? hc)) (find?_eq_none.mp hq)
    | some q =>
        obtain ⟨hlt, hname, _⟩ := List.findIdx?_eq_some_iff_getElem.mp hq
        have hpname : (g.columns.map (·.name))[p]? = some c.name := by
          rw [List.getElem?_map, show g.columns[p]? = some c from hc, Option.map_some]
        have hqname : (g.columns.map (·.name))[q]? = some c.name := by
          rw [List.getElem?_map, List.getElem?_eq_getElem hlt, Option.map_some,
            of_decide_eq_true hname]
        have hqlt : q < (g.columns.map (·.name)).length := by rwa [List.length_map]
        rw [(List.getElem?_inj hqlt hnames).mp (hqname.trans hpname.symm)]

end Columns

namespace Schema

variable {version : UInt32} {key value : List Column} {s : Schema}

/-! ## 2. Refused columns -/

/-- A name is found a second time behind a part of the list in which every name is new. -/
theorem firstRepeated_eq_some : ∀ {names seen : List String} {name : String},
    firstRepeated seen names = some name ↔
      ∃ before after, names = before ++ name :: after ∧ before.Nodup ∧ (∀ other ∈ before, other ∉ seen) ∧
        (name ∈ before ∨ name ∈ seen)
  | [], _, name => by
      refine iff_of_false (fun h => by cases h) ?_
      rintro ⟨before, after, hsplit, _⟩
      cases before <;> cases hsplit
  | first :: rest, seen, name => by
      unfold firstRepeated
      split
      · rename_i hseen
        constructor
        · intro h
          cases h
          exact ⟨[], rest, rfl, List.nodup_nil, fun _ h => absurd h List.not_mem_nil, Or.inr hseen⟩
        · rintro ⟨before, after, hsplit, _, hnew, _⟩
          cases before with
          | nil => rw [(List.cons.inj hsplit).1]
          | cons other before =>
              rw [(List.cons.inj hsplit).1] at hseen
              exact absurd hseen (hnew other List.mem_cons_self)
      · rename_i hseen
        -- A name that is new goes from the list to the names seen.
        rw [firstRepeated_eq_some]
        constructor
        · rintro ⟨before, after, rfl, hnodup, hnew, hname⟩
          refine ⟨first :: before, after, rfl, ?_, ?_, ?_⟩
          · exact List.nodup_cons.mpr ⟨fun hm => hnew first hm List.mem_cons_self, hnodup⟩
          · refine List.forall_mem_cons.mpr ⟨hseen, fun other hm hs => ?_⟩
            exact hnew other hm (List.mem_cons_of_mem _ hs)
          · rw [List.mem_cons] at hname ⊢
            tauto
        · rintro ⟨before, after, hsplit, hnodup, hnew, hname⟩
          cases before with
          | nil =>
              rw [(List.cons.inj hsplit).1] at hseen
              exact absurd (hname.resolve_left List.not_mem_nil) hseen
          | cons other before =>
              obtain ⟨rfl, rfl⟩ := List.cons.inj hsplit
              obtain ⟨hother, hnodup⟩ := List.nodup_cons.mp hnodup
              refine ⟨before, after, rfl, hnodup, fun n hn hs => ?_, ?_⟩
              · rcases List.mem_cons.mp hs with rfl | hs
                · exact hother hn
                · exact hnew n (List.mem_cons_of_mem _ hn) hs
              · rw [List.mem_cons] at hname ⊢
                tauto

theorem firstRepeated_columns {columns : List Column} {name : String} :
    firstRepeated [] (columns.map (·.name)) = some name ↔
      ∃ before c after, columns = before ++ c :: after ∧ (before.map (·.name)).Nodup ∧
        c.name ∈ before.map (·.name) ∧ c.name = name := by
  rw [firstRepeated_eq_some]
  constructor
  · rintro ⟨names, names', hsplit, hnew, _, hname⟩
    obtain ⟨before, rest, hcolumns, rfl, hrest⟩ := List.map_eq_append_iff.mp hsplit
    obtain ⟨c, after, rfl, rfl, _⟩ := List.map_eq_cons_iff.mp hrest
    exact ⟨before, c, after, hcolumns, hnew, hname.resolve_right List.not_mem_nil, rfl⟩
  · rintro ⟨before, c, after, rfl, hnew, hc, rfl⟩
    refine ⟨before.map (·.name), after.map (·.name), ?_, hnew, fun _ _ => List.not_mem_nil, Or.inl hc⟩
    rw [List.map_append, List.map_cons]

/-- **Why columns make no schema.** A missing key comes before a name that is used twice. -/
inductive Refuses (key value : List Column) : TupleError → Prop
  | noKey (h : key = []) : Refuses key value .emptyKey
  /-- The first column in the order of declaration, key before value, whose name occurred before it. -/
  | repeated (before after : List Column) (c : Column) (h : key ≠ [])
      (hsplit : key ++ value = before ++ c :: after) (hnew : (before.map (·.name)).Nodup)
      (hc : c.name ∈ before.map (·.name)) : Refuses key value (.duplicateColumn c.name)

theorem define_eq_error_iff {e : TupleError} :
    define version key value = .error e ↔ Refuses key value e := by
  unfold define
  split
  · rename_i hkey
    rw [List.isEmpty_iff] at hkey
    constructor
    · intro h
      cases h
      exact .noKey hkey
    · intro h
      cases h with
      | noKey _ => rfl
      | repeated _ _ _ hne _ _ _ => exact absurd hkey hne
  · rename_i hkey
    rw [List.isEmpty_iff] at hkey
    split
    · rename_i name hfirst
      obtain ⟨before, c, after, hsplit, hnew, hc, rfl⟩ := firstRepeated_columns.mp hfirst
      constructor
      · intro h
        cases h
        exact .repeated before after c hkey hsplit hnew hc
      · intro h
        cases h with
        | noKey h => exact absurd h hkey
        | repeated before' after' c' _ hsplit' hnew' hc' =>
            have hfirst' := firstRepeated_columns.mpr ⟨before', c', after', hsplit', hnew', hc', rfl⟩
            rw [Option.some.inj (hfirst.symm.trans hfirst')]
    · rename_i hfirst
      refine iff_of_false (fun h => by cases h) fun h => ?_
      cases h with
      | noKey h => exact hkey h
      | repeated before after c _ hsplit hnew hc =>
          rw [firstRepeated_columns.mpr ⟨before, c, after, hsplit, hnew, hc, rfl⟩] at hfirst
          cases hfirst

theorem Refuses.code {e : TupleError} (h : Refuses key value e) :
    (key = [] ∧ e.code = "TUPLE_001") ∨
      (key ≠ [] ∧ ¬ ((key ++ value).map (·.name)).Nodup ∧ e.code = "TUPLE_002") := by
  cases h with
  | noKey h => exact Or.inl ⟨h, rfl⟩
  | repeated before after c h hsplit hnew hc =>
      refine Or.inr ⟨h, fun hnames => ?_, rfl⟩
      rw [hsplit, List.map_append, List.map_cons] at hnames
      exact (List.nodup_append.mp hnames).2.2 _ hc _ List.mem_cons_self rfl

/-! ## 3. Addressed columns -/

/-- **A schema addresses declared columns**: by its indices, and by their names. -/
structure Addresses (s : Schema) (key value : List Column) : Prop where
  length : s.length = key.length + value.length
  /-- There is a column at an index exactly below the length. -/
  column_iff : ∀ i, (∃ c, s.column? i = some c) ↔ i < s.length
  /-- Each declared column stands at one index, and nothing else does. -/
  bijective : Set.BijOn s.column? {i | i < s.length} {entry | ∃ c ∈ key ++ value, entry = some c}
  /-- The indices of the key are those of the declared key columns. -/
  isKeyColumn_iff : ∀ i, s.isKeyColumn i = true ↔ ∃ c ∈ key, s.column? i = some c
  /-- The name of a key column is found at its index in the key, and not in the value. -/
  find_key : ∀ i c, s.column? i = some c → s.isKeyColumn i = true →
    s.key.find? c.name = some i ∧ s.value.find? c.name = none
  /-- The name of a value column is found at its index behind the key, and not in the key. -/
  find_value : ∀ i c, s.column? i = some c → s.isKeyColumn i = false →
    s.value.find? c.name = some (i - s.key.length) ∧ s.key.find? c.name = none

/-- The columns of a schema stand one group behind the other. -/
theorem column?_eq (s : Schema) (i : Nat) : s.column? i = (s.key.columns ++ s.value.columns)[i]? := by
  by_cases hi : i < s.key.length
  · rw [column?_key hi, List.getElem?_append_left hi]
  · obtain ⟨p, rfl⟩ := Nat.exists_eq_add_of_le (Nat.not_lt.mp hi)
    rw [column?_value, List.getElem?_append_right (Nat.not_lt.mp hi)]
    unfold Columns.length
    rw [Nat.add_sub_cancel_left]

theorem Sound.nodup (h : s.Sound) : (s.key.columns ++ s.value.columns).Nodup := h.names.of_map _

namespace Sound

variable (h : s.Sound) {p : Nat} {c : Column}

include h

/-- **A name is found in its own group, at the position of its column**, and in the other not at all. -/
theorem find?_key (hc : s.key.columns[p]? = some c) :
    s.key.find? c.name = some p ∧ s.value.find? c.name = none := by
  obtain ⟨hkey, _, hapart⟩ := h.names_apart
  refine ⟨(Columns.find?_eq_some_iff hkey).mpr ⟨c, hc, rfl⟩, Columns.find?_eq_none.mpr ?_⟩
  exact hapart _ (List.mem_map_of_mem (List.mem_of_getElem? hc))

theorem find?_value (hc : s.value.columns[p]? = some c) :
    s.value.find? c.name = some p ∧ s.key.find? c.name = none := by
  obtain ⟨_, hvalue, hapart⟩ := h.names_apart
  refine ⟨(Columns.find?_eq_some_iff hvalue).mpr ⟨c, hc, rfl⟩, Columns.find?_eq_none.mpr fun hk => ?_⟩
  exact hapart _ hk (List.mem_map_of_mem (List.mem_of_getElem? hc))

/-- Different indices hold different columns. -/
theorem column?_inj {i j : Nat} (hi : i < s.length) (hij : s.column? i = s.column? j) : i = j := by
  rw [column?_eq, column?_eq] at hij
  refine (List.getElem?_inj ?_ h.nodup).mp hij
  rwa [List.length_append]

end Sound

theorem mem_iff_column? {c : Column} :
    c ∈ s.key.columns ++ s.value.columns ↔ ∃ i, s.column? i = some c := by
  rw [List.mem_iff_getElem?]
  refine exists_congr fun i => ?_
  rw [column?_eq]

/-- The key's columns stand at the key's indices and nowhere else. -/
theorem Sound.isKeyColumn_iff (h : s.Sound) {i : Nat} :
    s.isKeyColumn i = true ↔ ∃ c ∈ s.key.columns, s.column? i = some c := by
  unfold isKeyColumn
  rw [decide_eq_true_iff]
  constructor
  · intro hi
    obtain ⟨c, hc⟩ := Columns.exists_column hi
    exact ⟨c, List.mem_of_getElem? hc, by rw [column?_key hi, hc]⟩
  · rintro ⟨c, hc, hi⟩
    obtain ⟨p, hp⟩ := List.mem_iff_getElem?.mp hc
    have hlt : p < s.key.length := (List.getElem?_eq_some_iff.mp hp).1
    have hpi : s.column? p = s.column? i := by rw [column?_key hlt, hp, hi]
    rw [← h.column?_inj (Nat.lt_of_lt_of_le hlt (Nat.le_add_right _ _)) hpi]
    exact hlt

/-- The layout of a group holds what was declared in it. -/
theorem perm_of_define (h : define version key value = .ok s) :
    s.key.columns.Perm key ∧ s.value.columns.Perm value := by
  obtain ⟨_, _, hkey, hvalue, _⟩ := of_define h
  rw [hkey, hvalue]
  exact ⟨Columns.columns_perm_ofList key, Columns.columns_perm_ofList value⟩

/-- A schema that was made addresses the columns it was made from. -/
theorem addresses_of_define (h : define version key value = .ok s) : s.Addresses key value := by
  obtain ⟨hkey, hvalue⟩ := perm_of_define h
  have hsound := sound_of_define h
  have hmem : ∀ c, c ∈ key ++ value ↔ ∃ i, s.column? i = some c := fun c => by
    rw [← (hkey.append hvalue).mem_iff, mem_iff_column?]
  refine ⟨?_, fun _ => exists_column_iff, ⟨?_, fun _ hi _ _ => hsound.column?_inj hi, ?_⟩, ?_, ?_, ?_⟩
  · exact congrArg₂ (· + ·) hkey.length_eq hvalue.length_eq
  · intro i hi
    obtain ⟨c, hc⟩ := exists_column hi
    exact ⟨c, (hmem c).mpr ⟨i, hc⟩, hc⟩
  · rintro _ ⟨c, hc, rfl⟩
    obtain ⟨i, hi⟩ := (hmem c).mp hc
    exact ⟨i, exists_column_iff.mp ⟨c, hi⟩, hi⟩
  · intro i
    rw [hsound.isKeyColumn_iff]
    simp only [hkey.mem_iff]
  · intro i c hc hi
    rw [column?_key (of_decide_eq_true hi)] at hc
    exact hsound.find?_key hc
  · intro i c hc hi
    obtain ⟨p, rfl⟩ := Nat.exists_eq_add_of_le (Nat.not_lt.mp (of_decide_eq_false hi))
    rw [column?_value] at hc
    rw [Nat.add_sub_cancel_left]
    exact hsound.find?_value hc

/-! ## 4. The outcome -/

/-- **Columns are refused, or make a schema that addresses them.** Without a key column the code is
    `TUPLE_001`; otherwise it is `TUPLE_002` exactly when a name occurs twice in both groups together, and the
    name is that of the first column whose name occurred before it. A schema that is made has its declared
    columns at the indices below its length, each at one, the key's below the value's; each of their names is
    found in its own group at the place of its index there, and not in the other. -/
theorem define_outcome (version : UInt32) (key value : List Column) :
    ((∃ e, define version key value = .error e ∧ e.code = "TUPLE_001") ↔ key = []) ∧
    ((∃ e, define version key value = .error e ∧ e.code = "TUPLE_002") ↔
      key ≠ [] ∧ ¬ ((key ++ value).map (·.name)).Nodup) ∧
    (∀ e, define version key value = .error e ↔ Refuses key value e) ∧
    ∀ s, define version key value = .ok s → s.Addresses key value := by
  refine ⟨⟨?_, ?_⟩, ⟨?_, ?_⟩, fun _ => define_eq_error_iff, fun _ => addresses_of_define⟩
  · rintro ⟨e, he, hcode⟩
    rcases (define_eq_error_iff.mp he).code with ⟨h, _⟩ | ⟨_, _, h⟩
    · exact h
    · rw [h] at hcode
      exact absurd hcode (by decide)
  · intro h
    exact ⟨_, define_eq_error_iff.mpr (.noKey h), rfl⟩
  · rintro ⟨e, he, hcode⟩
    rcases (define_eq_error_iff.mp he).code with ⟨_, h⟩ | ⟨hne, hnames, _⟩
    · rw [h] at hcode
      exact absurd hcode (by decide)
    · exact ⟨hne, hnames⟩
  · rintro ⟨hne, hnames⟩
    cases h : define version key value with
    | ok s => exact absurd (of_define h).2.1 hnames
    | error e =>
        rcases (define_eq_error_iff.mp h).code with ⟨hkey, _⟩ | ⟨_, _, hcode⟩
        · exact absurd hkey hne
        · exact ⟨e, rfl, hcode⟩

/-- A key whose text column is declared first and stored last. -/
def entryKey : List Column := [⟨"title", .utf8, false⟩, ⟨"id", .number .int4, false⟩]

def entryValue : List Column := [⟨"body", .blob, true⟩, ⟨"size", .number .int8, true⟩]

/-- Columns of both kinds are found where the layout put them, and a value column that takes the name of a
    key column is the one that is named. -/
theorem define_outcome_entry : ∃ s, define 1 entryKey entryValue = .ok s ∧ s.Addresses entryKey entryValue ∧
    (s.key.find? "title" = some 1 ∧ s.value.find? "title" = none) ∧
    Refuses entryKey (entryValue ++ entryKey) (.duplicateColumn "title") := by
  have hdef : define 1 entryKey entryValue = .ok _ := rfl
  have haddresses := (define_outcome 1 entryKey entryValue).2.2.2 _ hdef
  have hrefuses := (define_outcome 1 entryKey (entryValue ++ entryKey)).2.2.1 (.duplicateColumn "title")
  exact ⟨_, hdef, haddresses, haddresses.find_key 1 ⟨"title", .utf8, false⟩ rfl rfl, hrefuses.mp rfl⟩

end Schema

end RowCodec
