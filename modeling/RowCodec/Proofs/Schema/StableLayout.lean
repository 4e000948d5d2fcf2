import RowCodec.Proofs.Bytes.Segments
import RowCodec.Proofs.Schema.Layout
import Mathlib.Algebra.Ring.Nat
import Mathlib.Logic.Relation

/-!
# How columns are laid out

The layout of a group said from outside, by what can be asked of it, and not by how it is computed.

* `StablePartition` -- the entries of one kind before the others, each kind in the order it had. There is one
  such list (`StablePartition.eq`).
* `Columns.Slot` -- the range of a fixed-size column in the fixed section. The slots of a laid-out group tile
  it (`LaidOut.slots`).
* `Columns.IsLayoutOf` -- a group of which every question is answered as declared columns demand. Declared
  columns have one layout (`IsLayoutOf.eq`).
* `Columns.Moves` -- columns of variable length moved across fixed-size ones. What is left is the order
  within each kind (`moves_iff`).
* `Columns.ofList_stable` -- **`Columns.ofList` makes that layout**, and makes the same one of two lists exactly
  when such moves lead from one to the other; a schema does not notice them.
-/

namespace RowCodec

/-! ## 1. Stable partitions -/

/-- **A stable partition**: the entries of a list, those of a kind before the others, and each kind in the order
    it had. -/
structure StablePartition {α : Type} (kind : α → Bool) (declared stored : List α) : Prop where
  /-- No entry is lost or comes twice. -/
  perm : stored.Perm declared
  first : stored.Pairwise fun a b => kind b = true → kind a = true
  kept : stored.filter kind = declared.filter kind
  others : (stored.filter fun a => !kind a) = declared.filter fun a => !kind a

namespace StablePartition

variable {α : Type} {kind : α → Bool} {declared stored : List α}

/-- A list with a kind first is that kind's entries and then the others. -/
theorem eq_append_of_first : ∀ {stored : List α},
    stored.Pairwise (fun a b => kind b = true → kind a = true) →
      stored = stored.filter kind ++ stored.filter fun a => !kind a
  | [], _ => rfl
  | a :: rest, h => by
      obtain ⟨ha, hrest⟩ := List.pairwise_cons.mp h
      cases hkind : kind a with
      | true =>
          rw [List.filter_cons_of_pos hkind, List.filter_cons_of_neg (by rw [hkind]; decide), List.cons_append,
            ← eq_append_of_first hrest]
      | false =>
          -- From here on no entry is of the kind.
          have hnone : ∀ b ∈ rest, ¬ kind b = true := by
            intro b hb hkb
            rw [ha b hb hkb] at hkind
            cases hkind
          have hkept : rest.filter kind = [] := List.filter_eq_nil_iff.mpr hnone
          have hothers : (rest.filter fun a => !kind a) = rest :=
            List.filter_eq_self.mpr fun b hb => by rw [Bool.not_eq_true', Bool.eq_false_iff]; exact hnone b hb
          rw [List.filter_cons_of_neg (by rw [hkind]; decide), List.filter_cons_of_pos (by rw [hkind]; rfl),
            hkept, hothers, List.nil_append]

/-- **There is one stable partition.** -/
theorem eq (h : StablePartition kind declared stored) :
    stored = declared.filter kind ++ declared.filter fun a => !kind a := by
  rw [← h.kept, ← h.others]
  exact eq_append_of_first h.first

end StablePartition

namespace Columns

variable {g g' : Columns} {declared declared' : List Column}

/-! ## 2. Slots -/

/-- **The slot of a fixed-size column**: its first position in the fixed section, and the one behind it. -/
def Slot (g : Columns) (p : Nat) (r : Nat × Nat) : Prop :=
  ∃ c, g.column? p = some c ∧ c.isFixedSize = true ∧
    g.fixedOffset (ε := TupleError) p = .ok r.1 ∧ r.2 = r.1 + c.type.size

theorem widths_eq_sum : ∀ columns : List Column, widths columns = (columns.map fun c => c.type.size).sum
  | [] => rfl
  | c :: rest => by rw [widths_cons, widths_eq_sum rest, List.map_cons, List.sum_cons]

theorem widths_take_succ {columns : List Column} {p : Nat} {c : Column} (h : columns[p]? = some c) :
    widths (columns.take (p + 1)) = widths (columns.take p) + c.type.size := by
  rw [List.take_add_one, h, Option.toList_some, widths_append, widths_cons, widths_nil, Nat.add_zero]

theorem length_offsetsFrom : ∀ (columns : List Column) (start : Nat),
    (offsetsFrom start columns).length = columns.length
  | [], _ => rfl
  | c :: rest, start => congrArg (· + 1) (length_offsetsFrom rest (start + c.type.size))

namespace LaidOut

/-- A slot lies between what the columns before it take, and what they take with its own. -/
theorem slot_iff (h : g.LaidOut) {p : Nat} {r : Nat × Nat} : g.Slot p r ↔
    p < g.fixedCount ∧ r = (widths (g.columns.take p), widths (g.columns.take (p + 1))) := by
  constructor
  · rintro ⟨c, hc, hf, hoffset, hstop⟩
    rw [h.fixedOffset_eq hc hf] at hoffset
    have hstart := Except.ok.inj hoffset
    refine ⟨(h.isFixedSize_iff hc).mp hf, Prod.ext hstart.symm ?_⟩
    rw [hstop, ← hstart, widths_take_succ hc]
  · rintro ⟨hp, rfl⟩
    obtain ⟨c, hc⟩ := exists_column (Nat.lt_of_lt_of_le hp h.fixedCount_le)
    have hf := (h.isFixedSize_iff hc).mpr hp
    exact ⟨c, hc, hf, h.fixedOffset_eq hc hf, widths_take_succ hc⟩

/-- **The slots tile the fixed section.** -/
theorem slots (h : g.LaidOut) :
    ∃ ranges, Tiles 0 g.fixedSize ranges ∧ ∀ p r, g.Slot p r ↔ ranges[p]? = some r := by
  have hstop : widths (g.columns.take g.fixedCount) = g.fixedSize := by
    rw [h.take_fixedCount, widths_filter_fixed, h.fixedSize_eq]
  have hgrows : ∀ k < g.fixedCount, widths (g.columns.take k) ≤ widths (g.columns.take (k + 1)) := by
    intro k hk
    obtain ⟨c, hc⟩ := exists_column (Nat.lt_of_lt_of_le hk h.fixedCount_le)
    rw [widths_take_succ hc]
    exact Nat.le_add_right _ _
  have htiles := @Tiles.of_bounds (fun k => widths (g.columns.take k)) g.fixedCount hgrows
  rw [hstop] at htiles
  refine ⟨_, htiles, fun p r => ?_⟩
  rw [h.slot_iff, List.getElem?_map]
  by_cases hp : p < g.fixedCount
  · rw [List.getElem?_range hp, Option.map_some, Option.some_inj, eq_comm, and_iff_right hp]
  · rw [List.getElem?_eq_none (by rw [List.length_range]; exact Nat.not_lt.mp hp)]
    exact iff_of_false (fun hr => hp hr.1) (fun hr => by cases hr)

theorem slots_ordered (h : g.LaidOut) {p q : Nat} {r r' : Nat × Nat} (hpq : p < q) (hr : g.Slot p r)
    (hr' : g.Slot q r') : r.2 ≤ r'.1 := by
  obtain ⟨ranges, htiles, hslots⟩ := h.slots
  obtain ⟨hp, rfl⟩ := List.getElem?_eq_some_iff.mp ((hslots p r).mp hr)
  obtain ⟨hq, rfl⟩ := List.getElem?_eq_some_iff.mp ((hslots q r').mp hr')
  exact List.pairwise_iff_getElem.mp htiles.pairwise p q hp hq hpq

theorem slots_cover (h : g.LaidOut) (x : Nat) :
    x < g.fixedSize ↔ ∃ p r, g.Slot p r ∧ r.1 ≤ x ∧ x < r.2 := by
  obtain ⟨ranges, htiles, hslots⟩ := h.slots
  have hcovers := htiles.covers x
  rw [and_iff_right (Nat.zero_le x)] at hcovers
  rw [hcovers]
  constructor
  · rintro ⟨r, hr, hx⟩
    obtain ⟨p, hp⟩ := List.mem_iff_getElem?.mp hr
    exact ⟨p, r, (hslots p r).mpr hp, hx⟩
  · rintro ⟨p, r, hr, hx⟩
    exact ⟨r, List.mem_of_getElem? ((hslots p r).mp hr), hx⟩

/-- The first column of variable length stands behind the fixed-size ones. -/
theorem firstVarlen_eq_some_iff (h : g.LaidOut) {i : Nat} :
    g.firstVarlen = some i ↔ i = g.fixedCount ∧ ∃ c ∈ g.columns, c.isFixedSize = false := by
  have hempty : (g.columns.filter fun c => !c.isFixedSize).isEmpty = true ↔
      ¬ ∃ c ∈ g.columns, c.isFixedSize = false := by
    rw [List.isEmpty_iff, List.filter_eq_nil_iff, not_exists]
    refine forall_congr' fun c => ?_
    rw [Bool.not_eq_true', not_and]
  rw [h.firstVarlen_eq]
  split
  · rename_i hnone
    exact iff_of_false (fun hi => by cases hi) fun hi => hempty.mp hnone hi.2
  · rename_i hsome
    rw [and_iff_left (Classical.not_not.mp (mt hempty.mpr hsome)), Option.some_inj, eq_comm]

theorem length_fixedOffsets (h : g.LaidOut) : g.fixedOffsets.length = g.fixedCount := by
  rw [h.fixedOffsets_eq, length_offsetsFrom]
  rfl

theorem varlenCount_eq {ε : Type} (h : g.LaidOut) :
    g.varlenCount (ε := ε) = .ok (g.columns.countP fun c => !c.isFixedSize) := by
  unfold varlenCount checkedSub
  rw [h.length_fixedOffsets, if_pos h.fixedCount_le, h.length_eq, Nat.add_sub_cancel_left,
    List.countP_eq_length_filter]

end LaidOut

/-! ## 3. Layouts -/

/-- **A layout of declared columns**, said by what can be asked of it. -/
structure IsLayoutOf (g : Columns) (declared : List Column) : Prop where
  partition : StablePartition Column.isFixedSize declared g.columns
  /-- There is a first column of variable length exactly when there is one at all. -/
  border_iff : (∃ i, g.firstVarlen = some i) ↔ ∃ c ∈ declared, c.isFixedSize = false
  border : ∀ i, g.firstVarlen = some i → ∀ p c, g.column? p = some c → (c.isFixedSize = true ↔ p < i)
  offset : ∀ p c, g.column? p = some c → c.isFixedSize = true →
    g.fixedOffset (ε := TupleError) p = .ok ((g.columns.take p).map fun c => c.type.size).sum
  /-- No two slots overlap, and they stand in column order. -/
  ordered : ∀ p q r r', p < q → g.Slot p r → g.Slot q r' → r.2 ≤ r'.1
  /-- The slots are the whole fixed section and nothing more. -/
  covers : ∀ x, x < g.fixedSize ↔ ∃ p r, g.Slot p r ∧ r.1 ≤ x ∧ x < r.2
  varlenCount : g.varlenCount (ε := TupleError) = .ok (declared.countP fun c => !c.isFixedSize)

theorem stablePartition_ofList (declared : List Column) :
    StablePartition Column.isFixedSize declared (ofList declared).columns := by
  refine ⟨columns_perm_ofList declared, ?_, filter_fixed_ofList declared, filter_varlen_ofList declared⟩
  rw [columns_ofList, List.pairwise_append]
  have hfixed : ∀ c ∈ declared.filter Column.isFixedSize, c.isFixedSize = true :=
    fun c hc => (List.mem_filter.mp hc).2
  refine ⟨List.pairwise_of_forall_mem_list fun c hc _ _ _ => hfixed c hc, ?_, fun c hc _ _ _ => hfixed c hc⟩
  refine List.pairwise_of_forall_mem_list fun _ _ d hd hf => ?_
  have hvarlen := (List.mem_filter.mp hd).2
  rw [hf] at hvarlen
  cases hvarlen

/-- **What is laid out is a layout.** -/
theorem isLayoutOf_ofList (declared : List Column) : (ofList declared).IsLayoutOf declared := by
  have h := laidOut_ofList declared
  have hpartition := stablePartition_ofList declared
  refine ⟨hpartition, ?_, ?_, ?_, fun p q r r' => h.slots_ordered, h.slots_cover, ?_⟩
  · simp only [h.firstVarlen_eq_some_iff, hpartition.perm.mem_iff, exists_eq_left]
  · intro i hi p c hc
    rw [(h.firstVarlen_eq_some_iff.mp hi).1]
    exact h.isFixedSize_iff hc
  · intro p c hc hf
    rw [h.fixedOffset_eq hc hf, widths_eq_sum]
  · rw [h.varlenCount_eq, hpartition.perm.countP_eq]

theorem getElem?_of_fixedOffset {ε : Type} {p offset : Nat} (h : g.fixedOffset (ε := ε) p = .ok offset) :
    g.fixedOffsets[p]? = some offset := by
  unfold fixedOffset at h
  split at h
  · cases h
  · split at h
    · split at h
      · rename_i hsome
        cases h
        exact hsome
      · cases h
    · cases h

/-- The columns from a border on are of variable length, those below another one are not. -/
theorem border_le {columns : List Column} {i j : Nat}
    (hi : ∀ p c, columns[p]? = some c → (c.isFixedSize = true ↔ p < i))
    (hj : ∀ p c, columns[p]? = some c → (c.isFixedSize = true ↔ p < j))
    (hsome : ∃ c ∈ columns, c.isFixedSize = false) : j ≤ i := by
  obtain ⟨c, hc, hf⟩ := hsome
  obtain ⟨q, hq⟩ := List.mem_iff_getElem?.mp hc
  have hle : i ≤ q := Nat.not_lt.mp fun hlt => by
    rw [(hi q c hq).mpr hlt] at hf
    cases hf
  have hlength := (List.getElem?_eq_some_iff.mp hq).1
  have hd : columns[i]? = some columns[i] := List.getElem?_eq_getElem (Nat.lt_of_le_of_lt hle hlength)
  exact Nat.not_lt.mp fun hlt => Nat.lt_irrefl i ((hi i _ hd).mp ((hj i _ hd).mpr hlt))

namespace IsLayoutOf

variable (h : g.IsLayoutOf declared)

include h

theorem columns_eq : g.columns = (ofList declared).columns := h.partition.eq

theorem fixedOffsets_eq : g.fixedOffsets = (ofList declared).fixedOffsets := by
  have hcolumns := h.columns_eq
  have hlaid := laidOut_ofList declared
  have hlength : g.fixedOffsets.length = (ofList declared).fixedOffsets.length := by
    have hcount := h.varlenCount.trans (isLayoutOf_ofList declared).varlenCount.symm
    have hle := hlaid.fixedCount_le
    rw [← hlaid.length_fixedOffsets] at hle
    unfold Columns.varlenCount checkedSub Columns.length at hcount
    unfold Columns.length at hle
    rw [hcolumns, if_pos hle] at hcount
    split at hcount
    · have hsub := Except.ok.inj hcount
      omega
    · cases hcount
  refine List.ext_getElem? fun p => ?_
  by_cases hp : p < (ofList declared).fixedCount
  · obtain ⟨c, hc⟩ := exists_column (Nat.lt_of_lt_of_le hp hlaid.fixedCount_le)
    have hf := (hlaid.isFixedSize_iff hc).mpr hp
    have hc' : g.columns[p]? = some c := by rw [hcolumns, hc]
    rw [getElem?_of_fixedOffset (h.offset p c hc' hf),
      getElem?_of_fixedOffset ((isLayoutOf_ofList declared).offset p c hc hf), hcolumns]
  · rw [List.getElem?_eq_none (by rw [hlength, hlaid.length_fixedOffsets]; exact Nat.not_lt.mp hp),
      List.getElem?_eq_none (by rw [hlaid.length_fixedOffsets]; exact Nat.not_lt.mp hp)]

theorem fixedSize_eq : g.fixedSize = (ofList declared).fixedSize := by
  have hslot : ∀ p r, g.Slot p r ↔ (ofList declared).Slot p r := by
    intro p r
    unfold Slot fixedOffset column?
    rw [h.columns_eq, h.fixedOffsets_eq]
  have hlt : ∀ x, x < g.fixedSize ↔ x < (ofList declared).fixedSize := by
    intro x
    rw [h.covers, (isLayoutOf_ofList declared).covers]
    simp only [hslot]
  have hleft := hlt g.fixedSize
  have hright := hlt (ofList declared).fixedSize
  omega

theorem firstVarlen_eq : g.firstVarlen = (ofList declared).firstVarlen := by
  have hl := isLayoutOf_ofList declared
  cases hg : g.firstVarlen with
  | none =>
      have hnone : ¬ ∃ i, (ofList declared).firstVarlen = some i := by
        rw [hl.border_iff, ← h.border_iff, hg]
        exact fun ⟨i, hi⟩ => by cases hi
      exact (Option.eq_none_iff_forall_ne_some.mpr fun i hi => hnone ⟨i, hi⟩).symm
  | some i =>
      obtain ⟨j, hj⟩ := hl.border_iff.mpr (h.border_iff.mp ⟨i, hg⟩)
      have hborder := h.border i hg
      unfold Columns.column? at hborder
      rw [h.columns_eq] at hborder
      have hsome : ∃ c ∈ (ofList declared).columns, c.isFixedSize = false := by
        obtain ⟨c, hc, hf⟩ := h.border_iff.mp ⟨i, hg⟩
        exact ⟨c, hl.partition.perm.mem_iff.mpr hc, hf⟩
      rw [hj, Nat.le_antisymm (border_le hborder (hl.border j hj) hsome)
        (border_le (hl.border j hj) hborder hsome)]

/-- **Declared columns have one layout.** -/
theorem eq : g = ofList declared := by
  cases g with
  | mk columns fixedOffsets fixedSize firstVarlen =>
      have hcolumns := h.columns_eq
      have hoffsets := h.fixedOffsets_eq
      have hsize := h.fixedSize_eq
      have hfirst := h.firstVarlen_eq
      dsimp only at hcolumns hoffsets hsize hfirst
      rw [hcolumns, hoffsets, hsize, hfirst]

end IsLayoutOf

/-! ## 4. Columns that are moved -/

/-- A fixed-size column, and behind it one of variable length, change places. -/
inductive Exchange : List Column → List Column → Prop
  | mk (before after : List Column) {fixed varlen : Column} (hf : fixed.isFixedSize = true)
      (hv : varlen.isFixedSize = false) :
      Exchange (before ++ fixed :: varlen :: after) (before ++ varlen :: fixed :: after)

/-- **Columns of variable length were moved across fixed-size ones**, in steps, forward or back. -/
def Moves : List Column → List Column → Prop := Relation.EqvGen Exchange

/-- The order within each kind. -/
def SameKinds (declared declared' : List Column) : Prop :=
  declared'.filter Column.isFixedSize = declared.filter Column.isFixedSize ∧
    (declared'.filter fun c => !c.isFixedSize) = declared.filter fun c => !c.isFixedSize

theorem Exchange.sameKinds (h : Exchange declared declared') : SameKinds declared declared' := by
  cases h with
  | mk before after hf hv =>
      unfold SameKinds
      simp only [List.filter_append, List.filter_cons, hf, hv, Bool.not_true, Bool.not_false,
        Bool.false_eq_true, if_true, if_false, and_self]

theorem Moves.sameKinds (h : Moves declared declared') : SameKinds declared declared' := by
  induction h with
  | rel _ _ h => exact h.sameKinds
  | refl _ => exact ⟨rfl, rfl⟩
  | symm _ _ _ ih => exact ⟨ih.1.symm, ih.2.symm⟩
  | trans _ _ _ _ _ ih ih' => exact ⟨ih'.1.trans ih.1, ih'.2.trans ih.2⟩

theorem Moves.cons (c : Column) (h : Moves declared declared') : Moves (c :: declared) (c :: declared') := by
  induction h with
  | rel _ _ h =>
      cases h with
      | mk before after hf hv => exact .rel _ _ (.mk (c :: before) after hf hv)
  | refl _ => exact .refl _
  | symm _ _ _ ih => exact .symm _ _ ih
  | trans _ _ _ _ _ ih ih' => exact .trans _ _ _ ih ih'

/-- A column of variable length moves behind any number of fixed-size ones. -/
theorem moves_behind {varlen : Column} (hv : varlen.isFixedSize = false) (after : List Column) :
    ∀ {fixed : List Column}, (∀ c ∈ fixed, c.isFixedSize = true) →
      Moves (varlen :: (fixed ++ after)) (fixed ++ varlen :: after)
  | [], _ => .refl _
  | c :: rest, h => by
      obtain ⟨hc, hrest⟩ := List.forall_mem_cons.mp h
      exact .trans _ _ _ (.symm _ _ (.rel _ _ (.mk [] (rest ++ after) hc hv)))
        ((moves_behind hv after hrest).cons c)

/-- Every list is moved into stored order. -/
theorem moves_stored : ∀ declared : List Column, Moves declared (ofList declared).columns
  | [] => .refl _
  | c :: rest => by
      have ih := (moves_stored rest).cons c
      rw [columns_ofList] at ih ⊢
      cases hc : c.isFixedSize with
      | true =>
          rw [List.filter_cons_of_pos hc, List.filter_cons_of_neg (by rw [hc]; decide)]
          exact ih
      | false =>
          rw [List.filter_cons_of_neg (by rw [hc]; decide), List.filter_cons_of_pos (by rw [hc]; rfl)]
          exact .trans _ _ _ ih (moves_behind hc _ fun d hd => (List.mem_filter.mp hd).2)

/-- **Two lists are laid out alike** exactly when they have one order within each kind. -/
theorem ofList_eq_iff : ofList declared' = ofList declared ↔ SameKinds declared declared' := by
  constructor
  · intro h
    have hcolumns := congrArg Columns.columns h
    have hkept := congrArg (List.filter Column.isFixedSize) hcolumns
    have hothers := congrArg (List.filter fun c => !c.isFixedSize) hcolumns
    rw [filter_fixed_ofList, filter_fixed_ofList] at hkept
    rw [filter_varlen_ofList, filter_varlen_ofList] at hothers
    exact ⟨hkept, hothers⟩
  · rintro ⟨hkept, hothers⟩
    unfold ofList
    rw [hkept, hothers]

theorem moves_iff : Moves declared declared' ↔ SameKinds declared declared' := by
  refine ⟨Moves.sameKinds, fun h => ?_⟩
  have hstored := moves_stored declared'
  rw [ofList_eq_iff.mpr h] at hstored
  exact .trans _ _ _ (moves_stored declared) (.symm _ _ hstored)

theorem SameKinds.perm (h : SameKinds declared declared') : declared.Perm declared' := by
  have hperm := columns_perm_ofList declared'
  rw [ofList_eq_iff.mpr h] at hperm
  exact (columns_perm_ofList declared).symm.trans hperm

end Columns

/-- A schema does not notice that columns were moved. -/
theorem Schema.define_of_moves {version : UInt32} {key key' value value' : List Column} {s : Schema}
    (h : define version key value = .ok s) (hk : Columns.Moves key key') (hv : Columns.Moves value value') :
    define version key' value' = .ok s := by
  have hkey := hk.sameKinds
  have hvalue := hv.sameKinds
  obtain ⟨hne, hnames, _⟩ := of_define h
  have hne' : key' ≠ [] := by
    rintro rfl
    exact hne hkey.perm.eq_nil
  have hnames' := ((hkey.perm.append hvalue.perm).map (·.name)).nodup_iff.mp hnames
  rw [← h, define_of_nodup version hne hnames, define_of_nodup version hne' hnames',
    Columns.ofList_eq_iff.mpr hkey, Columns.ofList_eq_iff.mpr hvalue]

/-! ## 5. All of it -/

/-- **The layout of declared columns.** It is the one group of which every question is answered as the columns
    demand: they are stably partitioned, the border is where it is said to be, the slots of the fixed-size
    columns are disjoint, in order, and the fixed section, and the columns behind the border are counted. Two
    lists have one layout exactly when the order within each kind is the same, that is, when columns were moved
    across columns of the other kind; then neither a group nor a schema tells them apart. What is laid out
    stays as it is when it is laid out again. -/
theorem Columns.ofList_stable (declared : List Column) :
    (∀ g, ofList declared = g ↔ g.IsLayoutOf declared) ∧
    (∀ declared', ofList declared' = ofList declared ↔ SameKinds declared declared') ∧
    (∀ declared', Moves declared declared' ↔ SameKinds declared declared') ∧
    ofList (ofList declared).columns = ofList declared ∧
    ∀ version other schema, Schema.define version declared other = .ok schema →
      ∀ declared' other', Moves declared declared' → Moves other other' →
        Schema.define version declared' other' = .ok schema := by
  refine ⟨fun g => ⟨?_, fun h => h.eq.symm⟩, fun _ => ofList_eq_iff, fun _ => moves_iff,
    laidOut_ofList declared, fun _ _ _ h _ _ => Schema.define_of_moves h⟩
  rintro rfl
  exact isLayoutOf_ofList declared

/-- Columns of both kinds, one of them with a slot of no byte. -/
def mixedColumns : List Column :=
  [⟨"note", .utf8, true⟩, ⟨"count", .number .int4, true⟩, ⟨"flags", .bitmask 0, true⟩, ⟨"body", .blob, true⟩,
    ⟨"id", .uuid, true⟩]

/-- The same columns, as they are stored. -/
def storedColumns : List Column :=
  [⟨"count", .number .int4, true⟩, ⟨"flags", .bitmask 0, true⟩, ⟨"id", .uuid, true⟩, ⟨"note", .utf8, true⟩,
    ⟨"body", .blob, true⟩]

/-- Moved columns make the same schema, whose value group is the one layout of both lists. -/
theorem Columns.ofList_stable_mixed : ∃ schema,
    Schema.define 1 mixedColumns [] = .ok schema ∧ Moves mixedColumns storedColumns ∧
    Schema.define 1 storedColumns [] = .ok schema ∧ schema.key.IsLayoutOf mixedColumns ∧
    schema.key.fixedOffset (ε := TupleError) 2 = .ok 4 ∧ schema.key.fixedSize = 20 := by
  have hdef : Schema.define 1 mixedColumns [] = .ok _ := rfl
  obtain ⟨hlayout, _, hmoves, _, hdefine⟩ := ofList_stable mixedColumns
  have hmoved : Moves mixedColumns storedColumns := (hmoves storedColumns).mpr ⟨rfl, rfl⟩
  exact ⟨_, hdef, hmoved, hdefine 1 [] _ hdef storedColumns [] hmoved (.refl _),
    (hlayout _).mp rfl, rfl, rfl⟩

end RowCodec
