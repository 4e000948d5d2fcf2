import RowCodec.Proofs.Tuple.Accepted

/-!
# The getters of an accepted tuple

Whatever the bytes hold, a getter of an accepted tuple answers or refuses.

* `View.Located` -- an index leads to a column of the kind that is asked for, or is refused with a
  cause of which `cause` holds.
* `Leads.fixedBytes?_eq`, `Leads.varlenBytes?_eq` -- the bytes of a column; `Leads.number?_eq`, … --
  the numbers, UUIDs and bit sets that they are read as.
* `number?_ensures`, …, `valueAs_ensures` -- **no getter panics**, and beside the causes of `Located`
  it refuses for the sake of the bytes only.
-/

namespace RowCodec

namespace View

variable {t : View} {index p : Nat} {c : ChunkBytes} {column : Column} {type requested : ColumnType}
  {cause : TupleError → Prop}

/-! ## 1. Finding the column -/

/-- An index leads to a column of the requested kind, or the question is refused. -/
def Located (t : View) (index : Nat) (requested : ColumnType) (cause : TupleError → Prop) : Prop :=
  (t.locateOf index requested).Ensures
    (fun (_, _, p, column) =>
      ∃ c, t.Leads index c p column ∧ column.type.sameKind requested = true) cause

theorem Leads.locateOf_eq (h : t.Leads index c p column)
    (hk : column.type.sameKind requested = true) : ∃ start, t.Shows start c ∧
      t.locateOf index requested = .ok (c.viewAt start, c.columns, p, column) := by
  obtain ⟨start, hshows, hlocate⟩ := h.locate
  refine ⟨start, hshows, ?_⟩
  unfold locateOf
  rw [hlocate, Outcome.ok_bind, if_pos hk]
  rfl

/-- Asked for another kind, a column is refused. -/
theorem Leads.locateOf_mismatch (h : t.Leads index c p column)
    (hk : column.type.sameKind requested = false) :
    t.locateOf index requested = Outcome.refuse (.typeMismatch index column.type requested) := by
  obtain ⟨_, _, hlocate⟩ := h.locate
  unfold locateOf
  rw [hlocate, Outcome.ok_bind]
  dsimp only
  rw [hk]
  rfl

/-- Asked for its own kind, a column is found. -/
theorem Leads.located (h : t.Leads index c p column)
    (hk : column.type.sameKind requested = true) : t.Located index requested cause := by
  obtain ⟨_, _, hlocate⟩ := h.locateOf_eq hk
  unfold Located
  rw [hlocate]
  exact ⟨c, h, hk⟩

theorem Sound.locate_ensures (h : t.Sound) (index : Nat) :
    (t.locate index).Ensures (fun (_, _, p, column) => ∃ c, t.Leads index c p column)
      fun _ => True := by
  cases hc : t.schema.column? index with
  | none =>
      rw [h.locate_out hc]
      exact trivial
  | some column =>
      obtain ⟨c, p, hlead⟩ := h.leads hc
      obtain ⟨_, _, hlocate⟩ := hlead.locate
      rw [hlocate]
      exact ⟨c, hlead⟩

/-- Every question about an accepted tuple is answered or refused. -/
theorem Sound.located (h : t.Sound) (index : Nat) (requested : ColumnType) :
    t.Located index requested fun _ => True := by
  refine (h.locate_ensures index).bind ?_
  rintro ⟨_, _, p, column⟩ ⟨c, hlead⟩
  dsimp only
  split
  · rename_i hk
    exact ⟨c, hlead, hk⟩
  · exact trivial

/-! ## 2. The bytes of a column -/

namespace Leads

theorem lt_length (h : t.Leads index c p column) : p < c.columns.length :=
  (List.getElem?_eq_some_iff.mp h.column).1

/-- A null map's bit, read at the chunk's place in the tuple. -/
theorem isDefined_eq (h : t.Leads index c p column) {start : Nat} (hs : t.Shows start c) :
    t.isDefined (c.viewAt start) p = .ok (c.marked p) :=
  (hs.isDefined_eq h.sound (Columns.div_lt_nullMapSize h.lt_length)).trans
    (h.sound.isDefined_eq h.lt_length)

theorem isNull_eq (h : t.Leads index c p column) : t.isNull index = .ok (!c.marked p) := by
  obtain ⟨start, hshows, hlocate⟩ := h.locate
  unfold isNull
  rw [hlocate, Outcome.ok_bind]
  dsimp only
  rw [h.isDefined_eq hshows]
  rfl

/-- A fixed-size column gives its part of the fixed section, a null nothing. -/
theorem fixedBytes?_eq (h : t.Leads index c p column)
    (hk : column.type.sameKind requested = true) (hf : requested.isFixedSize = true) :
    t.fixedBytes? index requested =
      .ok (if c.marked p then some (c.field p column) else none) := by
  have hfixed : column.isFixedSize = true := (ColumnType.isFixedSize_of_sameKind hk).trans hf
  obtain ⟨start, hshows, hlocate⟩ := h.locateOf_eq hk
  unfold fixedBytes?
  rw [hlocate, Outcome.ok_bind]
  dsimp only
  rw [h.isDefined_eq hshows, Outcome.ok_bind]
  cases c.marked p with
  | false => rfl
  | true =>
      rw [if_pos rfl, hshows.fixedBytes_eq h.sound h.column hfixed,
        h.sound.fixedBytes_eq h.column hfixed]
      rfl

/-- A column of variable length gives what its chunk has for it, a null nothing. -/
theorem varlenBytes?_eq (h : t.Leads index c p column)
    (hk : column.type.sameKind requested = true) (hf : column.isFixedSize = false) :
    t.varlenBytes? index requested =
      if c.marked p then some <$> c.varlenBytes p index else .ok none := by
  obtain ⟨start, hshows, hlocate⟩ := h.locateOf_eq hk
  unfold varlenBytes?
  rw [hlocate, Outcome.ok_bind]
  dsimp only
  rw [h.isDefined_eq hshows, Outcome.ok_bind]
  cases hm : c.marked p with
  | false => rfl
  | true =>
      rw [if_pos rfl, if_pos rfl, hshows.varlenBytes_eq h.sound h.column hf hm]
      cases c.varlenBytes p index <;> rfl

theorem number?_eq {kind : NumberKind} (h : t.Leads index c p column)
    (ht : column.type = .number kind) :
    t.number? kind index = .ok (if c.marked p then
      some (BitVec.ofNat _ (LittleEndian.decode (c.field p column))) else none) := by
  have hlen : (c.field p column).length = kind.size := by
    rw [h.sound.length_field h.column, ht]
    rfl
  unfold number?
  rw [h.fixedBytes?_eq (ColumnType.sameKind_of_eq ht) rfl, Outcome.ok_bind]
  cases c.marked p with
  | false => rfl
  | true =>
      rw [if_pos rfl, if_pos rfl]
      dsimp only
      rw [exactly, dif_pos hlen]
      rfl

theorem length_uuid (h : t.Leads index c p column) (ht : column.type = .uuid) :
    (c.field p column).length = 16 := by
  rw [h.sound.length_field h.column, ht]
  rfl

theorem uuid?_eq (h : t.Leads index c p column) (ht : column.type = .uuid) :
    t.uuid? index =
      .ok (if c.marked p then some ⟨c.field p column, h.length_uuid ht⟩ else none) := by
  unfold uuid?
  rw [h.fixedBytes?_eq (ColumnType.sameKind_of_eq ht) rfl, Outcome.ok_bind]
  cases c.marked p with
  | false => rfl
  | true =>
      rw [if_pos rfl, if_pos rfl]
      dsimp only
      rw [exactly, dif_pos (h.length_uuid ht)]
      rfl

theorem bitSet?_eq (h : t.Leads index c p column)
    (hk : column.type.sameKind (.bitmask 0) = true) :
    t.bitSet? index =
      .ok (if c.marked p then some (BitSet.ofBytes (c.field p column)) else none) := by
  unfold bitSet?
  rw [h.fixedBytes?_eq hk rfl, Outcome.ok_bind]
  cases c.marked p <;> rfl

end Leads

theorem Sound.isNull_ensures (h : t.Sound) (index : Nat) :
    (t.isNull index).Ensures (fun _ => True) fun _ => True := by
  rcases (h.locate_ensures index).ends with ⟨⟨_, _, p, column⟩, _, c, hlead⟩ | ⟨e, he, _⟩
  · rw [hlead.isNull_eq]
    exact trivial
  · unfold isNull
    rw [he]
    exact trivial

theorem varlenBytes?_ensures (hl : t.Located index requested cause)
    (hf : requested.isFixedSize = false) (hb : ∀ e, TupleError.OfBytes e → cause e) :
    (t.varlenBytes? index requested).Ensures (fun _ => True) cause := by
  rcases hl.ends with ⟨⟨_, _, p, column⟩, _, c, hlead, hk⟩ | ⟨e, he, hcause⟩
  · have hvarlen : column.isFixedSize = false := (ColumnType.isFixedSize_of_sameKind hk).trans hf
    rw [hlead.varlenBytes?_eq hk hvarlen]
    split
    · rename_i hm
      rw [hlead.sound.varlenBytes_eq hlead.column hvarlen hm]
      split
      · exact hb _ trivial
      · exact trivial
    · exact trivial
  · unfold varlenBytes?
    rw [he]
    exact hcause

/-! ## 3. The getters -/

section Getters

variable (hb : ∀ e, TupleError.OfBytes e → cause e)

/-- A number takes as many bytes as its column has for it. -/
theorem number?_ensures {kind : NumberKind} (hl : t.Located index (.number kind) cause) :
    (t.number? kind index).Ensures (fun _ => True) cause := by
  rcases hl.ends with ⟨⟨_, _, p, column⟩, _, c, hlead, hk⟩ | ⟨e, he, hcause⟩
  · rw [hlead.number?_eq (ColumnType.eq_of_sameKind hk (Or.inr (by simp)))]
    exact trivial
  · unfold number? fixedBytes?
    rw [he]
    exact hcause

theorem number_ensures {kind : NumberKind} (hl : t.Located index (.number kind) cause)
    (hn : cause (.nullValue index)) : (t.number kind index).Ensures (fun _ => True) cause := by
  refine (number?_ensures hl).bind fun found _ => ?_
  cases found with
  | none => exact hn
  | some word => exact trivial

theorem uuid?_ensures (hl : t.Located index .uuid cause) :
    (t.uuid? index).Ensures (fun _ => True) cause := by
  rcases hl.ends with ⟨⟨_, _, p, column⟩, _, c, hlead, hk⟩ | ⟨e, he, hcause⟩
  · rw [hlead.uuid?_eq (ColumnType.eq_of_sameKind hk (Or.inr (by simp)))]
    exact trivial
  · unfold uuid? fixedBytes?
    rw [he]
    exact hcause

theorem bitSet?_ensures (hl : t.Located index (.bitmask 0) cause) :
    (t.bitSet? index).Ensures (fun _ => True) cause := by
  rcases hl.ends with ⟨⟨_, _, p, column⟩, _, c, hlead, hk⟩ | ⟨e, he, hcause⟩
  · rw [hlead.bitSet?_eq hk]
    exact trivial
  · unfold bitSet? fixedBytes?
    rw [he]
    exact hcause

include hb

theorem utf8?_ensures (hl : t.Located index .utf8 cause) :
    (t.utf8? index).Ensures (fun _ => True) cause := by
  refine (varlenBytes?_ensures hl rfl hb).bind fun found _ => ?_
  cases found with
  | none => exact trivial
  | some bytes =>
      dsimp only
      split
      · exact trivial
      · exact hb _ trivial

theorem blob?_ensures (hl : t.Located index .blob cause) :
    (t.blob? index).Ensures (fun _ => True) cause :=
  varlenBytes?_ensures hl rfl hb

/-- **A column is read as a column of a type** without a panic. -/
theorem valueAs_ensures (hl : ∀ requested : ColumnType, type.sameKind requested = true →
    t.Located index requested cause) :
    (t.valueAs type index).Ensures (fun _ => True) cause := by
  cases type with
  | number kind => exact (number?_ensures (hl _ (ColumnType.sameKind_of_eq rfl))).bind fun _ _ => trivial
  | uuid => exact (uuid?_ensures (hl _ (ColumnType.sameKind_of_eq rfl))).bind fun _ _ => trivial
  | bitmask width => exact (bitSet?_ensures (hl (.bitmask 0) rfl)).bind fun _ _ => trivial
  | utf8 => exact (utf8?_ensures hb (hl _ (ColumnType.sameKind_of_eq rfl))).bind fun _ _ => trivial
  | blob => exact (blob?_ensures hb (hl _ (ColumnType.sameKind_of_eq rfl))).bind fun _ _ => trivial

end Getters

/-- **Reading any column never panics**, whatever the index. -/
theorem Sound.value_ensures (h : t.Sound) (index : Nat) :
    (t.value index).Ensures (fun _ => True) fun _ => True := by
  refine (h.locate_ensures index).bind ?_
  rintro ⟨_, _, p, column⟩ _
  exact valueAs_ensures (fun _ _ => trivial) fun requested _ => h.located index requested

/-- A column of the schema is refused for the sake of its bytes only. -/
theorem Leads.value_ensures (h : t.Leads index c p column) :
    (t.value index).Ensures (fun _ => True) TupleError.OfBytes := by
  obtain ⟨_, _, hlocate⟩ := h.locate
  unfold value
  rw [hlocate, Outcome.ok_bind]
  exact valueAs_ensures (fun _ he => he) fun _ hk => h.located hk

end View

end RowCodec
