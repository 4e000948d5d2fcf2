import RowCodec.Proofs.Tuple.Counted

/-!
# Builders made to measure

A builder with the size and the counts of the row that it is given. Nothing about capacities and
counts can go wrong: what is left is whether the columns take the values.

* `Column.Refuses` -- why a column does not take a value of its kind.
* `Builder.MadeFor` -- the builder was made for a row and has taken its first values.
* `MadeFor.append_admitted`, `MadeFor.append_refused` -- the next value is added if its column admits
  it, and refused for the column's own reason if not.
* `MadeFor.appendAll_take` -- appending goes on as long as columns admit their values, and
  `MadeFor.stops` at the first that does not; `MadeFor.build_eq` -- the finished row is its encoding.
-/

namespace RowCodec

/-! ## 1. Refusals -/

/-- Why the column at an index does not take a value of its kind. -/
inductive Column.Refuses (c : Column) (index : Nat) : Value → TupleError → Prop
  | null (h : c.nullable = false) : Refuses c index .undefined (.nullNotAllowed index)
  | tooLong {bits : BitSet} {width : UInt32} (ht : c.type = .bitmask width)
      (h : width.toNat < bits.length) :
      Refuses c index (.bitSet bits) (.bitmaskTooLong index bits.length width)

/-- What a column asks of a value of its kind: to be null only where nulls are allowed, and to be no bit
    set longer than the mask. -/
structure Column.Takes (c : Column) (v : Value) : Prop where
  null : v = .undefined → c.nullable = true
  bits : ∀ (bits : BitSet) (width : UInt32), v = .bitSet bits → c.type = .bitmask width →
    bits.length ≤ width.toNat

namespace Column

variable {c : Column} {index : Nat} {v : Value} {e : TupleError}

theorem admits_undefined (c : Column) : c.admits .undefined = c.nullable := by
  unfold admits
  rw [Value.isUndefined, Bool.not_true, Bool.or_false]
  exact Bool.true_and _

theorem admits_bitSet {bits : BitSet} {width : UInt32} (ht : c.type = .bitmask width) :
    c.admits (.bitSet bits) = decide (bits.length ≤ width.toNat) := by
  simp [admits, stores, ht, Value.isUndefined]

theorem Refuses.not_admits (h : c.Refuses index v e) : c.admits v = false := by
  cases h with
  | null hn => rw [admits_undefined, hn]
  | tooLong ht hlt => rw [admits_bitSet ht, decide_eq_false (Nat.not_le.mpr hlt)]

theorem Refuses.code_mem (h : c.Refuses index v e) : e.code ∈ ["TUPLE_004", "TUPLE_009"] := by
  cases h with
  | null hn => exact List.mem_cons_self
  | tooLong ht hlt => exact List.mem_cons_of_mem _ List.mem_cons_self

theorem exists_bitmask {bits : BitSet} (h : c.suits (.bitSet bits) = true) :
    ∃ width, c.type = .bitmask width := by
  rcases ColumnType.sameKind_iff.mp h with ht | ⟨width, _, ht, _⟩
  · exact ⟨_, ht⟩
  · exact ⟨width, ht⟩

/-- Of the values of its kind, a column's type can only keep out a bit set. -/
theorem stores_of_suits (h : c.suits v = true) (hb : ∀ bits, v ≠ .bitSet bits) :
    c.stores v = true := by
  cases v with
  | undefined => rfl
  | bitSet bits => exact absurd rfl (hb bits)
  | number kind word => exact decide_eq_true (ColumnType.eq_of_sameKind h (Or.inr (by simp)))
  | uuid id => exact decide_eq_true (ColumnType.eq_of_sameKind h (Or.inr (by simp)))
  | utf8 text => exact decide_eq_true (ColumnType.eq_of_sameKind h (Or.inr (by simp)))
  | blob bytes => exact decide_eq_true (ColumnType.eq_of_sameKind h (Or.inr (by simp)))

/-- **A value of the column's kind is admitted, or refused** for one of two reasons. -/
theorem admits_or_refuses (h : c.suits v = true) (index : Nat) :
    c.admits v = true ∨ ∃ e, c.Refuses index v e := by
  cases v with
  | undefined =>
      cases hn : c.nullable with
      | true => exact Or.inl ((admits_undefined c).trans hn)
      | false => exact Or.inr ⟨_, .null hn⟩
  | bitSet bits =>
      obtain ⟨width, ht⟩ := exists_bitmask h
      rcases Nat.lt_or_ge width.toNat bits.length with hlt | hle
      · exact Or.inr ⟨_, .tooLong ht hlt⟩
      · exact Or.inl ((admits_bitSet ht).trans (decide_eq_true hle))
  | _ => exact Or.inl (admits_of_stores (stores_of_suits h (by simp)) rfl)

theorem takes_iff (h : c.suits v = true) : c.Takes v ↔ c.admits v = true := by
  constructor
  · intro ht
    rcases admits_or_refuses h 0 with ha | ⟨e, he⟩
    · exact ha
    · cases he with
      | null hn => cases hn.symm.trans (ht.null rfl)
      | tooLong htype hlt => exact absurd (ht.bits _ _ rfl htype) (Nat.not_le.mpr hlt)
  · intro ha
    refine ⟨fun hv => ?_, fun bits width hv htype => ?_⟩
    · rw [hv, admits_undefined] at ha
      exact ha
    · rw [hv, admits_bitSet htype] at ha
      exact of_decide_eq_true ha

end Column

/-- The append of a value that its column refuses. -/
theorem Builder.append_of_refuses {b : Builder} {g : Columns} {p : Nat} {c : Column} {v : Value}
    {e : TupleError} (hl : b.schema.locate b.index = .ok (g, p, c)) (h : c.Refuses b.index v e) :
    b.append v = ⟨b, Outcome.refuse e⟩ := by
  cases h with
  | null hn => simp [append, appendNull, column_of_locate hl, hn]
  | tooLong ht hlt =>
      rw [append_bitSet hl, ht]
      exact if_pos hlt

/-! ## 2. Rows -/

namespace Schema

variable {s : Schema} {row : List Value} {p : Nat}

/-- Each value of a row is of its column's kind. -/
def Suits (s : Schema) (row : List Value) : Prop :=
  ∀ (i : Nat) (c : Column) (v : Value), s.column? i = some c → row[i]? = some v → c.suits v = true

theorem Suits.append {ks vs : List Value} (hk : RowCodec.Suits s.key.columns ks)
    (hv : RowCodec.Suits s.value.columns vs) (hl : ks.length = s.key.length) :
    s.Suits (ks ++ vs) := by
  intro i c v hc hrow
  rcases column?_cases hc with ⟨hi, hd⟩ | ⟨p, rfl, hd⟩
  · rw [List.getElem?_append_left (hl ▸ hi)] at hrow
    exact hk i c v hd hrow
  · rw [← hl, List.getElem?_append_right (Nat.le_add_right _ _), Nat.add_sub_cancel_left] at hrow
    exact hv p c v hd hrow

/-- **Each column below an index takes its value, or a first one refuses it.** -/
theorem takesBelow_or_refuses (hs : s.Suits row) (hl : row.length = s.length) : ∀ n ≤ s.length,
    s.TakesBelow row n ∨ ∃ i c v e, i < n ∧ s.column? i = some c ∧ row[i]? = some v ∧
      s.TakesBelow row i ∧ c.Refuses i v e
  | 0, _ => Or.inl fun i c v hi => absurd hi (Nat.not_lt_zero i)
  | n + 1, hn => by
      rcases takesBelow_or_refuses hs hl n (Nat.le_of_succ_le hn) with ht | ⟨i, c, v, e, hi, hr⟩
      · have hv := List.getElem?_eq_getElem (hl ▸ hn : n < row.length)
        obtain ⟨c, hc⟩ := exists_column hn
        rcases Column.admits_or_refuses (hs n c _ hc hv) n with ha | ⟨e, he⟩
        · refine Or.inl fun i d w hi hd hw => ?_
          rcases Nat.lt_succ_iff_lt_or_eq.mp hi with hlt | rfl
          · exact ht i d w hlt hd hw
          · rw [hc] at hd
            rw [hv] at hw
            cases hd
            cases hw
            exact ha
        · exact Or.inr ⟨n, c, _, e, Nat.lt_succ_self n, hc, hv, ht, he⟩
      · exact Or.inr ⟨i, c, v, e, Nat.lt_succ_of_lt hi, hr⟩

end Schema

/-! ## 3. Builders for a row -/

namespace Builder

variable {b : Builder} {s : Schema} {row vs : List Value} {v : Value} {c : Column} {e : TupleError}

/-- The builder was made for the row, with its size and counts, and has taken its first values. -/
structure MadeFor (s : Schema) (row : List Value) (b : Builder) (vs : List Value) : Prop where
  wrote : Wrote s (payloads (row.take s.key.length)).length
    (payloads (row.drop s.key.length)).length b vs
  room : b.buffer.length = s.rowBytes row
  begins : vs <+: row

namespace MadeFor

/-- The row's counts and exactly its size. -/
theorem counted (h : MadeFor s row b vs) : Counted s row (s.rowBytes row) b vs :=
  ⟨h.wrote, h.room, h.begins⟩

theorem of_counted (h : Counted s row (s.rowBytes row) b vs) : MadeFor s row b vs :=
  ⟨h.wrote, h.room, h.begins⟩

/-- A builder of the row's size and counts can be made. -/
theorem of_new (hs : s.Sound) (hb : s.Bounded row) :
    ∃ b, Builder.new s (s.rowBytes row) (payloads (row.take s.key.length)).length
        (payloads (row.drop s.key.length)).length = .ok b ∧ MadeFor s row b [] := by
  rcases Counted.of_new hs hb hb.rowBytes_le_max with ⟨b, hnew, h⟩ | ⟨required, _, hlt, hle⟩
  · exact ⟨b, hnew, of_counted h⟩
  · exact absurd hle (Nat.not_le.mpr hlt)

/-- **The next value is added** if its column admits it. -/
theorem append_admitted (hs : s.Sound) (hb : s.Bounded row) (h : MadeFor s row b vs)
    (hv : row[vs.length]? = some v) (hc : s.column? vs.length = some c) (ha : c.admits v = true) :
    ∃ b', b.append v = ⟨b', .ok ()⟩ ∧ MadeFor s row b' (vs ++ [v]) := by
  obtain ⟨b', happ, h'⟩ := (h.counted.append hs hb hv hc ha).goes_of_le (Nat.le_refl _)
  exact ⟨b', happ, of_counted h'⟩

/-- **The next value is refused** for its column's reason. -/
theorem append_refused (h : MadeFor s row b vs) (hc : s.column? vs.length = some c)
    (hr : c.Refuses vs.length v e) : b.append v = ⟨b, Outcome.refuse e⟩ := by
  obtain ⟨g, p, hloc⟩ := Schema.locate_of_column hc
  rw [← h.wrote.index_eq] at hloc hr
  rw [← h.wrote.schema_eq] at hloc
  exact append_of_refuses hloc hr

/-- **Appending goes on** as long as columns take their values. -/
theorem appendAll_take (hs : s.Sound) (hb : s.Bounded row) (h : MadeFor s row b []) {n : Nat}
    (hn : n ≤ row.length) (ht : s.TakesBelow row n) :
    ∃ b', b.appendAll (row.take n) = ⟨b', .ok ()⟩ ∧ MadeFor s row b' (row.take n) := by
  obtain ⟨b', happ, h'⟩ := (h.counted.appendAll_take hs hb hn ht).goes_of_le (Nat.le_refl _)
  exact ⟨b', happ, of_counted h'⟩

/-- **Appending stops** at the first column that refuses its value. -/
theorem stops (hs : s.Sound) (hb : s.Bounded row) (h : MadeFor s row b []) {i : Nat}
    (hc : s.column? i = some c) (hv : row[i]? = some v) (ht : s.TakesBelow row i)
    (hr : c.Refuses i v e) :
    ∃ b', b.appendAll (row.take i) = ⟨b', .ok ()⟩ ∧ b'.append v = ⟨b', Outcome.refuse e⟩ := by
  have hi := (List.getElem?_eq_some_iff.mp hv).1
  have hlen : (row.take i).length = i := by
    rw [List.length_take]
    omega
  obtain ⟨b', happ, h'⟩ := h.appendAll_take hs hb (Nat.le_of_lt hi) ht
  exact ⟨b', happ, h'.append_refused (by rwa [hlen]) (by rwa [hlen])⟩

/-- **The finished row is its encoding.** -/
theorem build_eq (hs : s.Sound) (hb : s.Bounded row) (h : MadeFor s row b row) :
    b.build = .ok ⟨s.encode row⟩ :=
  (h.counted.build_eq hs hb).trans (if_pos rfl)

/-- **A row is written exactly when its columns take its values**, and then it is its encoding. -/
theorem appendAll_iff (hs : s.Sound) (hb : s.Bounded row) (h : MadeFor s row b []) :
    ((b.appendAll row).outcome = .ok () ↔ s.TakesBelow row s.length) ∧
    ((b.appendAll row).outcome = .ok () → s.Fits row ∧
      (b.appendAll row).builder.build = .ok ⟨s.encode row⟩) := by
  have hgo : s.TakesBelow row s.length → ∃ b', b.appendAll row = ⟨b', .ok ()⟩ ∧
      MadeFor s row b' row := by
    intro ht
    rw [← hb.length_eq] at ht
    have hall := h.appendAll_take hs hb (Nat.le_refl _) ht
    rwa [List.take_length] at hall
  have hfits : (b.appendAll row).outcome = .ok () → s.Fits row := by
    intro hok
    obtain ⟨_, _, hf, _⟩ := (h.wrote.appendAll hs hok).finished hb.length_eq
    exact hf
  refine ⟨⟨fun hok => (hfits hok).takesBelow _, fun ht => ?_⟩, fun hok => ⟨hfits hok, ?_⟩⟩
  · obtain ⟨b', happ, _⟩ := hgo ht
    rw [happ]
  · obtain ⟨b', happ, h'⟩ := hgo ((hfits hok).takesBelow _)
    rw [happ]
    exact h'.build_eq hs hb

end MadeFor

end Builder

end RowCodec
