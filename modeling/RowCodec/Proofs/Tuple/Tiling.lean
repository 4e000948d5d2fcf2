import RowCodec.Proofs.Bytes.Splice
import RowCodec.Proofs.Tuple.Getters
import RowCodec.Proofs.Tuple.Grammar

/-!
# The texts and byte strings of a chunk

Each text or byte string is read alone, between its own table entry and the next. The bytes are anybody's,
and no check compares two columns.

* `ChunkBytes.texts` -- the positions of the non-null columns of variable length, in column order. The `k`-th
  uses table entry `k` (`slot_of_texts`), and there are as many as entries (`length_texts`).
* `ChunkBytes.ranges` -- from each table entry to the next.
* `View.Side` -- one of the two chunks, with the index of its first column and where it starts.
* `range_of_varlenBytes` -- what is read of one column lies in the data of the chunk.
* `View.payloads_tile` -- **if all of them can be read they tile the chunk's data**, from the first entry to
  the end of the chunk: two columns never share a byte, and no byte between them is left out.
-/

namespace RowCodec

namespace ChunkBytes

variable {c : ChunkBytes} {p k : Nat} {column : Column}

/-! ## 1. Slots -/

/-- The positions of the non-null columns of variable length, in column order. -/
def texts (c : ChunkBytes) : List Nat :=
  (List.range c.columns.length).filter fun p =>
    (c.columns.columns[p]?).any (fun column => !column.isFixedSize) && c.marked p

theorem mem_texts : p ∈ c.texts ↔
    ∃ column, c.columns.columns[p]? = some column ∧ column.isFixedSize = false ∧ c.marked p = true := by
  unfold texts
  rw [List.mem_filter, List.mem_range, Bool.and_eq_true, Option.any_eq_true]
  constructor
  · rintro ⟨_, ⟨column, hc, hf⟩, hm⟩
    exact ⟨column, hc, by simpa using hf, hm⟩
  · rintro ⟨column, hc, hf, hm⟩
    exact ⟨(List.getElem?_eq_some_iff.mp hc).1, ⟨column, hc, by rw [hf]; rfl⟩, hm⟩

namespace Sound

/-- The columns of variable length stand from one position on. -/
theorem isVarlen_eq (h : c.Sound) (hp : p < c.columns.length) :
    (c.columns.columns[p]?).any (fun column => !column.isFixedSize) =
      decide (c.columns.fixedCount ≤ p) := by
  obtain ⟨column, hc⟩ := Columns.exists_column hp
  have hfixed := h.laidOut.isFixedSize_iff hc
  rw [hc, Option.any_some]
  cases hf : column.isFixedSize with
  | true => exact (decide_eq_false (Nat.not_le.mpr (hfixed.mp hf))).symm
  | false =>
      rw [hf] at hfixed
      exact (decide_eq_true (Nat.not_lt.mp fun hlt => Bool.false_ne_true (hfixed.mpr hlt))).symm

/-- They are the marked ones among the positions that the reader counts over. -/
theorem texts_eq (h : c.Sound) :
    c.texts = (c.columns.varlenBefore c.columns.length).filter c.marked := by
  have hle := h.laidOut.fixedCount_le
  have hsplit : List.range c.columns.length = List.range' 0 c.columns.fixedCount ++
      List.range' c.columns.fixedCount (c.columns.length - c.columns.fixedCount) := by
    have hjoin := List.range'_append_1 (s := 0) (m := c.columns.fixedCount)
      (n := c.columns.length - c.columns.fixedCount)
    rw [Nat.zero_add, Nat.add_sub_cancel' hle] at hjoin
    rw [hjoin, List.range_eq_range']
  have hfixed : ∀ p ∈ List.range' 0 c.columns.fixedCount,
      ¬ ((c.columns.columns[p]?).any (fun column => !column.isFixedSize) && c.marked p) = true := by
    intro p hp
    have hlt := (List.mem_range'_1.mp hp).2
    rw [h.isVarlen_eq (by omega), decide_eq_false (by omega), Bool.false_and]
    exact Bool.false_ne_true
  unfold texts
  rw [hsplit, List.filter_append, List.filter_eq_nil_iff.mpr hfixed, List.nil_append,
    Columns.varlenBefore_eq h.laidOut hle (Nat.le_refl _)]
  refine List.filter_congr fun p hp => ?_
  obtain ⟨hfirst, hlt⟩ := List.mem_range'_1.mp hp
  rw [h.isVarlen_eq (by omega), decide_eq_true hfirst, Bool.true_and]

/-- There is a table entry for each of them, and no other. -/
theorem length_texts (h : c.Sound) : c.texts.length = c.entries := by
  rw [h.entries_eq, h.texts_eq]
  exact List.countP_eq_length_filter.symm

/-- **The `k`-th non-null one uses slot `k`.** -/
theorem slot_of_texts (h : c.Sound) (hk : c.texts[k]? = some p) : c.slot p = k := by
  obtain ⟨column, hc, hf, hm⟩ := mem_texts.mp (List.mem_of_getElem? hk)
  have hp : p < c.columns.length := (List.getElem?_eq_some_iff.mp hc).1
  have hnodup : c.texts.Nodup := List.nodup_range.filter _
  -- The marked positions before the column's are as many as its slot says, and it comes next.
  have hat : c.texts[c.slot p]? = some p := by
    obtain ⟨rest, hrest⟩ :=
      Columns.varlenBefore_length h.laidOut (h.laidOut.fixedCount_le_of_varlen hc hf) hp
    have hslot : c.slot p = ((c.columns.varlenBefore p).filter c.marked).length :=
      List.countP_eq_length_filter
    rw [h.texts_eq, hrest, List.filter_append, List.filter_cons_of_pos hm, hslot]
    rw [List.getElem?_append_right (Nat.le_refl _), Nat.sub_self, List.getElem?_cons_zero]
  have hlt : c.slot p < c.texts.length := (List.getElem?_eq_some_iff.mp hat).1
  exact (List.getElem?_inj hlt hnodup).mp (hat.trans hk.symm)

end Sound

/-- From each table entry to the next, and from the last one to the end of the chunk. -/
def ranges (c : ChunkBytes) : List (Nat × Nat) :=
  (List.range c.entries).map fun k => (c.bound k, c.bound (k + 1))

theorem getElem?_ranges (hk : k < c.entries) : c.ranges[k]? = some (c.bound k, c.bound (k + 1)) := by
  unfold ranges
  rw [List.getElem?_map, List.getElem?_range hk]
  rfl

end ChunkBytes

namespace View

variable {t : View} {chunk : ChunkView} {columns : Columns} {c : ChunkBytes} {first offset index p : Nat}
  {column : Column} {requested : ColumnType} {payload : List UInt8}

/-! ## 2. One text or byte string -/

/-- **What is read lies in the chunk's data**: behind the fixed section and before the chunk's end. -/
theorem range_of_varlenBytes (h : t.varlenBytes chunk columns p index = .ok payload) :
    ∃ start stop, t.varlenRange chunk columns p = .ok (start, stop) ∧
      chunk.fixed - chunk.start + columns.fixedSize ≤ start ∧ start ≤ stop ∧ stop ≤ chunk.length ∧
      payload = segment t.bytes (chunk.start + start) (chunk.start + stop) := by
  unfold varlenBytes at h
  obtain ⟨⟨start, stop⟩, hrange, h⟩ := Outcome.bind_ok h
  obtain ⟨static, hstatic, h⟩ := Outcome.bind_ok h
  unfold checkedSub at hstatic
  split at hstatic
  · cases hstatic
    dsimp only at h
    split at h
    · cases h
    · rename_i hinside
      exact ⟨start, stop, hrange, by omega, by omega, by omega, (of_slice_eq_ok h).symm⟩
  · cases hstatic

/-- A column whose bytes are read is of the kind that is asked for, and not null. -/
theorem of_varlenBytes? (h : t.locate index = .ok (chunk, columns, p, column))
    (hr : t.varlenBytes? index requested = .ok (some payload)) :
    column.type.sameKind requested = true ∧ t.isDefined chunk p = .ok true ∧
      t.varlenBytes chunk columns p index = .ok payload := by
  obtain ⟨located, hof, hr⟩ := Outcome.bind_ok hr
  unfold locateOf at hof
  rw [h, Outcome.ok_bind] at hof
  dsimp only at hof
  split at hof
  · rename_i hk
    cases hof
    obtain ⟨defined, hdefined, hr⟩ := Outcome.bind_ok hr
    cases defined with
    | false => cases hr
    | true =>
        obtain ⟨bytes, hbytes, hr⟩ := Outcome.bind_ok hr
        cases hr
        exact ⟨hk, hdefined, hbytes⟩
  · cases hof

/-! ## 3. All of a chunk's -/

/-- **A side of a tuple**: its chunk, the index of its first column, and where the chunk starts. -/
inductive Side (t : View) : ChunkBytes → Nat → Nat → Prop
  | key : Side t t.keyChunk 0 Fingerprint.size
  | value : Side t t.valueChunk t.schema.key.length (Fingerprint.size + t.keyChunk.bytes.length)

namespace Side

variable (h : t.Side c first offset)

include h

theorem sound (hs : t.Sound) : c.Sound := by
  cases h with
  | key => exact hs.key
  | value => exact hs.value

theorem shows (hs : t.Sound) : t.Shows offset c := by
  cases h with
  | key => exact hs.shows_key
  | value => exact hs.shows_value

/-- The columns of a side are read at the positions of its chunk. -/
theorem locate (hs : t.Sound) (hc : c.columns.columns[p]? = some column) :
    t.locate (first + p) = .ok (c.viewAt offset, c.columns, p, column) := by
  cases h with
  | key =>
      rw [Nat.zero_add]
      exact hs.locate_key hc
  | value => exact hs.locate_value hc

theorem leads (hs : t.Sound) (hc : c.columns.columns[p]? = some column) :
    t.Leads (first + p) c p column :=
  ⟨⟨offset, h.shows hs, h.locate hs hc⟩, h.sound hs, hc⟩

section Reading

variable (hs : t.Sound) {payload : Nat → List UInt8}
  (hreads : ∀ p ∈ c.texts, ∃ requested,
    t.varlenBytes? (first + p) requested = .ok (some (payload p)))

include hs hreads

/-- The `k`-th text or byte string that is read lies between table entries `k` and `k + 1`. -/
theorem read_eq {k : Nat} (hk : c.texts[k]? = some p) :
    k < c.entries ∧ t.varlenRange (c.viewAt offset) c.columns p = .ok (c.bound k, c.bound (k + 1)) ∧
      c.data ≤ c.bound k ∧ c.bound k ≤ c.bound (k + 1) ∧ c.bound (k + 1) ≤ c.bytes.length ∧
      payload p = c.text k := by
  have hc := h.sound hs
  have hshows := h.shows hs
  have hp := List.mem_of_getElem? hk
  obtain ⟨column, hcolumn, hf, hm⟩ := ChunkBytes.mem_texts.mp hp
  obtain ⟨requested, hr⟩ := hreads p hp
  obtain ⟨_, _, hread⟩ := of_varlenBytes? (h.locate hs hcolumn) hr
  obtain ⟨start, stop, hrange, hdata, hle, hstop, hpayload⟩ := range_of_varlenBytes hread
  have hslot := (hshows.varlenRange_eq hc hcolumn hf hm).trans (hc.varlenRange_eq hcolumn hf hm)
  rw [hc.slot_of_texts hk] at hslot
  cases hslot.symm.trans hrange
  rw [ChunkBytes.fixed_viewAt, ChunkBytes.start_viewAt, Nat.add_sub_cancel_left] at hdata
  refine ⟨hc.length_texts ▸ (List.getElem?_eq_some_iff.mp hk).1, hslot, hdata, hle, hstop, ?_⟩
  exact hpayload.trans (hshows.segment_eq _ hstop)

/-- **The ranges tile the chunk**: that each one does not end before it starts is all that was checked, and
    an end is the next one's start. -/
theorem tiles : Tiles (c.bound 0) c.bytes.length c.ranges := by
  have hc := h.sound hs
  rw [← c.bound_entries]
  refine .of_bounds fun k hk => ?_
  rw [← hc.length_texts] at hk
  obtain ⟨_, _, _, hle, _⟩ := h.read_eq hs hreads (List.getElem?_eq_getElem hk)
  exact hle

/-- What is read is the bytes of the ranges, in column order. -/
theorem payloads_eq : c.texts.map payload = c.ranges.map fun r => segment c.bytes r.1 r.2 := by
  apply List.ext_getElem?
  intro k
  rw [List.getElem?_map, List.getElem?_map]
  cases hk : c.texts[k]? with
  | none =>
      have hlen : c.ranges.length ≤ k := by
        unfold ChunkBytes.ranges
        rw [List.length_map, List.length_range, ← (h.sound hs).length_texts]
        exact List.getElem?_eq_none_iff.mp hk
      rw [List.getElem?_eq_none_iff.mpr hlen]
      rfl
  | some p =>
      obtain ⟨hlt, _, _, _, _, htext⟩ := h.read_eq hs hreads hk
      rw [ChunkBytes.getElem?_ranges hlt, Option.map_some, htext]
      rfl

end Reading

end Side

/-- **The texts and byte strings of a chunk tile its data.** Whatever the bytes, each that is read lies in its
    own chunk's data. If all of a side can be read, the `k`-th one's range starts at table entry `k`, the
    ranges follow each other without a gap or an overlap to the chunk's end, and together they are all bytes
    of the chunk from the first entry on. -/
theorem payloads_tile {version : UInt32} {key value : List Column} {s : Schema} {bytes : List UInt8}
    (hdef : Schema.define version key value = .ok s) (ht : View.new s bytes = .ok t)
    (hside : t.Side c first offset) :
    (∀ p < c.columns.length, ∀ requested payload,
      t.varlenBytes? (first + p) requested = .ok (some payload) →
      ∃ start stop, t.varlenRange (c.viewAt offset) c.columns p = .ok (start, stop) ∧
        c.data ≤ start ∧ start ≤ stop ∧ stop ≤ c.bytes.length ∧
        payload = segment bytes (offset + start) (offset + stop)) ∧
    (∀ p, p ∈ c.texts ↔ ∃ column, c.columns.columns[p]? = some column ∧ column.isFixedSize = false ∧
      t.isNull (first + p) = .ok false) ∧
    ∀ payload : Nat → List UInt8, (∀ p ∈ c.texts, ∃ requested,
        t.varlenBytes? (first + p) requested = .ok (some (payload p))) →
      ∃ start ranges, Tiles start c.bytes.length ranges ∧
        ranges.Pairwise (fun r r' => r.2 ≤ r'.1) ∧
        (∀ k p, c.texts[k]? = some p → ∃ r, ranges[k]? = some r ∧
          t.varlenRange (c.viewAt offset) c.columns p = .ok r ∧
          t.entry (c.viewAt offset) k = .ok r.1 ∧ c.data ≤ r.1 ∧
          payload p = segment bytes (offset + r.1) (offset + r.2)) ∧
        (c.texts.map payload).flatten = c.bytes.drop start := by
  have hs := Schema.sound_of_define hdef
  have hsound := (sound_of_new hs ht).1
  have hshows := hside.shows hsound
  obtain rfl := bytes_of_new hs ht
  refine ⟨?single, ?members, ?all⟩
  case single =>
    intro p hp requested payload hread
    obtain ⟨column, hcolumn⟩ := Columns.exists_column hp
    obtain ⟨_, _, hread⟩ := of_varlenBytes? (hside.locate hsound hcolumn) hread
    obtain ⟨start, stop, hrange, hdata, hle, hstop, rfl⟩ := range_of_varlenBytes hread
    rw [ChunkBytes.fixed_viewAt, ChunkBytes.start_viewAt, Nat.add_sub_cancel_left] at hdata
    exact ⟨start, stop, hrange, hdata, hle, hstop, rfl⟩
  case members =>
    intro p
    rw [ChunkBytes.mem_texts]
    refine exists_congr fun column => and_congr_right fun hcolumn => and_congr_right fun _ => ?_
    rw [(hside.leads hsound hcolumn).isNull_eq]
    cases c.marked p <;> simp
  case all =>
    intro payload hreads
    have hc := hside.sound hsound
    have htiles := hside.tiles hsound hreads
    refine ⟨_, _, htiles, htiles.pairwise, fun k p hk => ?_, ?_⟩
    · obtain ⟨hlt, hrange, hdata, _, hstop, htext⟩ := hside.read_eq hsound hreads hk
      have hentry := (hshows.entry_eq hc hlt).trans (hc.entry_eq hlt)
      refine ⟨_, ChunkBytes.getElem?_ranges hlt, hrange, hentry, hdata, ?_⟩
      rw [hshows.segment_eq _ hstop, htext]
      rfl
    · rw [hside.payloads_eq hsound hreads, htiles.flatten, segment_to_end]

/-- A name, a nickname and a picture, each of which may be missing. -/
def cardSchema : Schema :=
  let key := Columns.ofList [⟨"id", .number .int4, false⟩]
  let value := Columns.ofList [⟨"name", .utf8, true⟩, ⟨"nickname", .utf8, true⟩, ⟨"picture", .blob, true⟩]
  { version := 1, fingerprint := Fingerprint.ofColumns key value, key, value }

/-- A card without a nickname, and a byte between the table and the name that belongs to nothing. -/
def cardChunk : List UInt8 := [17, 0, 0, 0, 0b101, 14, 0, 0, 0, 16, 0, 0, 0, 7, 97, 98, 1]

theorem payloads_tile_card : ∃ t,
    Schema.define 1 [⟨"id", .number .int4, false⟩]
      [⟨"name", .utf8, true⟩, ⟨"nickname", .utf8, true⟩, ⟨"picture", .blob, true⟩] = .ok cardSchema ∧
    View.new cardSchema (cardSchema.fingerprint.toBytes ++ strayChunk ++ cardChunk) = .ok t ∧
    t.valueChunk.texts = [0, 2] ∧ t.varlenBytes? 1 .utf8 = .ok (some [97, 98]) ∧
    t.varlenBytes? 3 .blob = .ok (some [1]) ∧
    ∃ start ranges, Tiles start 17 ranges ∧ ranges.Pairwise (fun r r' => r.2 ≤ r'.1) ∧
      [97, 98] ++ [1] = cardChunk.drop start := by
  have hdef : Schema.define 1 [⟨"id", .number .int4, false⟩]
      [⟨"name", .utf8, true⟩, ⟨"nickname", .utf8, true⟩, ⟨"picture", .blob, true⟩] =
      .ok cardSchema := rfl
  have hsplit : cardSchema.Splits (cardSchema.fingerprint.toBytes ++ strayChunk ++ cardChunk)
      strayChunk cardChunk := ⟨rfl, by decide, by decide⟩
  have ht := hsplit.new_eq (Schema.sound_of_define hdef)
  obtain ⟨start, ranges, htiles, hpairs, _, hflat⟩ := (payloads_tile hdef ht .value).2.2
    (fun p => if p = 0 then [97, 98] else [1]) (by
      intro p hp
      have hp : p ∈ [0, 2] := hp
      simp only [List.mem_cons, List.not_mem_nil, or_false] at hp
      rcases hp with rfl | rfl
      · exact ⟨.utf8, rfl⟩
      · exact ⟨.blob, rfl⟩)
  exact ⟨_, hdef, ht, rfl, rfl, rfl, start, ranges, htiles, hpairs, hflat⟩

end View

end RowCodec
