import RowCodec.Bytes.Slice

/-!
# Segments of a byte list

The reader's parts of a chunk are segments between two positions, and neighbouring segments join
(`segment_append`): bytes are the same as other bytes when they are so segment by segment.

* `segment_segment`, `segment_middle`, `segment_part`, `segment_eq_part` -- segments of segments, and of bytes
  with others around them.
* `Tiles` -- ranges that lie one behind the other without a gap. No two of them overlap (`pairwise`), no
  position is left out (`covers`), and the segments together are the segment from the first range's start to
  the last one's stop (`flatten`).
-/

namespace RowCodec

/-- The bytes from `start` up to `stop`. -/
def segment (bytes : List UInt8) (start stop : Nat) : List UInt8 :=
  (bytes.drop start).take (stop - start)

variable {bytes : List UInt8} {start middle stop : Nat}

theorem slice_eq_segment {ε : Type} (h : start ≤ stop) (h' : stop ≤ bytes.length) :
    slice (ε := ε) bytes start stop = .ok (segment bytes start stop) :=
  slice_eq_ok h h'

theorem length_segment (h : stop ≤ bytes.length) : (segment bytes start stop).length = stop - start := by
  unfold segment
  rw [List.length_take, List.length_drop]
  omega

theorem segment_zero_length (bytes : List UInt8) : segment bytes 0 bytes.length = bytes := by
  unfold segment
  rw [List.drop_zero, Nat.sub_zero, List.take_length]

theorem segment_self (bytes : List UInt8) (start : Nat) : segment bytes start start = [] := by
  unfold segment
  rw [Nat.sub_self, List.take_zero]

/-- **Neighbouring segments join** without a gap. -/
theorem segment_append (h : start ≤ middle) (h' : middle ≤ stop) :
    segment bytes start middle ++ segment bytes middle stop = segment bytes start stop := by
  have hsplit : stop - start = (middle - start) + (stop - middle) := by omega
  unfold segment
  rw [hsplit, List.take_add, List.drop_drop, Nat.add_sub_cancel' h]

theorem getElem?_segment (bytes : List UInt8) (start stop i : Nat) :
    (segment bytes start stop)[i]? = if i < stop - start then bytes[start + i]? else none := by
  unfold segment
  rw [List.getElem?_take, List.getElem?_drop]

/-- A segment of a segment. -/
theorem segment_segment {a b : Nat} (h : start + b ≤ stop) :
    segment (segment bytes start stop) a b = segment bytes (start + a) (start + b) := by
  apply List.ext_getElem?
  intro i
  simp only [getElem?_segment]
  by_cases hi : i < b - a
  · rw [if_pos hi, if_pos (by omega), if_pos (by omega), Nat.add_assoc]
  · rw [if_neg hi, if_neg (by omega)]

/-- A segment inside a part of the bytes is a segment of that part. -/
theorem segment_middle (before after : List UInt8) {middle : List UInt8} (a : Nat) {b : Nat}
    (h : b ≤ middle.length) :
    segment (before ++ middle ++ after) (before.length + a) (before.length + b) =
      segment middle a b := by
  apply List.ext_getElem?
  intro i
  simp only [getElem?_segment]
  by_cases hi : i < b - a
  · rw [if_pos (by omega), if_pos hi, List.getElem?_append_left (by rw [List.length_append]; omega),
      List.getElem?_append_right (by omega)]
    congr 1
    omega
  · rw [if_neg (by omega), if_neg hi]

/-- A part of the bytes, from its start to its end. -/
theorem segment_part (before middle after : List UInt8) :
    segment (before ++ middle ++ after) before.length (before.length + middle.length) = middle :=
  (segment_middle before after 0 (Nat.le_refl _)).trans (segment_zero_length middle)

/-- A part of the bytes, where the length of what stands before it is known. -/
theorem segment_eq_part {before part after : List UInt8} (h : bytes = before ++ part ++ after)
    (hstart : before.length = start) (hstop : start + part.length = stop) :
    segment bytes start stop = part := by
  subst h hstart hstop
  exact segment_part before part after

/-- The bytes from a position on. -/
theorem segment_to_end (bytes : List UInt8) (start : Nat) :
    segment bytes start bytes.length = bytes.drop start := by
  unfold segment
  rw [← List.length_drop, List.take_length]

/-! ## Ranges one behind the other -/

/-- **The ranges tile the positions** from `start` to `stop`: each ends where the next one starts. -/
inductive Tiles : Nat → Nat → List (Nat × Nat) → Prop
  | nil (stop : Nat) : Tiles stop stop []
  | cons {start middle stop : Nat} {ranges : List (Nat × Nat)} (h : start ≤ middle)
      (hrest : Tiles middle stop ranges) : Tiles start stop ((start, middle) :: ranges)

namespace Tiles

variable {ranges : List (Nat × Nat)}

theorem le (h : Tiles start stop ranges) : start ≤ stop := by
  induction h with
  | nil => exact Nat.le_refl _
  | cons hle _ ih => exact Nat.le_trans hle ih

theorem snoc (h : Tiles start middle ranges) (hle : middle ≤ stop) :
    Tiles start stop (ranges ++ [(middle, stop)]) := by
  induction h with
  | nil => exact cons hle (nil stop)
  | cons hfirst _ ih => exact cons hfirst (ih hle)

/-- The ranges between bounds that do not decrease. -/
theorem of_bounds {bound : Nat → Nat} : ∀ {n : Nat}, (∀ k < n, bound k ≤ bound (k + 1)) →
    Tiles (bound 0) (bound n) ((List.range n).map fun k => (bound k, bound (k + 1)))
  | 0, _ => nil _
  | n + 1, h => by
      have ih := of_bounds fun k hk => h k (Nat.lt_succ_of_lt hk)
      rw [List.range_succ, List.map_append, List.map_singleton]
      exact ih.snoc (h n (Nat.lt_succ_self n))

/-- No range starts before the first. -/
theorem start_le (h : Tiles start stop ranges) : ∀ r ∈ ranges, start ≤ r.1 := by
  induction h with
  | nil => exact fun r hr => absurd hr List.not_mem_nil
  | cons hle _ ih =>
      intro r hr
      rcases List.mem_cons.mp hr with rfl | hr
      · exact Nat.le_refl _
      · exact Nat.le_trans hle (ih r hr)

/-- **No two ranges overlap**: a later one starts at or behind the stop of an earlier one. -/
theorem pairwise (h : Tiles start stop ranges) : ranges.Pairwise fun r r' => r.2 ≤ r'.1 := by
  induction h with
  | nil => exact List.Pairwise.nil
  | cons _ hrest ih => exact List.Pairwise.cons hrest.start_le ih

/-- **Nothing is left out**: the positions from the first start to the last stop are those in a range. -/
theorem covers (h : Tiles start stop ranges) (x : Nat) :
    start ≤ x ∧ x < stop ↔ ∃ r ∈ ranges, r.1 ≤ x ∧ x < r.2 := by
  induction h with
  | nil stop =>
      refine ⟨fun hx => absurd (Nat.lt_of_le_of_lt hx.1 hx.2) (Nat.lt_irrefl _), ?_⟩
      rintro ⟨r, hr, _⟩
      exact absurd hr List.not_mem_nil
  | @cons start middle stop ranges hle hrest ih =>
      simp only [List.mem_cons, exists_eq_or_imp]
      rw [← ih]
      have hstop := hrest.le
      omega

/-- **The segments together** are the one from the first start to the last stop. -/
theorem flatten (h : Tiles start stop ranges) (bytes : List UInt8) :
    (ranges.map fun r => segment bytes r.1 r.2).flatten = segment bytes start stop := by
  induction h with
  | nil stop => exact (segment_self bytes stop).symm
  | cons hle hrest ih =>
      rw [List.map_cons, List.flatten_cons, ih]
      exact segment_append hle hrest.le

end Tiles

end RowCodec
