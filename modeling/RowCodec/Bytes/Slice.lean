import RowCodec.Fault

/-!
# Ranges of a byte list

Reading and writing at computed positions, with the bounds as the caller's duty.

* `slice bytes start stop` is the range from `start` up to `stop`; a range that leaves the list
  panics.
* `overwrite bytes offset new` replaces the bytes from `offset` on by `new`, without changing the
  length as long as `new` fits.
* `getElem?_overwrite` is the frame rule: a byte outside the written range stays.
-/

namespace RowCodec

/-- The bytes from `start` up to `stop`. -/
def slice {ε : Type} (bytes : List UInt8) (start stop : Nat) : Outcome ε (List UInt8) :=
  if start ≤ stop ∧ stop ≤ bytes.length then .ok ((bytes.drop start).take (stop - start))
  else Outcome.abort .outOfBounds

/-- The byte at a position. -/
def byteAt {ε : Type} (bytes : List UInt8) (index : Nat) : Outcome ε UInt8 :=
  match bytes[index]? with
  | some b => .ok b
  | none => Outcome.abort .outOfBounds

/-- The list with the bytes from `offset` on replaced by `new`. -/
def overwrite (bytes : List UInt8) (offset : Nat) (new : List UInt8) : List UInt8 :=
  bytes.take offset ++ new ++ bytes.drop (offset + new.length)

theorem slice_eq_ok {ε : Type} {bytes : List UInt8} {start stop : Nat}
    (h : start ≤ stop) (h' : stop ≤ bytes.length) :
    slice (ε := ε) bytes start stop = .ok ((bytes.drop start).take (stop - start)) :=
  if_pos ⟨h, h'⟩

theorem length_overwrite {bytes new : List UInt8} {offset : Nat}
    (h : offset + new.length ≤ bytes.length) :
    (overwrite bytes offset new).length = bytes.length := by
  simp only [overwrite, List.length_append, List.length_take, List.length_drop]
  omega

/-- **The frame of a write**: bytes before and after the written range stay, those inside are the
    new ones. -/
theorem getElem?_overwrite {bytes new : List UInt8} {offset : Nat}
    (h : offset + new.length ≤ bytes.length) (i : Nat) :
    (overwrite bytes offset new)[i]? =
      if offset ≤ i ∧ i < offset + new.length then new[i - offset]? else bytes[i]? := by
  have ht : (bytes.take offset).length = offset := by rw [List.length_take]; omega
  unfold overwrite
  rw [List.append_assoc]
  by_cases h1 : i < offset
  · rw [List.getElem?_append_left (by omega), if_neg (by omega), List.getElem?_take_of_lt h1]
  · rw [List.getElem?_append_right (by omega), ht]
    by_cases h2 : i < offset + new.length
    · rw [List.getElem?_append_left (by omega), if_pos (by omega)]
    · rw [List.getElem?_append_right (by omega), if_neg (by omega), List.getElem?_drop]
      congr 1
      omega

end RowCodec
