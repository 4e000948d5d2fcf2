import RowCodec.Bytes.Slice

/-!
# Reading and writing in the middle of a byte list

A buffer is looked at as `front ++ middle ++ back`. A write and a change of one byte that stay inside
the middle part leave the other two alone, whatever they hold.

* `overwrite_append` -- a write over the whole middle part replaces it.
* `modify_append` -- a change of one byte of the middle part changes that part.
* `overwrite_append_right`, `modify_append_right` -- the same behind a front part, as far as the bytes
  reach.
* `of_slice_eq_ok` -- a read that is answered gives the bytes between its two positions.
-/

namespace RowCodec

variable {front middle back : List UInt8}

theorem overwrite_append (front back new : List UInt8) {offset : Nat} (ho : offset = front.length)
    (hn : new.length = middle.length) :
    overwrite (front ++ middle ++ back) offset new = front ++ new ++ back := by
  subst ho
  unfold overwrite
  have ht : (front ++ middle ++ back).take front.length = front := by
    rw [List.append_assoc, List.take_left]
  have hd : (front ++ middle ++ back).drop (front.length + new.length) = back := by
    rw [hn, ← List.length_append, List.drop_left]
  rw [ht, hd]

theorem modify_append_left (f : UInt8 → UInt8) : ∀ (middle : List UInt8) (j : Nat),
    j < middle.length → (middle ++ back).modify j f = middle.modify j f ++ back
  | [], _, h => absurd h (Nat.not_lt_zero _)
  | _ :: _, 0, _ => rfl
  | b :: rest, j + 1, h => by
      have ih := modify_append_left f rest j (Nat.lt_of_succ_lt_succ h)
      simp only [List.cons_append, List.modify_succ_cons, ih]

theorem overwrite_append_right (front body new : List UInt8) (j : Nat) :
    overwrite (front ++ body) (front.length + j) new = front ++ overwrite body j new := by
  unfold overwrite
  rw [List.take_length_add_append, Nat.add_assoc, List.drop_length_add_append, List.append_assoc,
    List.append_assoc, List.append_assoc]

theorem modify_append_right (front body : List UInt8) (f : UInt8 → UInt8) (j : Nat) :
    (front ++ body).modify (front.length + j) f = front ++ body.modify j f := by
  induction front with
  | nil => rw [List.length_nil, Nat.zero_add, List.nil_append, List.nil_append]
  | cons b rest ih =>
      rw [List.length_cons, Nat.add_right_comm, List.cons_append, List.modify_succ_cons, ih,
        List.cons_append]

theorem modify_append (front back : List UInt8) {f : UInt8 → UInt8} {i j : Nat}
    (hi : i = front.length + j) (hj : j < middle.length) :
    (front ++ middle ++ back).modify i f = front ++ middle.modify j f ++ back := by
  subst hi
  rw [List.append_assoc, modify_append_right, modify_append_left f middle j hj, List.append_assoc]

theorem of_slice_eq_ok {ε : Type} {bytes part : List UInt8} {start stop : Nat}
    (h : slice (ε := ε) bytes start stop = .ok part) :
    (bytes.drop start).take (stop - start) = part := by
  unfold slice at h
  split at h
  · cases h
    rfl
  · cases h

end RowCodec
