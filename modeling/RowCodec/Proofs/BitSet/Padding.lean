import RowCodec.BitSet

/-!
# Bit sets behind zero padding

A bit mask column stores a bit set's bytes and zero bytes up to the column's width.

* `ofBytes_append_zeros` -- the padding is dropped when the bytes are read back.
* `exists_padding` -- what reading bytes drops is zero bytes.
* `length_bytes_le` -- a set that fits a width takes no more bytes than the width.
-/

namespace RowCodec

theorem trim_replicate_zero : ∀ n : Nat, trim (List.replicate n 0) = []
  | 0 => rfl
  | n + 1 => by rw [List.replicate_succ, trim, trim_replicate_zero n, if_pos rfl]

theorem trim_append_zeros (n : Nat) : ∀ bytes : List UInt8,
    trim (bytes ++ List.replicate n 0) = trim bytes
  | [] => trim_replicate_zero n
  | b :: rest => by rw [List.cons_append, trim, trim_append_zeros n rest, trim]

theorem trim_eq_self : ∀ {bytes : List UInt8}, bytes.getLast? ≠ some 0 → trim bytes = bytes
  | [], _ => rfl
  | [b], h => by
      have hb : b ≠ 0 := fun e => h (by rw [e]; rfl)
      rw [trim, trim, if_neg hb]
  | b :: c :: rest, h => by
      have hl : (c :: rest).getLast? ≠ some 0 := by rwa [List.getLast?_cons_cons] at h
      have ih := trim_eq_self hl
      rw [trim, ih]

/-- Dropping trailing zero bytes drops nothing else. -/
theorem exists_padding : ∀ bytes : List UInt8, ∃ n, bytes = trim bytes ++ List.replicate n 0
  | [] => ⟨0, rfl⟩
  | b :: rest => by
      obtain ⟨n, hn⟩ := exists_padding rest
      unfold trim
      split
      · rename_i hnil
        rw [hnil, List.nil_append] at hn
        split
        · rename_i hb
          refine ⟨n + 1, ?_⟩
          rw [hb, List.nil_append, List.replicate_succ, ← hn]
        · exact ⟨n, by rw [List.singleton_append, ← hn]⟩
      · rename_i c more hcons
        rw [hcons] at hn
        exact ⟨n, by rw [List.cons_append, ← hn]⟩

namespace BitSet

/-- **Padding with zero bytes is lost** when a set's bytes are read back. -/
theorem ofBytes_append_zeros (s : BitSet) (n : Nat) :
    ofBytes (s.bytes ++ List.replicate n 0) = s := by
  have h : trim (s.bytes ++ List.replicate n 0) = s.bytes := by
    rw [trim_append_zeros, trim_eq_self s.trimmed]
  cases s
  unfold ofBytes
  congr

theorem length_bytes_le {s : BitSet} {width : Nat} (h : s.length ≤ width) :
    s.bytes.length ≤ (width + 7) / 8 := by
  unfold length at h
  split at h
  · omega
  · rename_i hnone
    rw [List.getLast?_eq_none_iff] at hnone
    rw [hnone]
    exact Nat.zero_le _

end BitSet

end RowCodec
