import RowCodec.Proofs.BitSet.Padding
import RowCodec.Proofs.Bytes.PackedBits
import Mathlib.Data.Nat.Bitwise

/-!
# The indices of a bit set

* `bitAt` -- the bits of a byte list, which determine it (`eq_of_bitAt`).
* `length_le_iff` -- the length is the least number above every index: the last byte is not zero, so
  its highest bit is an index.
-/

namespace RowCodec

/-- Whether the bit of an index is set in a list of bytes; past its end no bit is. -/
def bitAt (bytes : List UInt8) (index : Nat) : Bool := bytes[index / 8]?.any fun b => hasBit b index

theorem hasBit_zero (index : Nat) : hasBit 0 index = false := by
  unfold hasBit
  rw [UInt8.toNat_zero, Nat.zero_testBit]

theorem hasBit_add (b : UInt8) (byte index : Nat) : hasBit b (8 * byte + index) = hasBit b index := by
  unfold hasBit
  rw [Nat.mul_add_mod]

/-- Byte lists of one length with the same bits are the same. -/
theorem eq_of_bitAt {a b : List UInt8} (hl : a.length = b.length)
    (h : ∀ index < 8 * a.length, bitAt a index = bitAt b index) : a = b := by
  refine List.ext_getElem hl fun byte ha hb => eq_of_hasBit fun i hi => ?_
  have hbit := h (8 * byte + i) (by omega)
  have hdiv : (8 * byte + i) / 8 = byte := by omega
  unfold bitAt at hbit
  rw [hdiv, List.getElem?_eq_getElem ha, List.getElem?_eq_getElem hb, Option.any_some,
    Option.any_some, hasBit_add, hasBit_add] at hbit
  exact hbit

/-- Zero bytes at the end hold no bit. -/
theorem bitAt_append_zeros (bytes : List UInt8) (n index : Nat) :
    bitAt (bytes ++ List.replicate n 0) index = bitAt bytes index := by
  unfold bitAt
  by_cases h : index / 8 < bytes.length
  · rw [List.getElem?_append_left h]
  · rw [List.getElem?_append_right (Nat.not_lt.mp h), List.getElem?_eq_none (Nat.not_lt.mp h),
      List.getElem?_replicate]
    split
    · exact hasBit_zero index
    · rfl

namespace BitSet

variable {s : BitSet} {index n : Nat}

theorem contains_eq (s : BitSet) (index : Nat) : s.contains index = bitAt s.bytes index := by
  unfold contains bitAt
  cases s.bytes[index / 8]? <;> rfl

/-- The last byte of a set that is not empty, and the set's length. -/
theorem length_eq_of_pos (h : 0 < s.length) :
    ∃ b, s.bytes[s.bytes.length - 1]? = some b ∧ b.toNat ≠ 0 ∧ 0 < s.bytes.length ∧
      s.length = 8 * (s.bytes.length - 1) + b.toNat.log2 + 1 := by
  unfold length at h ⊢
  have htrimmed := s.trimmed
  rw [List.getLast?_eq_getElem?] at h htrimmed ⊢
  cases hb : s.bytes[s.bytes.length - 1]? with
  | none =>
      rw [hb] at h
      exact absurd h (Nat.lt_irrefl 0)
  | some b =>
      have hlt := (List.getElem?_eq_some_iff.mp hb).1
      refine ⟨b, rfl, fun hz => ?_, by omega, by simp only; omega⟩
      rw [hb] at htrimmed
      exact htrimmed (congrArg some (UInt8.toNat_inj.1 hz))

theorem log2_lt_eight {b : UInt8} (h : b.toNat ≠ 0) : b.toNat.log2 < 8 :=
  (Nat.log2_lt h).mpr b.toNat_lt

/-- The highest index of a set that is not empty. -/
theorem contains_length_sub_one (h : 0 < s.length) : s.contains (s.length - 1) = true := by
  obtain ⟨b, hb, hne, _, hlen⟩ := length_eq_of_pos h
  have hlog := log2_lt_eight hne
  have hdiv : (s.length - 1) / 8 = s.bytes.length - 1 := by omega
  have hmod : (s.length - 1) % 8 = b.toNat.log2 := by omega
  rw [contains_eq]
  unfold bitAt hasBit
  rw [hdiv, hb, Option.any_some, hmod]
  exact Nat.testBit_log2 hne

/-- No index is past the length. -/
theorem lt_length_of_contains (h : s.contains index = true) : index < s.length := by
  rw [contains_eq] at h
  unfold bitAt at h
  obtain ⟨b, hb, hbit⟩ := (Option.any_eq_true _ _).mp h
  have hlt := (List.getElem?_eq_some_iff.mp hb).1
  have hpos : 0 < s.length := by
    unfold length
    rw [List.getLast?_eq_getElem?, List.getElem?_eq_getElem (by omega)]
    exact Nat.succ_pos _
  obtain ⟨highest, hhighest, hne, _, hlen⟩ := length_eq_of_pos hpos
  by_cases hend : index / 8 = s.bytes.length - 1
  · -- A bit of the last byte is no higher than its highest bit.
    rw [hend, hhighest] at hb
    cases hb
    have hle : index % 8 ≤ b.toNat.log2 :=
      (Nat.le_log2 hne).mpr (Nat.ge_two_pow_of_testBit hbit)
    omega
  · omega

/-- **The length is the least bound of the indices.** -/
theorem length_le_iff : s.length ≤ n ↔ ∀ index, s.contains index = true → index < n := by
  constructor
  · intro h index hi
    exact Nat.lt_of_lt_of_le (lt_length_of_contains hi) h
  · intro h
    apply Nat.not_lt.mp
    intro hlt
    have hlast := h _ (contains_length_sub_one (Nat.zero_lt_of_lt hlt))
    omega

end BitSet

end RowCodec
