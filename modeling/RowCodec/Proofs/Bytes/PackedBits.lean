import RowCodec.BitSet
import Mathlib.Data.Nat.Bitwise

/-!
# Bits packed into bytes

* `hasBit` determines a byte (`eq_of_hasBit`), and adding the bit of an index adds that bit and no
  other (`hasBit_or_bitOf`).
* `packBits` writes a list of bits as bytes, least significant bit first: bit `i % 8` of byte
  `i / 8` is the `i`th, and the bits past the last one are 0 (`hasBit_packBits`).
* `packBits_set` -- setting one bit of the list is adding one bit to one byte.
-/

namespace RowCodec

/-! ## 1. The bits of a byte -/

theorem eq_of_hasBit {a b : UInt8} (h : ∀ i < 8, hasBit a i = hasBit b i) : a = b := by
  apply UInt8.toNat_inj.1
  apply Nat.eq_of_testBit_eq
  intro i
  by_cases hi : i < 8
  · have := h i hi
    unfold hasBit at this
    rwa [Nat.mod_eq_of_lt hi] at this
  · have hlt : ∀ c : UInt8, c.toNat < 2 ^ i := fun c =>
      Nat.lt_of_lt_of_le c.toNat_lt (Nat.pow_le_pow_right (by omega) (by omega))
    rw [Nat.testBit_lt_two_pow (hlt a), Nat.testBit_lt_two_pow (hlt b)]

theorem toNat_bitOf (i : Nat) : (bitOf i).toNat = 2 ^ (i % 8) := by
  have h : 2 ^ (i % 8) < 2 ^ 8 := Nat.pow_lt_pow_right (by omega) (by omega)
  unfold bitOf
  rw [Nat.one_shiftLeft, UInt8.toNat_ofNat', Nat.mod_eq_of_lt h]

theorem hasBit_or_bitOf (b : UInt8) (i j : Nat) :
    hasBit (b ||| bitOf i) j = (hasBit b j || decide (i % 8 = j % 8)) := by
  unfold hasBit
  rw [UInt8.toNat_or, toNat_bitOf, Nat.testBit_or, Nat.testBit_two_pow]

/-! ## 2. Bits as bytes -/

/-- The byte of eight bits, the least significant first. -/
def byteOfBits (bits : Nat → Bool) : UInt8 :=
  UInt8.ofNat (Nat.ofBits fun i : Fin 8 => bits i)

/-- A list of bits as bytes; the bits past the last are 0. -/
def packBits (bits : List Bool) : List UInt8 :=
  (List.range ((bits.length + 7) / 8)).map fun byte =>
    byteOfBits fun i => bits[8 * byte + i]?.getD false

theorem hasBit_byteOfBits (bits : Nat → Bool) (i : Nat) :
    hasBit (byteOfBits bits) i = bits (i % 8) := by
  have h : Nat.ofBits (fun i : Fin 8 => bits i) < 2 ^ 8 := Nat.ofBits_lt_two_pow _
  unfold hasBit byteOfBits
  rw [UInt8.toNat_ofNat', Nat.mod_eq_of_lt h, Nat.testBit_ofBits_lt _ _ (Nat.mod_lt i (by omega))]

@[simp] theorem length_packBits (bits : List Bool) :
    (packBits bits).length = (bits.length + 7) / 8 := by
  unfold packBits
  rw [List.length_map, List.length_range]

theorem getElem?_packBits (bits : List Bool) {byte : Nat} (h : byte < (bits.length + 7) / 8) :
    (packBits bits)[byte]? = some (byteOfBits fun i => bits[8 * byte + i]?.getD false) := by
  unfold packBits
  rw [List.getElem?_map, List.getElem?_range h, Option.map_some]

/-- **What the bytes say**: every bit of every byte is the list's, and 0 past the list's end. -/
theorem hasBit_packBits {bits : List Bool} {i : Nat} {b : UInt8}
    (h : (packBits bits)[i / 8]? = some b) : hasBit b i = bits[i]?.getD false := by
  have hlt : i / 8 < (bits.length + 7) / 8 := by
    have := (List.getElem?_eq_some_iff.mp h).1
    rwa [length_packBits] at this
  rw [getElem?_packBits bits hlt] at h
  cases h
  rw [hasBit_byteOfBits, Nat.div_add_mod]

theorem packBits_replicate_false (n : Nat) :
    packBits (List.replicate n false) = List.replicate ((n + 7) / 8) 0 := by
  have hzero : byteOfBits (fun _ => false) = 0 := by
    apply eq_of_hasBit
    intro i _
    rw [hasBit_byteOfBits]
    unfold hasBit
    rw [UInt8.toNat_zero, Nat.zero_testBit]
  have hbit : ∀ i : Nat, (List.replicate n false)[i]?.getD false = false := by
    intro i
    rw [List.getElem?_replicate]
    split <;> rfl
  unfold packBits
  simp only [hbit, hzero, List.length_replicate]
  rw [List.map_const', List.length_range]

/-- **Setting one bit** of the list adds the bit to its byte and changes no other byte. -/
theorem packBits_set {bits : List Bool} {i : Nat} (hi : i < bits.length) :
    packBits (bits.set i true) = (packBits bits).modify (i / 8) (· ||| bitOf i) := by
  apply List.ext_getElem?
  intro byte
  rw [List.getElem?_modify]
  by_cases hb : byte < (bits.length + 7) / 8
  · rw [getElem?_packBits _ (by rwa [List.length_set]), getElem?_packBits _ hb]
    show some _ = some (if i / 8 = byte then _ else _)
    congr 1
    apply eq_of_hasBit
    intro k hk
    by_cases hbyte : i / 8 = byte
    · rw [if_pos hbyte, hasBit_or_bitOf, hasBit_byteOfBits, hasBit_byteOfBits,
        Nat.mod_eq_of_lt hk, List.getElem?_set]
      by_cases hik : i = 8 * byte + k
      · have hm : i % 8 = k := by omega
        rw [if_pos hik, if_pos hi, decide_eq_true hm, Bool.or_true]
        rfl
      · have hm : ¬ i % 8 = k := by omega
        rw [if_neg hik, decide_eq_false hm, Bool.or_false]
    · rw [if_neg hbyte, hasBit_byteOfBits, hasBit_byteOfBits, Nat.mod_eq_of_lt hk,
        List.getElem?_set_ne (by omega)]
  · rw [List.getElem?_eq_none (by rw [length_packBits, List.length_set]; omega),
      List.getElem?_eq_none (by rw [length_packBits]; omega)]
    rfl

end RowCodec
