import RowCodec.Bytes.LittleEndian
import Mathlib.Algebra.Group.Nat.Hom

/-!
# Words as bytes and back

`decode_encode` says that writing a number in `width` bytes and reading it back loses nothing below
`256 ^ width`, `encode_decode` that the bytes come back as well: `encode` and `decode` are inverse to
each other on each width.
-/

namespace RowCodec.LittleEndian

theorem decode_encode : ∀ (width n : Nat), decode (encode width n) = n % 256 ^ width
  | 0, n => by simp [encode, decode, Nat.mod_one]
  | width + 1, n => by
      rw [encode, decode, decode_encode width, Nat.pow_succ, Nat.mul_comm (256 ^ width), Nat.mod_mul]
      simp

theorem decode_encode_of_lt {width n : Nat} (h : n < 256 ^ width) :
    decode (encode width n) = n := by
  rw [decode_encode, Nat.mod_eq_of_lt h]

theorem decode_lt : ∀ bytes : List UInt8, decode bytes < 256 ^ bytes.length
  | [] => by simp [decode]
  | b :: rest => by
      have hb : b.toNat < 256 := b.toNat_lt
      have ih := decode_lt rest
      rw [decode, List.length_cons, Nat.pow_succ]
      omega

theorem encode_decode : ∀ bytes : List UInt8, encode bytes.length (decode bytes) = bytes
  | [] => rfl
  | b :: rest => by
      have hb : b.toNat < 256 := b.toNat_lt
      rw [List.length_cons, encode, decode]
      congr 1
      · apply UInt8.toNat_inj.1
        rw [UInt8.toNat_ofNat']
        omega
      · rw [show (b.toNat + 256 * decode rest) / 256 = decode rest by omega, encode_decode rest]

theorem encode_injective {width m n : Nat} (hm : m < 256 ^ width) (hn : n < 256 ^ width)
    (h : encode width m = encode width n) : m = n := by
  have := congrArg decode h
  rwa [decode_encode_of_lt hm, decode_encode_of_lt hn] at this

end RowCodec.LittleEndian
