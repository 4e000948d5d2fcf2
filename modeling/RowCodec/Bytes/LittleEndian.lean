/-!
# Little-endian bytes of a natural number

Every fixed-width field of an encoded row -- numbers, chunk lengths, table entries, the
fingerprint -- is written through this one pair of functions.

* `encode width n` is exactly `width` bytes, least significant first; what does not fit is dropped.
* `decode` reads any byte list back as a number.
* On each width the two are inverse to each other, for the numbers that fit in it.
-/

namespace RowCodec.LittleEndian

/-- The `width` bytes of `n`, least significant first. -/
def encode : Nat → Nat → List UInt8
  | 0, _ => []
  | width + 1, n => UInt8.ofNat n :: encode width (n / 256)

/-- The number whose bytes, least significant first, are given. -/
def decode : List UInt8 → Nat
  | [] => 0
  | b :: rest => b.toNat + 256 * decode rest

@[simp] theorem length_encode : ∀ (width n : Nat), (encode width n).length = width
  | 0, _ => rfl
  | width + 1, n => by simp [encode, length_encode width]

end RowCodec.LittleEndian
