/-!
# The 64-bit XXH3 hash, without a seed

The content hash of a schema. The algorithm treats inputs by length:

* up to 16 bytes (`hashShort`): a few words of the input, mixed with words of the secret;
* up to 240 bytes (`hashMedium`): 16-byte lanes, each mixed with 16 bytes of the secret;
* longer inputs (`hashLong`): eight accumulators that take the input in stripes of 64 bytes, the
  secret moving on by 8 bytes a stripe, with a scramble after each block of 16 stripes.

All arithmetic is on 64-bit words and wraps.
-/

namespace RowCodec.Xxh3

/-! ## 1. Reading words -/

/-- The byte at a position, zero past the end. -/
def byte (data : ByteArray) (i : Nat) : UInt64 :=
  if h : i < data.size then (data[i]).toUInt64 else 0

/-- The 32-bit little-endian word at a position. -/
def word32 (data : ByteArray) (i : Nat) : UInt64 :=
  byte data i ||| byte data (i + 1) <<< 8 ||| byte data (i + 2) <<< 16 ||| byte data (i + 3) <<< 24

/-- The 64-bit little-endian word at a position. -/
def word64 (data : ByteArray) (i : Nat) : UInt64 :=
  word32 data i ||| word32 data (i + 4) <<< 32

/-- The 192 bytes of secret that unseeded hashing mixes in. -/
def secret : ByteArray := ⟨#[
  0xb8, 0xfe, 0x6c, 0x39, 0x23, 0xa4, 0x4b, 0xbe, 0x7c, 0x01, 0x81, 0x2c, 0xf7, 0x21, 0xad, 0x1c,
  0xde, 0xd4, 0x6d, 0xe9, 0x83, 0x90, 0x97, 0xdb, 0x72, 0x40, 0xa4, 0xa4, 0xb7, 0xb3, 0x67, 0x1f,
  0xcb, 0x79, 0xe6, 0x4e, 0xcc, 0xc0, 0xe5, 0x78, 0x82, 0x5a, 0xd0, 0x7d, 0xcc, 0xff, 0x72, 0x21,
  0xb8, 0x08, 0x46, 0x74, 0xf7, 0x43, 0x24, 0x8e, 0xe0, 0x35, 0x90, 0xe6, 0x81, 0x3a, 0x26, 0x4c,
  0x3c, 0x28, 0x52, 0xbb, 0x91, 0xc3, 0x00, 0xcb, 0x88, 0xd0, 0x65, 0x8b, 0x1b, 0x53, 0x2e, 0xa3,
  0x71, 0x64, 0x48, 0x97, 0xa2, 0x0d, 0xf9, 0x4e, 0x38, 0x19, 0xef, 0x46, 0xa9, 0xde, 0xac, 0xd8,
  0xa8, 0xfa, 0x76, 0x3f, 0xe3, 0x9c, 0x34, 0x3f, 0xf9, 0xdc, 0xbb, 0xc7, 0xc7, 0x0b, 0x4f, 0x1d,
  0x8a, 0x51, 0xe0, 0x4b, 0xcd, 0xb4, 0x59, 0x31, 0xc8, 0x9f, 0x7e, 0xc9, 0xd9, 0x78, 0x73, 0x64,
  0xea, 0xc5, 0xac, 0x83, 0x34, 0xd3, 0xeb, 0xc3, 0xc5, 0x81, 0xa0, 0xff, 0xfa, 0x13, 0x63, 0xeb,
  0x17, 0x0d, 0xdd, 0x51, 0xb7, 0xf0, 0xda, 0x49, 0xd3, 0x16, 0x55, 0x26, 0x29, 0xd4, 0x68, 0x9e,
  0x2b, 0x16, 0xbe, 0x58, 0x7d, 0x47, 0xa1, 0xfc, 0x8f, 0xf8, 0xb8, 0xd1, 0x7a, 0xd0, 0x31, 0xce,
  0x45, 0xcb, 0x3a, 0x8f, 0x95, 0x16, 0x04, 0x28, 0xaf, 0xd7, 0xfb, 0xca, 0xbb, 0x4b, 0x40, 0x7e]⟩

def prime32a : UInt64 := 0x9E3779B1
def prime32b : UInt64 := 0x85EBCA77
def prime32c : UInt64 := 0xC2B2AE3D
def prime64a : UInt64 := 0x9E3779B185EBCA87
def prime64b : UInt64 := 0xC2B2AE3D27D4EB4F
def prime64c : UInt64 := 0x165667B19E3779F9
def prime64d : UInt64 := 0x85EBCA77C2B2AE63
def prime64e : UInt64 := 0x27D4EB2F165667C5

/-! ## 2. Mixing -/

/-- The two halves of a 128-bit product, combined. -/
def foldProduct (a b : UInt64) : UInt64 :=
  let product := a.toNat * b.toNat
  UInt64.ofNat product ^^^ UInt64.ofNat (product >>> 64)

def rotateLeft (x n : UInt64) : UInt64 := x <<< n ||| x >>> (64 - n)

/-- The bytes of a word in reverse order. -/
def swapBytes (x : UInt64) : UInt64 :=
  (List.range 8).foldl
    (fun acc i => acc <<< 8 ||| (x >>> (UInt64.ofNat (8 * i)) &&& 0xff)) 0

/-- The final spreading of short and medium inputs' bits. -/
def avalanche (x : UInt64) : UInt64 :=
  let x := (x ^^^ x >>> 37) * 0x165667919E3779F9
  x ^^^ x >>> 32

/-- The final spreading for inputs of at most three bytes. -/
def avalancheTiny (x : UInt64) : UInt64 :=
  let x := (x ^^^ x >>> 33) * prime64b
  let x := (x ^^^ x >>> 29) * prime64c
  x ^^^ x >>> 32

/-- The final spreading for inputs of four to eight bytes. -/
def spreadWord (x length : UInt64) : UInt64 :=
  let x := x ^^^ rotateLeft x 49 ^^^ rotateLeft x 24
  let x := x * 0x9FB21C651E98DF25
  let x := x ^^^ (x >>> 35 + length)
  let x := x * 0x9FB21C651E98DF25
  x ^^^ x >>> 28

/-- Sixteen bytes of input mixed with sixteen bytes of secret. -/
def mixLane (data : ByteArray) (i s : Nat) : UInt64 :=
  foldProduct (word64 data i ^^^ word64 secret s) (word64 data (i + 8) ^^^ word64 secret (s + 8))

/-! ## 3. By length -/

/-- The hash of at most 16 bytes. -/
def hashShort (data : ByteArray) : UInt64 :=
  let n := data.size
  let length := UInt64.ofNat n
  if n = 0 then
    avalancheTiny (word64 secret 56 ^^^ word64 secret 64)
  else if n ≤ 3 then
    let combined := byte data 0 <<< 16 ||| byte data (n / 2) <<< 24 ||| byte data (n - 1)
      ||| length <<< 8
    avalancheTiny (combined ^^^ (word32 secret 0 ^^^ word32 secret 4))
  else if n ≤ 8 then
    let word := word32 data (n - 4) + word32 data 0 <<< 32
    spreadWord (word ^^^ (word64 secret 8 ^^^ word64 secret 16)) length
  else
    let low := word64 data 0 ^^^ (word64 secret 24 ^^^ word64 secret 32)
    let high := word64 data (n - 8) ^^^ (word64 secret 40 ^^^ word64 secret 48)
    avalanche (length + swapBytes low + high + foldProduct low high)

/-- The hash of 17 to 240 bytes. -/
def hashMedium (data : ByteArray) : UInt64 :=
  let n := data.size
  let start := UInt64.ofNat n * prime64a
  if n ≤ 128 then
    let lanes := (n - 1) / 32 + 1
    avalanche <| (List.range lanes).foldl
      (fun acc i => acc + mixLane data (16 * i) (32 * i) + mixLane data (n - 16 * (i + 1)) (32 * i + 16))
      start
  else
    let first := (List.range 8).foldl (fun acc i => acc + mixLane data (16 * i) (16 * i)) start
    let rest := (List.range (n / 16 - 8)).foldl
      (fun acc i => acc + mixLane data (16 * (i + 8)) (16 * i + 3)) (avalanche first)
    avalanche (rest + mixLane data (n - 16) 119)

/-- The accumulators before the first stripe. -/
def initialLanes : List UInt64 :=
  [prime32c, prime64a, prime64b, prime64c, prime64d, prime32b, prime64e, prime32a]

/-- The accumulators after one stripe: each takes the product of the two halves of its keyed input
    word, and the plain input word of its neighbour. -/
def stripe (data : ByteArray) (lanes : List UInt64) (i s : Nat) : List UInt64 :=
  lanes.mapIdx fun (lane : Nat) (acc : UInt64) =>
    let keyed := word64 data (i + 8 * lane) ^^^ word64 secret (s + 8 * lane)
    let neighbour := word64 data (i + 8 * (lane ^^^ 1))
    let low : UInt64 := keyed &&& 0xffffffff
    acc + neighbour + low * (keyed >>> 32)

/-- The accumulators after the end of a block. -/
def scramble (lanes : List UInt64) : List UInt64 :=
  lanes.mapIdx fun (lane : Nat) (acc : UInt64) =>
    let keyed : UInt64 := acc ^^^ acc >>> 47 ^^^ word64 secret (128 + 8 * lane)
    keyed * prime32a

/-- The accumulators after `count` stripes from a position on. -/
def stripes (data : ByteArray) (lanes : List UInt64) (start count : Nat) : List UInt64 :=
  (List.range count).foldl (fun acc k => stripe data acc (start + 64 * k) (8 * k)) lanes

/-- The hash of more than 240 bytes. -/
def hashLong (data : ByteArray) : UInt64 :=
  let n := data.size
  let blocks := (n - 1) / 1024
  let lanes := (List.range blocks).foldl
    (fun acc b => scramble (stripes data acc (1024 * b) 16)) initialLanes
  let lanes := stripes data lanes (1024 * blocks) ((n - 1 - 1024 * blocks) / 64)
  let lanes := stripe data lanes (n - 64) 121
  let pair (k : Nat) := foldProduct
    (lanes[2 * k]?.getD 0 ^^^ word64 secret (11 + 16 * k))
    (lanes[2 * k + 1]?.getD 0 ^^^ word64 secret (19 + 16 * k))
  avalanche ((List.range 4).foldl (fun acc k => acc + pair k) (UInt64.ofNat n * prime64a))

/-- The 64-bit hash of a byte list. -/
def hash (bytes : List UInt8) : UInt64 :=
  let data : ByteArray := ⟨bytes.toArray⟩
  if data.size ≤ 16 then hashShort data
  else if data.size ≤ 240 then hashMedium data
  else hashLong data

end RowCodec.Xxh3
