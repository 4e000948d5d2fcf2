/-!
# Sets of bits

A growable set of indices, kept as bytes with the least significant bit first: index `i` is bit
`i % 8` of byte `i / 8`.

* The bytes never end in a zero byte (`BitSet.trimmed`), so two sets that hold the same indices are
  the same value, however they were built.
* `ofBytes` drops trailing zero bytes, `insert` and `erase` change one index, `contains` asks for
  one; `length` is the highest index plus one.
* Given bytes and removals are trimmed (`getLast?_trim`). An added index is not: it grows the bytes to
  its own, which is not zero (`getLast?_orByte`).
-/

namespace RowCodec

/-! ## 1. Byte lists -/

/-- The bytes without the zero bytes at the end. -/
def trim : List UInt8 → List UInt8
  | [] => []
  | b :: rest =>
    match trim rest with
    | [] => if b = 0 then [] else [b]
    | c :: more => b :: c :: more

theorem getLast?_trim : ∀ bytes : List UInt8, (trim bytes).getLast? ≠ some 0
  | [] => by simp [trim]
  | b :: rest => by
      have ih := getLast?_trim rest
      unfold trim
      split
      · split
        · simp
        · rename_i hb; simpa using hb
      · rename_i c more h
        rw [h] at ih
        simpa [List.getLast?_cons_cons] using ih

/-- A byte with only the bit of an index set. -/
def bitOf (index : Nat) : UInt8 := UInt8.ofNat (1 <<< (index % 8))

/-- Whether the bit of an index is set in a byte. -/
def hasBit (byte : UInt8) (index : Nat) : Bool := byte.toNat.testBit (index % 8)

/-- The bytes with `mask` added to the byte at a position, grown with zero bytes to reach it. -/
def orByte (mask : UInt8) : Nat → List UInt8 → List UInt8
  | 0, [] => [mask]
  | 0, b :: rest => (b ||| mask) :: rest
  | n + 1, [] => 0 :: orByte mask n []
  | n + 1, b :: rest => b :: orByte mask n rest

theorem bitOf_ne_zero (index : Nat) : bitOf index ≠ 0 := by
  have hbits : ∀ k < 8, UInt8.ofNat (1 <<< k) ≠ 0 := by decide
  exact hbits _ (Nat.mod_lt index (by decide))

theorem orByte_ne_nil (mask : UInt8) : ∀ (n : Nat) (bytes : List UInt8), orByte mask n bytes ≠ []
  | 0, [] => List.cons_ne_nil _ _
  | 0, _ :: _ => List.cons_ne_nil _ _
  | _ + 1, [] => List.cons_ne_nil _ _
  | _ + 1, _ :: _ => List.cons_ne_nil _ _

/-- Growing to reach a byte leaves a set bit at the end. -/
theorem getLast?_orByte {mask : UInt8} (hmask : mask ≠ 0) : ∀ {n : Nat} {bytes : List UInt8},
    bytes.getLast? ≠ some 0 → (orByte mask n bytes).getLast? ≠ some 0
  | 0, [], _ => fun h => hmask (Option.some.inj h)
  | 0, [b], _ => fun h => hmask (UInt8.or_eq_zero_iff.mp (Option.some.inj h)).2
  | 0, b :: c :: rest, h => h
  | n + 1, [], h => by
      have ih := getLast?_orByte hmask (n := n) h
      rwa [orByte, List.getLast?_cons_of_ne_nil (orByte_ne_nil mask n [])]
  | n + 1, b :: rest, h => by
      have hrest : rest.getLast? ≠ some 0 := by
        cases rest with
        | nil => exact fun h => by cases h
        | cons c more => rwa [List.getLast?_cons_cons] at h
      have ih := getLast?_orByte hmask (n := n) hrest
      rwa [orByte, List.getLast?_cons_of_ne_nil (orByte_ne_nil mask n rest)]

/-! ## 2. The set -/

/-- A set of bit indices. -/
structure BitSet where
  /-- The set as bytes, least significant bit first. -/
  bytes : List UInt8
  /-- No zero byte at the end. -/
  trimmed : bytes.getLast? ≠ some 0
deriving DecidableEq

namespace BitSet

/-- The set without an index. -/
def empty : BitSet := ⟨[], by simp⟩

instance : Inhabited BitSet := ⟨empty⟩

/-- The set whose indices are the bits of the given bytes. -/
def ofBytes (bytes : List UInt8) : BitSet := ⟨trim bytes, getLast?_trim bytes⟩

/-- Whether the set holds an index. -/
def contains (s : BitSet) (index : Nat) : Bool :=
  match s.bytes[index / 8]? with
  | some b => hasBit b index
  | none => false

/-- The set with an index added. -/
def insert (s : BitSet) (index : Nat) : BitSet :=
  ⟨orByte (bitOf index) (index / 8) s.bytes, getLast?_orByte (bitOf_ne_zero index) s.trimmed⟩

/-- The set with an index removed. An index behind the last byte is not there to be removed. -/
def erase (s : BitSet) (index : Nat) : BitSet :=
  if index / 8 < s.bytes.length then
    ofBytes (s.bytes.modify (index / 8) (· &&& ~~~(bitOf index)))
  else s

/-- The set of the given indices. -/
def ofList (indices : List Nat) : BitSet := indices.foldl insert empty

/-- The highest index plus one, zero for the empty set. -/
def length (s : BitSet) : Nat :=
  match s.bytes.getLast? with
  | some b => (s.bytes.length - 1) * 8 + (Nat.log2 b.toNat + 1)
  | none => 0

/-- Whether the set holds no index. -/
def isEmpty (s : BitSet) : Bool := s.bytes.isEmpty

/-- The number of bits set in a byte. -/
def bitCount (byte : UInt8) : Nat := (List.range 8).countP (hasBit byte)

/-- The number of indices in the set. -/
def cardinality (s : BitSet) : Nat := s.bytes.foldr (fun byte n => bitCount byte + n) 0

/-- The indices of the bits set in a list of bytes whose first byte starts at index `start`. -/
def onesFrom : Nat → List UInt8 → List Nat
  | _, [] => []
  | start, b :: rest => ((List.range 8).filter (hasBit b)).map (start + ·) ++ onesFrom (start + 8) rest

/-- The indices of the set, lowest first. -/
def toList (s : BitSet) : List Nat := onesFrom 0 s.bytes

/-- The set's indices in braces, as they are shown to a developer. -/
def text (s : BitSet) : String :=
  "\x7b" ++ ", ".intercalate (s.toList.map toString) ++ "\x7d"

end BitSet

end RowCodec
