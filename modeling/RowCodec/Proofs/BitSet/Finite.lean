import RowCodec.Proofs.BitSet.Indices
import Mathlib.Data.Finset.Max

/-!
# A bit set is a finite set of indices

* `bitAt_orByte`, `bitAt_andNot`, `bitAt_trim` -- what the changes of a byte list do to its bits.
* `contains_insert`, `contains_erase`, `contains_ofBytes` -- what each operation does to the answers.
* `toList_eq` -- the indices are read off the bytes, and are those below the length that are contained.
* `BitSet.Represents` -- every question is answered as a finite set of indices demands. What the bit set
  contains decides the rest (`represents_of_contains`), since its last byte is not zero.
* `BitSet.run_represents` -- **whatever a bit set was made from and however it was changed since, it
  represents the set of indices that was made from the same and changed in the same way.**
-/

namespace RowCodec

/-! ## 1. Bits of changed bytes -/

theorem bitAt_eq_hasBit (bytes : List UInt8) (i : Nat) :
    bitAt bytes i = hasBit (bytes[i / 8]?.getD 0) i := by
  unfold bitAt
  cases bytes[i / 8]? with
  | none => rw [Option.any_none, Option.getD_none, hasBit_zero]
  | some b => rfl

/-- The positions that growing adds hold zero bytes. -/
theorem getD_orByte (mask : UInt8) : ∀ (n : Nat) (bytes : List UInt8) (k : Nat),
    (orByte mask n bytes)[k]?.getD 0 = bytes[k]?.getD 0 ||| if k = n then mask else 0
  | 0, [], 0 => UInt8.zero_or.symm
  | 0, [], k + 1 => UInt8.or_zero.symm
  | 0, _ :: _, 0 => rfl
  | 0, _ :: rest, k + 1 => by rw [if_neg (Nat.succ_ne_zero k), UInt8.or_zero]; rfl
  | n + 1, [], 0 => UInt8.or_zero.symm
  | n + 1, [], k + 1 => by
      have ih := getD_orByte mask n [] k
      simp only [Nat.add_right_cancel_iff]
      exact ih
  | n + 1, _ :: _, 0 => by rw [if_neg (Nat.succ_ne_zero n).symm, UInt8.or_zero]; rfl
  | n + 1, _ :: rest, k + 1 => by
      have ih := getD_orByte mask n rest k
      simp only [Nat.add_right_cancel_iff]
      exact ih

/-- An index is its byte and its bit in it. -/
theorem decide_index_eq (i j : Nat) : decide (j = i) = (decide (i / 8 = j / 8) && decide (i % 8 = j % 8)) := by
  rw [← Bool.decide_and, decide_eq_decide]
  omega

/-- **Adding the bit of an index** adds that bit and no other. -/
theorem bitAt_orByte (bytes : List UInt8) (i j : Nat) :
    bitAt (orByte (bitOf i) (i / 8) bytes) j = (decide (j = i) || bitAt bytes j) := by
  rw [bitAt_eq_hasBit, bitAt_eq_hasBit, getD_orByte, decide_index_eq]
  by_cases h : i / 8 = j / 8
  · rw [if_pos h.symm, hasBit_or_bitOf, decide_eq_true h, Bool.true_and, Bool.or_comm]
  · rw [if_neg (Ne.symm h), UInt8.or_zero, decide_eq_false h, Bool.false_and, Bool.false_or]

theorem hasBit_andNot_bitOf (b : UInt8) (i j : Nat) :
    hasBit (b &&& ~~~(bitOf i)) j = (hasBit b j && !decide (i % 8 = j % 8)) := by
  have hmod : j % 8 < 8 := Nat.mod_lt j (by decide)
  have hnot : (~~~(bitOf i)).toNat = 2 ^ 8 - ((bitOf i).toNat + 1) := by
    rw [UInt8.toNat_not, Nat.sub_sub, Nat.add_comm 1]
    rfl
  unfold hasBit
  rw [UInt8.toNat_and, Nat.testBit_and, hnot, Nat.testBit_two_pow_sub_succ (bitOf i).toNat_lt,
    decide_eq_true hmod, Bool.true_and, toNat_bitOf, Nat.testBit_two_pow]

/-- **Removing the bit of an index** removes that bit and no other. -/
theorem bitAt_andNot (bytes : List UInt8) (i j : Nat) :
    bitAt (bytes.modify (i / 8) (· &&& ~~~(bitOf i))) j = (!decide (j = i) && bitAt bytes j) := by
  unfold bitAt
  rw [List.getElem?_modify, decide_index_eq]
  cases bytes[j / 8]? with
  | none => rw [Option.map_eq_map, Option.map_none, Option.any_none, Bool.and_false]
  | some b =>
      rw [Option.map_eq_map, Option.map_some, Option.any_some, Option.any_some]
      by_cases h : i / 8 = j / 8
      · rw [if_pos h, hasBit_andNot_bitOf, decide_eq_true h, Bool.true_and, Bool.and_comm]
      · rw [if_neg h, decide_eq_false h, Bool.false_and, Bool.not_false, Bool.true_and]

/-- Trimming drops no bit. -/
theorem bitAt_trim (bytes : List UInt8) (i : Nat) : bitAt (trim bytes) i = bitAt bytes i := by
  obtain ⟨n, hn⟩ := exists_padding bytes
  rw [← bitAt_append_zeros (trim bytes) n, ← hn]

/-- The bits of a byte and of the bytes behind it. -/
theorem bitAt_cons (b : UInt8) (rest : List UInt8) (i : Nat) :
    bitAt (b :: rest) (8 + i) = bitAt rest i ∧ (i < 8 → bitAt (b :: rest) i = hasBit b i) := by
  unfold bitAt
  constructor
  · rw [show (8 + i) / 8 = i / 8 + 1 by omega, List.getElem?_cons_succ]
    congr 1
    funext byte
    exact hasBit_add byte 1 i
  · intro h
    rw [Nat.div_eq_of_lt h]
    rfl

namespace BitSet

variable {s : BitSet} {S : Finset Nat}

/-! ## 2. The answers after an operation -/

theorem contains_ofBytes (bytes : List UInt8) (i : Nat) : (ofBytes bytes).contains i = bitAt bytes i := by
  rw [contains_eq]
  exact bitAt_trim bytes i

/-- **Adding an index** changes the answer for that index alone. -/
theorem contains_insert (s : BitSet) (i j : Nat) :
    (s.insert i).contains j = (decide (j = i) || s.contains j) := by
  rw [contains_eq, contains_eq]
  exact bitAt_orByte s.bytes i j

/-- **Removing an index** changes the answer for that index alone. -/
theorem contains_erase (s : BitSet) (i j : Nat) :
    (s.erase i).contains j = (!decide (j = i) && s.contains j) := by
  rw [contains_eq s, ← bitAt_andNot]
  unfold erase
  split
  · rw [contains_ofBytes]
  · rename_i hout
    rw [contains_eq, List.modify_eq_self (Nat.not_lt.mp hout)]

/-! ## 3. The indices in order -/

theorem onesFrom_eq : ∀ (bytes : List UInt8) (start : Nat), onesFrom start bytes =
    ((List.range (8 * bytes.length)).filter (bitAt bytes)).map (start + ·)
  | [], _ => rfl
  | b :: rest, start => by
      -- The bits of the first byte, and behind them those of the rest, eight further on.
      have hhere : (List.range 8).filter (bitAt (b :: rest)) = (List.range 8).filter (hasBit b) :=
        List.filter_congr fun i hi => (bitAt_cons b rest i).2 (List.mem_range.mp hi)
      have hthere : bitAt (b :: rest) ∘ (8 + ·) = bitAt rest := funext fun i => (bitAt_cons b rest i).1
      have hshift : (start + ·) ∘ (8 + ·) = fun i => start + 8 + i :=
        funext fun i => (Nat.add_assoc start 8 i).symm
      rw [onesFrom, onesFrom_eq rest (start + 8), List.length_cons, Nat.mul_succ,
        Nat.add_comm (8 * rest.length), List.range_add, List.filter_append, List.filter_map,
        List.map_append, List.map_map, hhere, hthere, hshift]

/-- Byte by byte, the count and the list go together. -/
theorem length_onesFrom : ∀ (bytes : List UInt8) (start : Nat),
    (onesFrom start bytes).length = bytes.foldr (fun byte n => bitCount byte + n) 0
  | [], _ => rfl
  | b :: rest, start => by
      rw [onesFrom, List.length_append, List.length_map, length_onesFrom rest, ← List.countP_eq_length_filter]
      rfl

theorem length_toList (s : BitSet) : s.toList.length = s.cardinality := length_onesFrom s.bytes 0

/-- The length is a position in the last byte, or right behind it. -/
theorem length_le_bits (s : BitSet) : s.length ≤ 8 * s.bytes.length := by
  refine length_le_iff.mpr fun i hi => ?_
  rw [contains_eq] at hi
  obtain ⟨b, hb, _⟩ := (Option.any_eq_true _ _).mp hi
  have hlt := (List.getElem?_eq_some_iff.mp hb).1
  omega

/-- **The indices are those below the length that the set contains**, in order. -/
theorem toList_eq (s : BitSet) : s.toList = (List.range s.length).filter s.contains := by
  have hcontains : bitAt s.bytes = s.contains := funext fun i => (contains_eq s i).symm
  have hmap : ∀ l : List Nat, l.map (0 + ·) = l := fun l => by simp only [Nat.zero_add, List.map_id']
  obtain ⟨rest, hrest⟩ := Nat.exists_eq_add_of_le s.length_le_bits
  unfold toList
  rw [onesFrom_eq, hmap, hcontains, hrest, List.range_add, List.filter_append, List.append_right_eq_self,
    List.filter_eq_nil_iff]
  intro i hi hcontained
  obtain ⟨k, _, rfl⟩ := List.mem_map.mp hi
  have hlt := lt_length_of_contains hcontained
  omega

theorem mem_toList {i : Nat} : i ∈ s.toList ↔ s.contains i = true := by
  rw [toList_eq, List.mem_filter, List.mem_range, and_iff_right_of_imp lt_length_of_contains]

theorem pairwise_toList (s : BitSet) : s.toList.Pairwise (· < ·) := by
  rw [toList_eq]
  exact List.pairwise_lt_range.filter _

theorem isEmpty_iff_length : s.isEmpty = true ↔ s.length = 0 := by
  unfold isEmpty
  rw [List.isEmpty_iff]
  constructor
  · intro h
    unfold length
    rw [h]
    rfl
  · intro h
    unfold length at h
    split at h
    · exact absurd h (Nat.succ_ne_zero _)
    · rename_i hlast
      exact List.getLast?_eq_none_iff.mp hlast

/-! ## 4. Represented sets -/

/-- **A bit set represents a finite set of indices**: every question is answered as the set demands. -/
structure Represents (s : BitSet) (S : Finset Nat) : Prop where
  contains_iff : ∀ i, s.contains i = true ↔ i ∈ S
  length_empty : S = ∅ → s.length = 0
  length_max : ∀ h : S.Nonempty, s.length = S.max' h + 1
  isEmpty_iff : s.isEmpty = true ↔ S = ∅
  cardinality_eq : s.cardinality = S.card
  mem_toList : ∀ i, i ∈ s.toList ↔ i ∈ S
  /-- The indices come in order, none of them twice. -/
  increasing : s.toList.Pairwise (· < ·)

/-- **What a set contains decides every other answer.** -/
theorem represents_of_contains (h : ∀ i, s.contains i = true ↔ i ∈ S) : s.Represents S := by
  have hmem : ∀ i, i ∈ s.toList ↔ i ∈ S := fun i => by rw [BitSet.mem_toList, h]
  have hempty : s.length = 0 ↔ S = ∅ := by
    rw [← Nat.le_zero, length_le_iff, Finset.eq_empty_iff_forall_notMem]
    simp only [h, Nat.not_lt_zero, imp_false]
  refine ⟨h, hempty.mpr, fun hne => ?_, by rw [isEmpty_iff_length, hempty], ?_, hmem, s.pairwise_toList⟩
  · have hpos : 0 < s.length := Nat.pos_of_ne_zero fun hz => hne.ne_empty (hempty.mp hz)
    -- The number below the length is contained, and no greater one is.
    have hmax : S.max' hne = s.length - 1 := by
      refine (Finset.max'_eq_iff S hne _).mpr ⟨(h _).mp (contains_length_sub_one hpos), fun i hi => ?_⟩
      exact Nat.le_sub_one_of_lt (lt_length_of_contains ((h i).mpr hi))
    rw [hmax, Nat.sub_add_cancel hpos]
  · have hnodup : s.toList.Nodup := s.pairwise_toList.imp Nat.ne_of_lt
    have hset : s.toList.toFinset = S := Finset.ext fun i => by rw [List.mem_toFinset, hmem]
    rw [← length_toList, ← List.toFinset_card_of_nodup hnodup, hset]

theorem represents_empty : empty.Represents ∅ :=
  represents_of_contains fun i => by
    rw [contains_eq]
    exact iff_of_false Bool.false_ne_true (Finset.notMem_empty i)

theorem Represents.insert (h : s.Represents S) (i : Nat) : (s.insert i).Represents (Insert.insert i S) :=
  represents_of_contains fun j => by
    rw [contains_insert, Bool.or_eq_true, decide_eq_true_iff, h.contains_iff, Finset.mem_insert]

theorem Represents.erase (h : s.Represents S) (i : Nat) : (s.erase i).Represents (S.erase i) :=
  represents_of_contains fun j => by
    rw [contains_erase, Bool.and_eq_true, Bool.not_eq_true', decide_eq_false_iff_not, h.contains_iff,
      Finset.mem_erase]

/-- Indices added one after the other. -/
theorem Represents.insertEach : ∀ {s : BitSet} {S : Finset Nat}, s.Represents S → ∀ indices : List Nat,
    (indices.foldl BitSet.insert s).Represents (indices.toFinset ∪ S)
  | _, _, h, [] => by rwa [List.toFinset_nil, Finset.empty_union]
  | s, S, h, i :: rest => by
      have ih := (h.insert i).insertEach rest
      rw [Finset.union_insert, ← Finset.insert_union] at ih
      rwa [List.foldl_cons, List.toFinset_cons]

/-! ## 5. Runs -/

/-- What a bit set is made from. -/
inductive Start where
  | nothing
  | bytes (given : List UInt8)
  | indices (given : List Nat)
deriving DecidableEq, Repr

/-- A change of a bit set. -/
inductive Update where
  | insert (index : Nat)
  | erase (index : Nat)
deriving DecidableEq, Repr

/-- The bit set that is made. -/
def Start.build : Start → BitSet
  | nothing => empty
  | bytes given => ofBytes given
  | indices given => ofList given

/-- The indices that it is made from: of bytes, index `i` is bit `i % 8` of byte `i / 8`. -/
def Start.meaning : Start → Finset Nat
  | nothing => ∅
  | bytes given => (Finset.range (8 * given.length)).filter fun i =>
      ∃ b, given[i / 8]? = some b ∧ hasBit b i = true
  | indices given => given.toFinset

def Update.apply (s : BitSet) : Update → BitSet
  | insert index => s.insert index
  | erase index => s.erase index

/-- The change of a set of indices. -/
def Update.meaning (S : Finset Nat) : Update → Finset Nat
  | insert index => Insert.insert index S
  | erase index => S.erase index

/-- The bit set after a run of changes. -/
def run (start : Start) (updates : List Update) : BitSet := updates.foldl Update.apply start.build

/-- The set of indices after the same changes. -/
def meaning (start : Start) (updates : List Update) : Finset Nat := updates.foldl Update.meaning start.meaning

theorem Start.represents (start : Start) : start.build.Represents start.meaning := by
  cases start with
  | nothing => exact represents_empty
  | bytes given =>
      refine represents_of_contains fun i => ?_
      unfold build meaning
      rw [contains_ofBytes, Finset.mem_filter, Finset.mem_range, bitAt, Option.any_eq_true]
      refine ⟨fun h => ⟨?_, h⟩, fun h => h.2⟩
      obtain ⟨b, hb, _⟩ := h
      have hlt := (List.getElem?_eq_some_iff.mp hb).1
      omega
  | indices given =>
      have h := represents_empty.insertEach given
      rwa [Finset.union_empty] at h

theorem Represents.apply (h : s.Represents S) (update : Update) :
    (update.apply s).Represents (update.meaning S) := by
  cases update with
  | insert index => exact h.insert index
  | erase index => exact h.erase index

theorem Represents.applyEach : ∀ {s : BitSet} {S : Finset Nat}, s.Represents S → ∀ updates : List Update,
    (updates.foldl Update.apply s).Represents (updates.foldl Update.meaning S)
  | _, _, h, [] => h
  | _, _, h, update :: rest => (h.apply update).applyEach rest

/-- **Bit sets are finite sets of indices.** Whatever a bit set was made from, and however indices were
    added and removed since, it answers as the finite set that was made from the same and changed in the same
    way: whether it contains an index, however far behind its last byte, what its length is and whether it is
    empty, how many indices there are, and which, in increasing order. -/
theorem run_represents (start : Start) (updates : List Update) :
    (run start updates).Represents (meaning start updates) :=
  start.represents.applyEach updates

/-- Removing the highest index drops the bytes down to the one with the next. -/
example : (run (.indices [1, 17]) [.erase 17]).bytes = [2] := by decide

end BitSet

end RowCodec
