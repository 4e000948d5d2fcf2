import RowCodec.Proofs.BitSet.Finite

/-!
# One bit set for each set of indices

* `BitSet.eq_iff_contains` -- sets that answer alike are equal: padded with zero bytes to one length they have
  the same bits, and the padding is lost.
* `Update.change`, `heldIn` -- the bytes alone through a run: only given bytes and a removal are trimmed, an
  added index grows the bytes as they are. `bytes_run` -- these are the bytes of the set.
* `BitSet.Canonical` -- what follows for a set: it is read back from its bytes and from its indices, and
  changes that leave the same indices behind leave the same set behind.
* `BitSet.run_canonical` -- **every run of changes ends in bytes without a zero byte at the end, and in the one
  bit set that holds its indices.**
-/

namespace RowCodec.BitSet

variable {s t : BitSet}

/-! ## 1. Equality -/

/-- **Sets that hold the same indices are equal.** -/
theorem eq_of_contains (h : ∀ i, s.contains i = t.contains i) : s = t := by
  -- Each is padded by the other's length, so that both have one length.
  have hbits : s.bytes ++ List.replicate t.bytes.length 0 = t.bytes ++ List.replicate s.bytes.length 0 := by
    refine eq_of_bitAt ?_ fun i _ => ?_
    · rw [List.length_append, List.length_append, List.length_replicate, List.length_replicate, Nat.add_comm]
    · rw [bitAt_append_zeros, bitAt_append_zeros, ← contains_eq, ← contains_eq, h]
  calc s = ofBytes (s.bytes ++ List.replicate t.bytes.length 0) := (ofBytes_append_zeros s _).symm
    _ = ofBytes (t.bytes ++ List.replicate s.bytes.length 0) := congrArg ofBytes hbits
    _ = t := ofBytes_append_zeros t _

theorem eq_iff_contains : s = t ↔ ∀ i, s.contains i = t.contains i :=
  ⟨fun h _ => by rw [h], eq_of_contains⟩

/-- A set represents its own indices. -/
theorem represents_toList (s : BitSet) : s.Represents s.toList.toFinset :=
  represents_of_contains fun i => by rw [List.mem_toFinset, mem_toList]

theorem Represents.eq {S : Finset Nat} (hs : s.Represents S) (ht : t.Represents S) : s = t :=
  eq_of_contains fun i => Bool.eq_iff_iff.mpr ((hs.contains_iff i).trans (ht.contains_iff i).symm)

/-! ## 2. The bytes through a run -/

/-- The bytes of a set that is made: those of given indices are grown one index after the other. -/
def Start.heldIn : Start → List UInt8
  | nothing => []
  | bytes given => trim given
  | indices given => given.foldl (fun held i => orByte (bitOf i) (i / 8) held) []

/-- The bytes after a change. An index behind the last byte is not there to be removed. -/
def Update.change (held : List UInt8) : Update → List UInt8
  | insert index => orByte (bitOf index) (index / 8) held
  | erase index =>
    if index / 8 < held.length then trim (held.modify (index / 8) (· &&& ~~~(bitOf index))) else held

/-- The bytes after a run of changes. -/
def heldIn (start : Start) (updates : List Update) : List UInt8 := updates.foldl Update.change start.heldIn

theorem bytes_insertEach : ∀ (indices : List Nat) (s : BitSet),
    (indices.foldl insert s).bytes = indices.foldl (fun held i => orByte (bitOf i) (i / 8) held) s.bytes
  | [], _ => rfl
  | i :: rest, s => by
      rw [List.foldl_cons, List.foldl_cons, bytes_insertEach rest]
      rfl

theorem Start.bytes_build : ∀ start : Start, start.build.bytes = start.heldIn
  | nothing => rfl
  | bytes _ => rfl
  | indices given => bytes_insertEach given empty

theorem Update.bytes_apply (s : BitSet) : ∀ update : Update, (update.apply s).bytes = update.change s.bytes
  | insert _ => rfl
  | erase index => by
      show (s.erase index).bytes = if index / 8 < s.bytes.length then _ else s.bytes
      unfold BitSet.erase
      split <;> rfl

theorem bytes_applyEach : ∀ (updates : List Update) (s : BitSet),
    (updates.foldl Update.apply s).bytes = updates.foldl Update.change s.bytes
  | [], _ => rfl
  | update :: rest, s => by rw [List.foldl_cons, List.foldl_cons, bytes_applyEach rest, Update.bytes_apply]

/-- **The bytes of a run's set** are the bytes changed along the run. -/
theorem bytes_run (start : Start) (updates : List Update) :
    (run start updates).bytes = heldIn start updates := by
  unfold run heldIn
  rw [bytes_applyEach, Start.bytes_build]

/-! ## 3. Canonical sets -/

/-- **A bit set is the one that holds its indices**: it comes back from whatever tells them all, and changes
    that leave the same indices behind leave the same set behind. -/
structure Canonical (s : BitSet) : Prop where
  eq_iff : ∀ t : BitSet, s = t ↔ ∀ i, s.contains i = t.contains i
  of_bytes : ofBytes s.bytes = s
  of_toList : ofList s.toList = s
  erase_insert : ∀ i, s.contains i = false → (s.insert i).erase i = s
  insert_comm : ∀ i j, (s.insert i).insert j = (s.insert j).insert i
  erase_comm : ∀ i j, (s.erase i).erase j = (s.erase j).erase i
  erase_insert_comm : ∀ i j, i ≠ j → (s.insert i).erase j = (s.erase j).insert i

/-- A set's indices, added to the empty set one after the other. -/
theorem ofList_toList (s : BitSet) : ofList s.toList = s := by
  have h := represents_empty.insertEach s.toList
  rw [Finset.union_empty] at h
  exact h.eq s.represents_toList

theorem canonical (s : BitSet) : s.Canonical where
  eq_iff _ := eq_iff_contains
  of_bytes := eq_of_contains fun i => by rw [contains_ofBytes, contains_eq]
  of_toList := s.ofList_toList
  erase_insert i hi := eq_of_contains fun k => by
    rw [contains_erase, contains_insert]
    by_cases hk : k = i
    · rw [hk, hi, decide_eq_true rfl, Bool.not_true, Bool.false_and]
    · rw [decide_eq_false hk, Bool.not_false, Bool.true_and, Bool.false_or]
  insert_comm i j := eq_of_contains fun k => by
    simp only [contains_insert]
    exact Bool.or_left_comm _ _ _
  erase_comm i j := eq_of_contains fun k => by
    simp only [contains_erase]
    exact Bool.and_left_comm _ _ _
  erase_insert_comm i j hij := eq_of_contains fun k => by
    simp only [contains_erase, contains_insert]
    by_cases hk : k = i
    · have hkj : k ≠ j := hk ▸ hij
      rw [decide_eq_true hk, decide_eq_false hkj]
      rfl
    · rw [decide_eq_false hk, Bool.false_or, Bool.false_or]

/-- **Bit sets are canonical.** Whatever a bit set was made from and however indices were added and removed
    since, the bytes it is held in do not end in a zero byte, though only given bytes and removals are ever
    trimmed; it equals every set that gives the same answers, comes back from its bytes and from its indices,
    and changes commute and undo one another as they do on sets of indices. Zero bytes behind given bytes are
    lost. -/
theorem run_canonical (start : Start) (updates : List Update) :
    (run start updates).bytes = heldIn start updates ∧
      (heldIn start updates).getLast? ≠ some 0 ∧
      (run start updates).Canonical ∧
      ∀ (given : List UInt8) (n : Nat), ofBytes (given ++ List.replicate n 0) = ofBytes given := by
  have hheld := bytes_run start updates
  refine ⟨hheld, ?_, (run start updates).canonical, fun given n => ?_⟩
  · rw [← hheld]
    exact (run start updates).trimmed
  · exact eq_of_contains fun i => by rw [contains_ofBytes, contains_ofBytes, bitAt_append_zeros]

/-- Removing an index that the bytes were grown for drops all of them again. -/
example : heldIn (.bytes [5, 0, 0]) [.insert 30, .erase 30] = [5] := by decide

end RowCodec.BitSet
