import RowCodec.Proofs.Tuple.Grammar

/-!
# Where a tuple ends

The length words of the two chunks say where a tuple ends, so a reader can tell bytes that were cut off
from bytes that were damaged.

* `Outcome.CutShort` -- a call that is refused because its bytes end before a position that the whole
  reaches.
* `IsChunk.read_part` -- a chunk that is cut off is refused so, wherever the cut falls: the length word
  that shows it is looked at before the null map.
* `Splits.new_part`, `Splits.new_longer` -- the same of a tuple, and of a tuple with bytes behind it.
* `View.self_delimiting` -- **no tuple is the beginning of another** of its schema, and the cause says on
  which side the bytes are wrong.
-/

namespace RowCodec

/-- **The call is refused for bytes that end too early**: there are `length` of them, and it needs more, though
    no more than the `whole` has. -/
def Outcome.CutShort {α : Type} (x : Outcome TupleError α) (length whole : Nat) : Prop :=
  ∃ required, x = refuse (.truncated required length) ∧ length < required ∧ required ≤ whole

theorem Outcome.CutShort.bind {α β : Type} {x : Outcome TupleError α} {length whole : Nat}
    (h : x.CutShort length whole) (f : α → Outcome TupleError β) :
    CutShort (x >>= f : Outcome TupleError β) length whole := by
  obtain ⟨required, rfl, hrest⟩ := h
  exact ⟨required, rfl, hrest⟩

/-! ## 1. Chunks -/

/-- **A chunk that is cut off** is never taken for a shorter one. -/
theorem Columns.IsChunk.read_part {g : Columns} {chunk part : List UInt8} (h : g.IsChunk chunk)
    (hp : part <+: chunk) (hlt : part.length < chunk.length) (before : List UInt8) :
    (ChunkView.read (before ++ part) before.length g).CutShort (before ++ part).length
      (before ++ chunk).length := by
  have htable := h.table_le
  have hheader : chunkHeaderSize ≤ ChunkBytes.table g := Nat.le_add_right _ _
  have hpart : (before ++ part).length = before.length + part.length := List.length_append
  have hwhole : (before ++ chunk).length = before.length + chunk.length := List.length_append
  obtain ⟨n, hn⟩ : ∃ n, LittleEndian.decode (segment (before ++ part) before.length
      (before.length + chunkHeaderSize)) = n := ⟨_, rfl⟩
  rw [ChunkView.read_eq g _ _ hn]
  by_cases hhead : (before ++ part).length < before.length + ChunkBytes.table g
  · -- The cut falls into the length word or the null map.
    rw [if_pos hhead]
    exact ⟨_, rfl, hhead, by omega⟩
  · -- The length word is there, and says where the whole chunk ends.
    have hword : n = chunk.length := by
      have hfirst : segment (before ++ part ++ []) (before.length + 0)
          (before.length + chunkHeaderSize) = part.take chunkHeaderSize :=
        segment_middle before [] 0 (by omega)
      obtain ⟨rest, rfl⟩ := hp
      rw [List.append_nil, Nat.add_zero] at hfirst
      rw [← hn, hfirst, ← h.header, List.take_append_of_le_length (by omega)]
    rw [if_neg hhead, if_pos (by omega)]
    exact ⟨_, rfl, by omega, by omega⟩

/-! ## 2. Tuples -/

namespace Schema.Splits

variable {s : Schema} {bytes part key value : List UInt8}

/-- **A tuple that is cut off** is refused for the bytes that are missing. -/
theorem new_part (hs : s.Sound) (h : s.Splits bytes key value) (hp : part <+: bytes)
    (hlt : part.length < bytes.length) : (View.new s part).CutShort part.length bytes.length := by
  have hprint := s.fingerprint.length_toBytes
  have hbytes := h.bytes_eq
  rw [List.append_assoc] at hbytes
  subst hbytes
  unfold View.new
  by_cases hfront : part.length < Fingerprint.size
  · rw [if_pos hfront]
    refine ⟨_, rfl, hfront, ?_⟩
    rw [List.length_append, hprint]
    exact Nat.le_add_right _ _
  · -- The fingerprint is there.
    obtain ⟨chunks, rfl⟩ : s.fingerprint.toBytes <+: part :=
      List.prefix_of_prefix_length_le (List.prefix_append _ _) hp (by omega)
    have hchunks : chunks <+: key ++ value := (List.prefix_append_right_inj _).mp hp
    simp only [List.length_append] at hlt
    rw [if_neg hfront]
    dsimp only
    rw [List.take_left' hprint, Fingerprint.ofBytes_toBytes, if_neg (fun hne => hne rfl)]
    by_cases hcut : chunks.length < key.length
    · -- The cut falls into the key chunk.
      have hkey : chunks <+: key :=
        List.prefix_of_prefix_length_le hchunks (List.prefix_append _ _) (Nat.le_of_lt hcut)
      have hread := h.key.read_part hkey hcut s.fingerprint.toBytes
      rw [hprint] at hread
      obtain ⟨required, hx, hless, hle⟩ := hread.bind _
      refine ⟨required, hx, hless, Nat.le_trans hle ?_⟩
      simp only [List.length_append]
      omega
    · -- The key chunk is there, and the cut falls into the value chunk.
      obtain ⟨rest, rfl⟩ : key <+: chunks :=
        List.prefix_of_prefix_length_le (List.prefix_append _ _) hchunks (Nat.not_lt.mp hcut)
      have hrest : rest <+: value := (List.prefix_append_right_inj _).mp hchunks
      have hkey := h.key.read_eq hs.key s.fingerprint.toBytes rest
      have hread := h.value.read_part hrest (by simp only [List.length_append] at hlt; omega)
        (s.fingerprint.toBytes ++ key)
      rw [hprint] at hkey
      rw [List.length_append, hprint, List.append_assoc, List.append_assoc] at hread
      rw [List.append_assoc] at hkey
      rw [hkey, Outcome.ok_bind]
      exact hread.bind _

/-- **Bytes behind a tuple** are refused as such. -/
theorem new_longer (hs : s.Sound) (h : s.Splits bytes key value) {more : List UInt8} (hm : more ≠ []) :
    View.new s (bytes ++ more) = Outcome.refuse (.corrupted (.trailing more.length)) :=
  (h.new_append_eq hs more).trans (if_neg hm)

end Schema.Splits

namespace View

/-- **A tuple says where it ends.** Every shorter beginning of it is refused for the bytes that are missing,
    everything longer for the bytes behind it, and so no tuple is the beginning of another. -/
theorem self_delimiting {version : UInt32} {key value : List Column} {s : Schema}
    (hdef : Schema.define version key value = .ok s) {bytes : List UInt8} {t : View}
    (ht : View.new s bytes = .ok t) :
    (∀ part, part <+: bytes → part ≠ bytes → ∃ e required, View.new s part = Outcome.refuse e ∧
      e = .truncated required part.length ∧ e.code = "TUPLE_013" ∧
      part.length < required ∧ required ≤ bytes.length) ∧
    (∀ more, more ≠ [] → ∃ e, View.new s (bytes ++ more) = Outcome.refuse e ∧
      e = .corrupted (.trailing more.length) ∧ e.code = "TUPLE_014") ∧
    ∀ other t', View.new s other = .ok t' → bytes <+: other → bytes = other := by
  have hs := Schema.sound_of_define hdef
  have hsplit := splits_of_new hs ht
  refine ⟨fun part hp hne => ?_, fun more hm => ⟨_, hsplit.new_longer hs hm, rfl, rfl⟩,
    fun other t' ht' hp => ?_⟩
  · have hlt : part.length < bytes.length :=
      Nat.lt_of_le_of_ne hp.length_le fun hlen => hne (hp.eq_of_length hlen)
    obtain ⟨required, hx, hless, hle⟩ := hsplit.new_part hs hp hlt
    exact ⟨_, required, hx, rfl, rfl, hless, hle⟩
  · obtain ⟨more, rfl⟩ := hp
    by_cases hm : more = []
    · rw [hm, List.append_nil]
    · cases (hsplit.new_longer hs hm).symm.trans ht'

/-- A tuple whose table entry leads nowhere: cut off in the null map of its value it is told from a damaged
    one all the same. -/
theorem self_delimiting_loose : ∃ t,
    Schema.define 1 [⟨"id", .number .int4, false⟩] [⟨"name", .utf8, true⟩] = .ok nameSchema ∧
    View.new nameSchema (nameSchema.fingerprint.toBytes ++ strayChunk ++ looseChunk) = .ok t ∧
    (∃ required, View.new nameSchema (nameSchema.fingerprint.toBytes ++ strayChunk ++ [11, 0, 0, 0]) =
      Outcome.refuse (.truncated required 21)) ∧
    View.new nameSchema (nameSchema.fingerprint.toBytes ++ strayChunk ++ looseChunk ++ [0]) =
      Outcome.refuse (.corrupted (.trailing 1)) := by
  have hdef : Schema.define 1 [⟨"id", .number .int4, false⟩] [⟨"name", .utf8, true⟩] =
      .ok nameSchema := rfl
  have hsplit : nameSchema.Splits (nameSchema.fingerprint.toBytes ++ strayChunk ++ looseChunk)
      strayChunk looseChunk := ⟨rfl, by decide, by decide⟩
  have ht := hsplit.new_eq (Schema.sound_of_define hdef)
  obtain ⟨hpart, hlonger, _⟩ := self_delimiting hdef ht
  refine ⟨_, hdef, ht, ?_, ?_⟩
  · obtain ⟨e, required, hx, he, _⟩ := hpart
      (nameSchema.fingerprint.toBytes ++ strayChunk ++ [11, 0, 0, 0])
      ⟨[1, 255, 255, 255, 255, 7, 7], rfl⟩ (by decide +kernel)
    subst he
    exact ⟨required, hx⟩
  · obtain ⟨e, hx, he, _⟩ := hlonger [0] (List.cons_ne_nil _ _)
    subst he
    exact hx

end View

end RowCodec
