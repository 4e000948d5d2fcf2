import RowCodec.Proofs.Tuple.SharedBytes

/-!
# Accepted tuples

What `View.new` checks, and where that lets a reader look. The bytes are anybody's.

* `ChunkBytes.sound_foundAt` -- bytes that start with their length and have room for their parts are a sound
  chunk.
* `ChunkView.read_eq` -- reading a chunk is judging what is found there; from it `Sound.read_eq`, that
  sound chunks are taken.
* `ChunkView.read_ensures` -- the positions that are read are those of a sound chunk (`ChunkBytes.Sound`),
  wherever in the bytes it was found; `ChunkView.Refuses` has the refusals with what they report.
* `View.Sound` -- both chunks are sound, and the bytes are the fingerprint and the two chunks, with nothing
  between and behind them; `new_ends` says so of every accepted tuple, and `View.Refuses` why bytes are none.
* `View.new_append` -- two chunks that can be read are accepted, if nothing stands behind them.
* `Sound.shows_key`, `Sound.shows_value` -- where each of the chunks stands in the bytes.
* `View.Leads` -- the chunk, the position and the column that an index leads to.
-/

namespace RowCodec

/-- Causes that lie in the bytes: they are too short, of another schema, damaged, or no text. Those that
    lie in the question -- a wrong type, an index without a column -- are not among them. -/
def TupleError.OfBytes : TupleError → Prop
  | .fingerprintMismatch _ _ => True
  | .truncated _ _ => True
  | .corrupted _ => True
  | .invalidUtf8 _ => True
  | _ => False

/-! ## 1. Counting bits -/

section Counting

variable {ε : Type} {bytes : List UInt8} {p : Nat}

theorem definedIn_eq (h : p / 8 < bytes.length) :
    definedIn (ε := ε) bytes p = .ok (bitAt bytes p) := by
  unfold definedIn byteAt bitAt
  rw [List.getElem?_eq_getElem h]
  rfl

theorem countDefined_eq : ∀ {positions : List Nat}, (∀ p ∈ positions, p / 8 < bytes.length) →
    countDefined (ε := ε) bytes positions = .ok (positions.countP (bitAt bytes))
  | [], _ => rfl
  | p :: rest, h => by
      have ih := countDefined_eq fun q hq => h q (List.mem_cons_of_mem p hq)
      unfold countDefined
      rw [definedIn_eq (h p List.mem_cons_self), ih, List.countP_cons]
      cases bitAt bytes p <;> rfl

end Counting

/-! ## 2. Chunks -/

namespace ChunkBytes

variable {g : Columns} {bytes : List UInt8} {start n : Nat}

/-- The `n` bytes from a position on as a chunk, with the entries that the null map there asks for. -/
def foundAt (g : Columns) (bytes : List UInt8) (start n : Nat) : ChunkBytes :=
  ⟨g, segment bytes start (start + n), (g.varlenBefore g.length).countP
    (bitAt (segment bytes (start + chunkHeaderSize) (start + table g)))⟩

theorem entries_foundAt_le (g : Columns) (bytes : List UInt8) (start n : Nat) :
    (foundAt g bytes start n).entries ≤ g.length :=
  Nat.le_trans List.countP_le_length (Columns.length_varlenBefore_le g g.length)

theorem length_foundAt (hend : start + n ≤ bytes.length) :
    (foundAt g bytes start n).bytes.length = n := by
  unfold foundAt
  rw [length_segment hend, Nat.add_sub_cancel_left]

/-- The null map is counted before the chunk's end is known. -/
theorem countDefined_foundAt {ε : Type} (hmap : start + table g ≤ bytes.length) (n : Nat) :
    countDefined (ε := ε) (segment bytes (start + chunkHeaderSize) (start + table g))
      (g.varlenBefore g.length) = .ok (foundAt g bytes start n).entries := by
  refine countDefined_eq fun p hp => ?_
  rw [length_segment hmap, Nat.add_sub_add_left]
  unfold table
  rw [Nat.add_sub_cancel_left]
  exact Columns.div_lt_nullMapSize (Columns.lt_of_mem_varlenBefore hp)

/-- Bytes that start with their own length and have room for their parts are a sound chunk. -/
theorem sound_foundAt (hg : g.LaidOut) (hend : start + n ≤ bytes.length)
    (hword : LittleEndian.decode (segment bytes start (start + chunkHeaderSize)) = n)
    (hdata : (foundAt g bytes start n).data ≤ n) : (foundAt g bytes start n).Sound := by
  have hlen := length_foundAt (g := g) hend
  have htable : table g ≤ n :=
    Nat.le_trans (Nat.le_trans (Nat.le_add_right _ _) (Nat.le_add_right _ _)) hdata
  refine ⟨hg, ?header, ?entries, ?data⟩
  case header =>
    have hheader : chunkHeaderSize ≤ n := Nat.le_trans (Nat.le_add_right _ _) htable
    rw [hlen]
    unfold foundAt
    rw [segment_segment (Nat.add_le_add_left hheader _), Nat.add_zero, hword]
  case entries =>
    -- The part of the chunk that is its null map is the same segment of all bytes.
    unfold foundAt slot marked marks
    rw [segment_segment (Nat.add_le_add_left htable _)]
  case data =>
    exact hdata.trans_eq hlen.symm

end ChunkBytes

namespace ChunkView

/-- **Why a chunk is refused**, with the positions that are reported: the `n` bytes end before its null
    map does or before the chunk itself, or it is shorter than its parts of known size. -/
inductive Refuses (n start : Nat) (g : Columns) : TupleError → Prop
  | header (h : n < start + ChunkBytes.table g) :
      Refuses n start g (.truncated (start + ChunkBytes.table g) n)
  | stop {length : Nat} (h : n < start + length) (hword : length < 256 ^ chunkHeaderSize) :
      Refuses n start g (.truncated (start + length) n)
  | static {length entries : Nat} (hstop : start + length ≤ n) (hentries : entries ≤ g.length)
      (h : length < ChunkBytes.table g + entries * entrySize + g.fixedSize) :
      Refuses n start g (.corrupted (.shortChunk start length
        (ChunkBytes.table g + entries * entrySize + g.fixedSize)))

theorem Refuses.ofBytes {n start : Nat} {g : Columns} {e : TupleError} (h : Refuses n start g e) :
    e.OfBytes := by
  cases h <;> exact trivial

/-- **Reading a chunk is judging what is found there**, by the length `n` in its first word. -/
theorem read_eq (g : Columns) (bytes : List UInt8) (start : Nat) {n : Nat}
    (hn : LittleEndian.decode (segment bytes start (start + chunkHeaderSize)) = n) :
    read bytes start g =
      if bytes.length < start + ChunkBytes.table g then
        Outcome.refuse (.truncated (start + ChunkBytes.table g) bytes.length)
      else if bytes.length < start + n then
        Outcome.refuse (.truncated (start + n) bytes.length)
      else if n < (ChunkBytes.foundAt g bytes start n).data then
        Outcome.refuse (.corrupted
          (.shortChunk start n (ChunkBytes.foundAt g bytes start n).data))
      else .ok ((ChunkBytes.foundAt g bytes start n).viewAt start) := by
  have htable : start + chunkHeaderSize + g.nullMapSize = start + ChunkBytes.table g :=
    Nat.add_assoc _ _ _
  have hheader : chunkHeaderSize ≤ ChunkBytes.table g := Nat.le_add_right _ _
  unfold read
  dsimp only
  rw [htable]
  refine ite_congr rfl (fun _ => rfl) fun hhead => ?_
  rw [slice_eq_segment (Nat.le_add_right _ _) (by omega), Outcome.ok_bind, hn]
  refine ite_congr rfl (fun _ => rfl) fun hend => ?_
  rw [slice_eq_segment (by omega) (by omega), Outcome.ok_bind,
    ChunkBytes.countDefined_foundAt (Nat.not_lt.mp hhead) n, Outcome.ok_bind, checkedSub,
    if_pos (by omega), Outcome.ok_bind, Nat.add_assoc start, Nat.add_sub_cancel_left]
  refine ite_congr rfl (fun _ => rfl) fun _ => ?_
  unfold ChunkBytes.viewAt
  rw [ChunkBytes.length_foundAt (Nat.not_lt.mp hend)]
  rfl

/-- **A chunk that is read is sound**: its positions enclose a part of the bytes that is as long as it
    says. -/
theorem read_ensures {g : Columns} (hg : g.LaidOut) (bytes : List UInt8) (start : Nat) :
    (read bytes start g).Ensures
      (fun v => ∃ c : ChunkBytes, c.Sound ∧ c.columns = g ∧ v = c.viewAt start ∧
        start + c.bytes.length ≤ bytes.length ∧
        c.bytes = segment bytes start (start + c.bytes.length))
      (Refuses bytes.length start g) := by
  obtain ⟨n, hn⟩ :
      ∃ n, LittleEndian.decode (segment bytes start (start + chunkHeaderSize)) = n := ⟨_, rfl⟩
  rw [read_eq g bytes start hn]
  split
  · rename_i hhead
    exact .header hhead
  · rename_i hhead
    split
    · rename_i hend
      have hheader : chunkHeaderSize ≤ ChunkBytes.table g := Nat.le_add_right _ _
      have hword := LittleEndian.decode_lt (segment bytes start (start + chunkHeaderSize))
      rw [length_segment (by omega), Nat.add_sub_cancel_left, hn] at hword
      exact .stop hend hword
    · rename_i hend
      have hend : start + n ≤ bytes.length := Nat.not_lt.mp hend
      split
      · rename_i hshort
        exact .static hend (ChunkBytes.entries_foundAt_le g bytes start n) hshort
      · rename_i hdata
        have hlen := ChunkBytes.length_foundAt (g := g) hend
        have hsound := ChunkBytes.sound_foundAt hg hend hn (Nat.not_lt.mp hdata)
        refine ⟨_, hsound, rfl, rfl, ?_, ?_⟩
        · rw [hlen]
          exact hend
        · rw [hlen]
          rfl

end ChunkView

/-- **The reader takes every sound chunk**, wherever it stands. -/
theorem ChunkBytes.Sound.read_eq {c : ChunkBytes} (h : c.Sound) (before after : List UInt8) :
    ChunkView.read (before ++ c.bytes ++ after) before.length c.columns =
      .ok (c.viewAt before.length) := by
  have htable := h.table_le
  have hheader : chunkHeaderSize ≤ c.bytes.length :=
    Nat.le_trans (Nat.le_add_right _ _) htable
  have hword : LittleEndian.decode (segment (before ++ c.bytes ++ after) before.length
      (before.length + chunkHeaderSize)) = c.bytes.length :=
    (congrArg LittleEndian.decode (segment_middle before after 0 hheader)).trans h.header
  have hfound : foundAt c.columns (before ++ c.bytes ++ after) before.length c.bytes.length = c := by
    have hentries := h.entries_eq
    unfold slot marked marks at hentries
    unfold foundAt
    rw [segment_part, segment_middle before after _ htable, ← hentries]
  rw [ChunkView.read_eq _ _ _ hword, hfound, List.length_append, List.length_append,
    if_neg (by omega), if_neg (by omega), if_neg (Nat.not_lt.mpr h.data_le)]

/-! ## 3. Tuples -/

theorem Fingerprint.ofBytes_toBytes (f : Fingerprint) : ofBytes f.toBytes = f := by
  have hlt : f.hash.toNat < 256 ^ size := f.hash.toNat_lt
  unfold ofBytes toBytes
  rw [LittleEndian.decode_encode_of_lt hlt, UInt64.ofNat_toNat]

/-- Eight bytes are those of the fingerprint read from them. -/
theorem Fingerprint.toBytes_ofBytes {bytes : List UInt8} (h : bytes.length = size) :
    (ofBytes bytes).toBytes = bytes := by
  have hlt : LittleEndian.decode bytes < 2 ^ 64 := by
    have := LittleEndian.decode_lt bytes
    rwa [h] at this
  unfold ofBytes toBytes
  rw [UInt64.toNat_ofNat', Nat.mod_eq_of_lt hlt, ← h, LittleEndian.encode_decode]

namespace View

/-- **What the reader has checked of a tuple.** -/
structure Sound (t : View) : Prop where
  schema : t.schema.Sound
  key : t.keyChunk.Sound
  value : t.valueChunk.Sound
  bytes_eq : t.bytes = t.schema.fingerprint.toBytes ++ t.keyChunk.bytes ++ t.valueChunk.bytes
  keyView_eq : t.keyView = t.keyChunk.viewAt Fingerprint.size
  valueView_eq : t.valueView = t.valueChunk.viewAt (Fingerprint.size + t.keyChunk.bytes.length)

theorem sound_ofChunks {s : Schema} {key value : ChunkBytes} (hs : s.Sound) (hkey : key.Sound)
    (hkc : key.columns = s.key) (hvalue : value.Sound) (hvc : value.columns = s.value) :
    (ofChunks s key value).Sound := by
  have hk : (ofChunks s key value).keyChunk = key := keyChunk_ofChunks hkc
  have hv : (ofChunks s key value).valueChunk = value := valueChunk_ofChunks hvc
  refine ⟨hs, hk.symm ▸ hkey, hv.symm ▸ hvalue, ?_, ?_, ?_⟩
  · rw [hk, hv]
    rfl
  · rw [hk]
    rfl
  · rw [hk, hv]
    rfl

/-- A sound tuple is its fingerprint and its two chunks, and has nothing else. -/
theorem Sound.eq_ofChunks {t : View} (h : t.Sound) :
    ofChunks t.schema t.keyChunk t.valueChunk = t := by
  unfold ofChunks
  rw [← h.bytes_eq, ← h.keyView_eq, ← h.valueView_eq]

/-- **Why bytes are refused**: they end in the fingerprint, have another one, have a chunk that is refused,
    or do not end where the second chunk does. -/
inductive Refuses (s : Schema) (bytes : List UInt8) : TupleError → Prop
  | short (h : bytes.length < Fingerprint.size) :
      Refuses s bytes (.truncated Fingerprint.size bytes.length)
  | fingerprint {actual : Fingerprint} (h : actual ≠ s.fingerprint) :
      Refuses s bytes (.fingerprintMismatch s.fingerprint actual)
  | key {e : TupleError} (hstart : Fingerprint.size ≤ bytes.length)
      (h : ChunkView.Refuses bytes.length Fingerprint.size s.key e) : Refuses s bytes e
  | value {start : Nat} {e : TupleError} (hstart : start ≤ bytes.length)
      (h : ChunkView.Refuses bytes.length start s.value e) : Refuses s bytes e
  | trailing {count : Nat} (h : count ≤ bytes.length) :
      Refuses s bytes (.corrupted (.trailing count))

theorem Refuses.ofBytes {s : Schema} {bytes : List UInt8} {e : TupleError} (h : Refuses s bytes e) :
    e.OfBytes := by
  cases h with
  | key _ h => exact h.ofBytes
  | value _ h => exact h.ofBytes
  | _ => exact trivial

/-- **An accepted tuple is sound**, and its bytes are the fingerprint and the two chunks. -/
theorem new_ends {s : Schema} (hs : s.Sound) (bytes : List UInt8) :
    (new s bytes).Ensures
      (fun t => t.Sound ∧ t.schema = s ∧
        bytes = s.fingerprint.toBytes ++ t.keyChunk.bytes ++ t.valueChunk.bytes)
      (Refuses s bytes) := by
  unfold new
  split
  · rename_i hlen
    exact .short hlen
  · rename_i hlen
    dsimp only
    split
    · rename_i hprint
      exact .fingerprint hprint
    · rename_i hprint
      refine ((ChunkView.read_ensures hs.key bytes Fingerprint.size).imp (fun _ h => h)
        fun _ h => .key (Nat.not_lt.mp hlen) h).bind ?_
      intro found hfound
      obtain ⟨key, hkey, hkc, rfl, hkle, hkb⟩ := hfound
      refine ((ChunkView.read_ensures hs.value bytes (Fingerprint.size + key.bytes.length)).imp
        (fun _ h => h) fun _ h => .value hkle h).bind ?_
      intro found hfound
      obtain ⟨value, hvalue, hvc, rfl, hvle, hvb⟩ := hfound
      rw [ChunkBytes.start_viewAt, ChunkBytes.length_viewAt]
      split
      · rw [checkedSub, if_pos hvle]
        exact .trailing (Nat.sub_le _ _)
      · rename_i hstop
        have hstop : Fingerprint.size + key.bytes.length + value.bytes.length = bytes.length :=
          Decidable.of_not_not hstop
        have hfront : s.fingerprint.toBytes = segment bytes 0 Fingerprint.size := by
          rw [← Decidable.of_not_not hprint]
          exact Fingerprint.toBytes_ofBytes (by rw [List.length_take]; omega)
        have hbytes : bytes = s.fingerprint.toBytes ++ key.bytes ++ value.bytes := by
          rw [hfront, hkb, hvb, segment_append (Nat.zero_le _) (Nat.le_add_right _ _),
            segment_append (by omega) (by omega), hstop, segment_zero_length]
        have hsound := sound_ofChunks hs hkey hkc hvalue hvc
        rw [hbytes]
        exact ⟨hsound, rfl, hsound.bytes_eq⟩

/-- The same, with the refusals as causes that lie in the bytes. -/
theorem new_ensures {s : Schema} (hs : s.Sound) (bytes : List UInt8) :
    (new s bytes).Ensures
      (fun t => t.Sound ∧ t.schema = s ∧
        bytes = s.fingerprint.toBytes ++ t.keyChunk.bytes ++ t.valueChunk.bytes)
      TupleError.OfBytes :=
  (new_ends hs bytes).imp (fun _ h => h) fun _ h => h.ofBytes

theorem sound_of_new {s : Schema} {bytes : List UInt8} {t : View} (hs : s.Sound)
    (h : new s bytes = .ok t) : t.Sound ∧ t.schema = s ∧
      bytes = s.fingerprint.toBytes ++ t.keyChunk.bytes ++ t.valueChunk.bytes :=
  (new_ensures hs bytes).of_ok h

/-- A view keeps the bytes that it was made of. -/
theorem bytes_of_new {s : Schema} {bytes : List UInt8} {t : View} (hs : s.Sound)
    (h : new s bytes = .ok t) : t.bytes = bytes := by
  obtain ⟨hsound, rfl, hbytes⟩ := sound_of_new hs h
  exact hsound.bytes_eq.trans hbytes.symm

/-- **The reader takes two chunks that it can read**, wherever they stand, and nothing behind them. -/
theorem new_append (s : Schema) (key value : ChunkBytes)
    (hkey : ∀ before after, ChunkView.read (before ++ key.bytes ++ after) before.length s.key =
      .ok (key.viewAt before.length))
    (hvalue : ∀ before after, ChunkView.read (before ++ value.bytes ++ after) before.length s.value =
      .ok (value.viewAt before.length)) (rest : List UInt8) :
    new s (s.fingerprint.toBytes ++ key.bytes ++ value.bytes ++ rest) =
      if rest = [] then .ok (ofChunks s key value)
      else Outcome.refuse (.corrupted (.trailing rest.length)) := by
  have hprint := s.fingerprint.length_toBytes
  obtain ⟨bytes, hbytes⟩ :
      ∃ bytes, bytes = s.fingerprint.toBytes ++ key.bytes ++ value.bytes ++ rest := ⟨_, rfl⟩
  have hlen : bytes.length =
      Fingerprint.size + key.bytes.length + value.bytes.length + rest.length := by
    rw [hbytes, List.length_append, List.length_append, List.length_append, hprint]
  have hfront : bytes.take Fingerprint.size = s.fingerprint.toBytes := by
    rw [hbytes, List.append_assoc, List.append_assoc, List.take_left' hprint]
  have hkeyView := hkey s.fingerprint.toBytes (value.bytes ++ rest)
  have hvalueView := hvalue (s.fingerprint.toBytes ++ key.bytes) rest
  rw [← List.append_assoc, ← hbytes, hprint] at hkeyView
  rw [← hbytes, List.length_append, hprint] at hvalueView
  rw [← hbytes]
  unfold new
  rw [if_neg (by omega), hfront, Fingerprint.ofBytes_toBytes, if_neg (fun hne => hne rfl), hkeyView,
    Outcome.ok_bind, ChunkBytes.start_viewAt, ChunkBytes.length_viewAt, hvalueView, Outcome.ok_bind]
  dsimp only [ChunkBytes.start_viewAt, ChunkBytes.length_viewAt]
  by_cases hrest : rest = []
  · subst hrest
    rw [List.append_nil] at hbytes
    rw [if_pos rfl, hbytes]
    refine if_neg ?_
    rw [← hbytes, hlen]
    exact fun hne => hne rfl
  · have hpos := List.length_pos_iff.mpr hrest
    rw [if_neg hrest]
    refine (if_pos (by omega)).trans ?_
    rw [checkedSub, if_pos (by omega), Outcome.ok_bind, hlen, Nat.add_sub_cancel_left]

/-- **Where an index leads to**: a sound chunk of the tuple, at whose positions the view reads, and a
    column in it. -/
structure Leads (t : View) (index : Nat) (c : ChunkBytes) (p : Nat) (column : Column) : Prop where
  locate : ∃ start, t.Shows start c ∧ t.locate index = .ok (c.viewAt start, c.columns, p, column)
  sound : c.Sound
  column : c.columns.columns[p]? = some column

namespace Sound

variable {t : View} {index p : Nat} {column : Column}

/-- The key chunk stands behind the fingerprint. -/
theorem shows_key (h : t.Sound) : t.Shows Fingerprint.size t.keyChunk := by
  have hshows := shows_key_ofChunks t.schema t.keyChunk t.valueChunk
  rwa [h.eq_ofChunks] at hshows

/-- The value chunk stands behind the key chunk, however long that is. -/
theorem shows_value (h : t.Sound) :
    t.Shows (Fingerprint.size + t.keyChunk.bytes.length) t.valueChunk := by
  have hshows := shows_value_ofChunks t.schema t.keyChunk t.valueChunk
  rwa [h.eq_ofChunks] at hshows

theorem locate_key (h : t.Sound) (hc : t.schema.key.columns[p]? = some column) : t.locate p =
    .ok (t.keyChunk.viewAt Fingerprint.size, t.schema.key, p, column) := by
  have hp : p < t.schema.key.length := (List.getElem?_eq_some_iff.mp hc).1
  rw [← h.keyView_eq]
  simp [View.locate, Schema.locate_key hc, Schema.isKeyColumn, hp]

theorem locate_value (h : t.Sound) (hc : t.schema.value.columns[p]? = some column) :
    t.locate (t.schema.key.length + p) =
      .ok (t.valueChunk.viewAt (Fingerprint.size + t.keyChunk.bytes.length), t.schema.value, p,
        column) := by
  rw [← h.valueView_eq]
  simp [View.locate, Schema.locate_value hc, Schema.isKeyColumn]

theorem leads_key (h : t.Sound) (hc : t.schema.key.columns[p]? = some column) :
    t.Leads p t.keyChunk p column :=
  ⟨⟨_, h.shows_key, h.locate_key hc⟩, h.key, hc⟩

theorem leads_value (h : t.Sound) (hc : t.schema.value.columns[p]? = some column) :
    t.Leads (t.schema.key.length + p) t.valueChunk p column :=
  ⟨⟨_, h.shows_value, h.locate_value hc⟩, h.value, hc⟩

/-- Every column of the schema is found. -/
theorem leads (h : t.Sound) (hc : t.schema.column? index = some column) :
    ∃ c p, t.Leads index c p column := by
  rcases Schema.column?_cases hc with ⟨_, hk⟩ | ⟨p, rfl, hv⟩
  · exact ⟨_, _, h.leads_key hk⟩
  · exact ⟨_, _, h.leads_value hv⟩

/-- Every other index is refused. -/
theorem locate_out (_ : t.Sound) (hc : t.schema.column? index = none) :
    t.locate index = Outcome.refuse (.columnOutOfRange index t.schema.length) := by
  have hlocate : t.schema.locate index = .error (.columnOutOfRange index t.schema.length) := by
    unfold Schema.locate
    unfold Schema.column? at hc
    dsimp only at hc ⊢
    rw [hc]
  unfold View.locate
  rw [hlocate]
  rfl

theorem value_out (h : t.Sound) (hc : t.schema.column? index = none) :
    t.value index = Outcome.refuse (.columnOutOfRange index t.schema.length) := by
  unfold View.value
  rw [h.locate_out hc]
  rfl

end Sound

end View

end RowCodec
