import RowCodec.Proofs.BitSet.Padding
import RowCodec.Proofs.Bytes.PackedBits
import RowCodec.Proofs.Schema.Layout
import RowCodec.Tuple.Builder

/-!
# The bytes of a row, written down

A row is the list of its values, one a column. What a tuple of the row is, part by part and without
a buffer:

* `Column.suits`, `Column.stores`, `Column.admits` -- which values a column takes: of its kind, a bit
  set within the mask's width, and a null only where nulls are allowed.
* `Columns.encode` -- a chunk: its own length, the null map, one table entry for each text or byte
  string (where it starts, `startsFrom`), the slots of the fixed-size columns, the texts and byte
  strings.
* `Schema.encode` -- a tuple: the fingerprint and the two chunks.
* `length_encode` -- a chunk is as long as `Columns.chunkBytes` says for the row's statistic.
* `Schema.Fits` -- a row that the schema takes: its columns admit the values, and no chunk is longer
  than its own length can say.
-/

namespace RowCodec

/-! ## 1. Values and columns -/

namespace Value

/-- The bytes of a text or byte string. -/
def payload? : Value → Option (List UInt8)
  | utf8 text => some (Utf8.encode text)
  | blob bytes => some bytes
  | _ => none

/-- The bytes of a number, UUID or bit set. -/
def fixedBytes : Value → List UInt8
  | number kind word => LittleEndian.encode kind.size word.toNat
  | uuid id => id.bytes
  | bitSet bits => bits.bytes
  | _ => []

theorem eq_undefined {v : Value} (h : v.isUndefined = true) : v = .undefined := by
  cases v with
  | undefined => rfl
  | _ => cases h

theorem isUndefined_of_payload {v : Value} {bytes : List UInt8} (h : v.payload? = some bytes) :
    v.isUndefined = false := by
  cases v with
  | undefined => cases h
  | _ => rfl

end Value

namespace Column

/-- Whether a value is made for columns of the column's kind. A null is of every kind. -/
def suits (c : Column) (v : Value) : Bool := v.type?.all fun type => c.type.sameKind type

/-- Whether a value is of the column's kind, a bit set within the mask's width. A null is of every
    kind. -/
def stores (c : Column) : Value → Bool
  | .undefined => true
  | .number kind _ => c.type = .number kind
  | .uuid _ => c.type = .uuid
  | .bitSet bits =>
    match c.type with
    | .bitmask width => bits.length ≤ width.toNat
    | _ => false
  | .utf8 _ => c.type = .utf8
  | .blob _ => c.type = .blob

/-- Whether the column takes a value. -/
def admits (c : Column) (v : Value) : Bool := c.stores v && (c.nullable || !v.isUndefined)

/-- The column's part of the fixed section: the value's bytes and zero bytes up to the column's size.
    A null has no bytes of its own, a column of variable length no part. -/
def slot (c : Column) (v : Value) : List UInt8 :=
  if c.isFixedSize then v.fixedBytes ++ List.replicate (c.type.size - v.fixedBytes.length) 0 else []

theorem stores_of_admits {c : Column} {v : Value} (h : c.admits v = true) : c.stores v = true :=
  (Bool.and_eq_true_iff.mp h).1

theorem admits_of_stores {c : Column} {v : Value} (h : c.stores v = true)
    (hd : v.isUndefined = false) : c.admits v = true := by
  unfold admits
  rw [h, hd, Bool.not_false, Bool.or_true, Bool.and_self]

theorem exists_width {c : Column} {bits : BitSet} (h : c.stores (.bitSet bits) = true) :
    ∃ width, c.type = .bitmask width ∧ bits.length ≤ width.toNat := by
  change (match c.type with
    | .bitmask width => decide (bits.length ≤ width.toNat)
    | _ => false) = true at h
  split at h
  · rename_i width ht
    exact ⟨width, ht, of_decide_eq_true h⟩
  · cases h

theorem suits_of_stores {c : Column} {v : Value} (h : c.stores v = true) : c.suits v = true := by
  cases v with
  | undefined => rfl
  | number kind word => exact ColumnType.sameKind_of_eq (of_decide_eq_true h)
  | uuid id => exact ColumnType.sameKind_of_eq (of_decide_eq_true h)
  | bitSet bits =>
      obtain ⟨width, ht, _⟩ := exists_width h
      exact ColumnType.sameKind_iff.mpr (Or.inr ⟨width, _, ht, rfl⟩)
  | utf8 text => exact ColumnType.sameKind_of_eq (of_decide_eq_true h)
  | blob bytes => exact ColumnType.sameKind_of_eq (of_decide_eq_true h)

theorem length_fixedBytes_le {c : Column} {v : Value} (h : c.stores v = true) :
    v.fixedBytes.length ≤ c.type.size := by
  cases v with
  | undefined => exact Nat.zero_le _
  | number kind word =>
      have ht : c.type = .number kind := of_decide_eq_true h
      rw [ht, Value.fixedBytes, LittleEndian.length_encode]
      exact Nat.le_refl _
  | uuid id =>
      have ht : c.type = .uuid := of_decide_eq_true h
      rw [ht, Value.fixedBytes, id.length_bytes]
      exact Nat.le_refl _
  | bitSet bits =>
      obtain ⟨width, ht, hw⟩ := exists_width h
      rw [ht, Value.fixedBytes]
      exact BitSet.length_bytes_le hw
  | utf8 text => exact Nat.zero_le _
  | blob bytes => exact Nat.zero_le _

theorem length_slot {c : Column} {v : Value} (h : c.stores v = true) :
    (c.slot v).length = c.type.size := by
  unfold slot
  split
  · have := length_fixedBytes_le h
    rw [List.length_append, List.length_replicate]
    omega
  · rename_i hf
    rw [ColumnType.size_of_varlen (by simpa [isFixedSize] using hf)]
    rfl

/-- A value that fills its slot has no zero bytes behind it. -/
theorem slot_of_full {c : Column} {v : Value} (hf : c.isFixedSize = true)
    (h : v.fixedBytes.length = c.type.size) : c.slot v = v.fixedBytes := by
  unfold slot
  rw [if_pos hf, h, Nat.sub_self]
  exact List.append_nil _

theorem slot_undefined (c : Column) : c.slot .undefined = List.replicate c.type.size 0 := by
  unfold slot
  split
  · rfl
  · rename_i hf
    rw [ColumnType.size_of_varlen (by simpa [isFixedSize] using hf)]
    rfl

/-- Only columns of variable length take texts and byte strings. -/
theorem isFixedSize_of_payload {c : Column} {v : Value} {bytes : List UInt8}
    (h : c.suits v = true) (hp : v.payload? = some bytes) : c.isFixedSize = false := by
  cases v with
  | utf8 text => exact ColumnType.isFixedSize_of_sameKind h
  | blob bytes => exact ColumnType.isFixedSize_of_sameKind h
  | _ => cases hp

/-- Every value but the null of a column of variable length is a text or byte string. -/
theorem isSome_payload {c : Column} {v : Value} (h : c.suits v = true)
    (hf : c.isFixedSize = false) : v.payload?.isSome = !v.isUndefined := by
  unfold isFixedSize at hf
  cases v with
  | undefined => rfl
  | utf8 text => rfl
  | blob bytes => rfl
  | number kind word => rw [ColumnType.isFixedSize_of_sameKind h] at hf; cases hf
  | uuid id => rw [ColumnType.isFixedSize_of_sameKind h] at hf; cases hf
  | bitSet bits => rw [ColumnType.isFixedSize_of_sameKind h] at hf; cases hf

theorem isFixedSize_of_none {c : Column} {v : Value} (h : c.stores v = true)
    (hp : v.payload? = none) (hd : v.isUndefined = false) : c.isFixedSize = true := by
  cases hf : c.isFixedSize with
  | true => rfl
  | false =>
      have hs := isSome_payload (suits_of_stores h) hf
      rw [hp, hd] at hs
      cases hs

end Column

/-! ## 2. Rows -/

/-- Each value is of its column's kind, whatever the width of a bit mask. -/
def Suits (columns : List Column) (row : List Value) : Prop :=
  ∀ (p : Nat) (c : Column) (v : Value),
    columns[p]? = some c → row[p]? = some v → c.suits v = true

/-- Each value is of its column's kind, and each bit set within the mask's width. -/
def Stores (columns : List Column) (row : List Value) : Prop :=
  ∀ (p : Nat) (c : Column) (v : Value),
    columns[p]? = some c → row[p]? = some v → c.stores v = true

/-- Each column takes its value. -/
def Admits (columns : List Column) (row : List Value) : Prop :=
  ∀ (p : Nat) (c : Column) (v : Value),
    columns[p]? = some c → row[p]? = some v → c.admits v = true

/-- The texts and byte strings of a row, in column order. -/
def payloads (row : List Value) : List (List UInt8) := row.filterMap Value.payload?

/-- The null map of a row: the bit of every value but the nulls. -/
def nullMap (row : List Value) : List UInt8 := packBits (row.map fun v => !v.isUndefined)

/-- The slots of a row, one after the other. -/
def slots (columns : List Column) (row : List Value) : List UInt8 :=
  (List.zipWith Column.slot columns row).flatten

/-- Where byte strings that follow each other start. -/
def startsFrom : Nat → List (List UInt8) → List Nat
  | _, [] => []
  | start, bytes :: rest => start :: startsFrom (start + bytes.length) rest

/-- The table: the start of each text or byte string. -/
def tableBytes (starts : List Nat) : List UInt8 := starts.flatMap (LittleEndian.encode entrySize)

/-- How many texts and byte strings a row holds, and how many bytes they take. -/
def rowStatistic (row : List Value) : Statistic :=
  ⟨(payloads row).length, (payloads row).flatten.length⟩

namespace Columns

/-- The bytes of a chunk before its texts and byte strings. -/
def staticSize (g : Columns) (entries : Nat) : Nat :=
  chunkHeaderSize + g.nullMapSize + entries * entrySize + g.fixedSize

/-- Where the texts and byte strings of a row start, counted from the chunk's start. -/
def starts (g : Columns) (row : List Value) : List Nat :=
  startsFrom (g.staticSize (payloads row).length) (payloads row)

/-- What a chunk holds behind its length. -/
def body (g : Columns) (row : List Value) : List UInt8 :=
  nullMap row ++ tableBytes (g.starts row) ++ slots g.columns row ++ (payloads row).flatten

/-- **A chunk**: its own length and its body. -/
def encode (g : Columns) (row : List Value) : List UInt8 :=
  LittleEndian.encode chunkHeaderSize (chunkHeaderSize + (g.body row).length) ++ g.body row

end Columns

/-- **A tuple**: the fingerprint, the chunk of the key's values and the chunk of the others. -/
def Schema.encode (s : Schema) (row : List Value) : List UInt8 :=
  s.fingerprint.toBytes ++ s.key.encode (row.take s.key.length)
    ++ s.value.encode (row.drop s.key.length)

/-! ## 3. The parts of a chunk -/

theorem eq_take_cons_drop {α : Type} {l : List α} {p : Nat} {a : α} (h : l[p]? = some a) :
    l = l.take p ++ a :: l.drop (p + 1) := by
  obtain ⟨hp, rfl⟩ := List.getElem?_eq_some_iff.mp h
  rw [← List.drop_eq_getElem_cons hp, List.take_append_drop]

theorem Stores.tail {c : Column} {v : Value} {columns : List Column} {row : List Value}
    (h : Stores (c :: columns) (v :: row)) : Stores columns row :=
  fun p c' v' hc hv => h (p + 1) c' v' hc hv

theorem Admits.stores {columns : List Column} {row : List Value} (h : Admits columns row) :
    Stores columns row :=
  fun p c v hc hv => Column.stores_of_admits (h p c v hc hv)

theorem Stores.suits {columns : List Column} {row : List Value} (h : Stores columns row) :
    Suits columns row :=
  fun p c v hc hv => Column.suits_of_stores (h p c v hc hv)

theorem length_slots : ∀ {columns : List Column} {row : List Value}, Stores columns row →
    row.length = columns.length → (slots columns row).length = Columns.widths columns
  | [], [], _, _ => rfl
  | [], _ :: _, _, h => absurd h (by simp)
  | _ :: _, [], _, h => absurd h (by simp)
  | c :: columns, v :: row, hs, h => by
      have ih := length_slots hs.tail (Nat.succ.inj h)
      unfold slots at ih ⊢
      rw [List.zipWith_cons_cons, List.flatten_cons, List.length_append, ih,
        Column.length_slot (hs 0 c v rfl rfl), Columns.widths_cons]

theorem Stores.take {columns : List Column} {row : List Value} (h : Stores columns row) (p : Nat) :
    Stores (columns.take p) (row.take p) := by
  intro q c v hc hv
  rw [List.getElem?_take] at hc hv
  split at hc
  · rename_i hq
    rw [if_pos hq] at hv
    exact h q c v hc hv
  · cases hc

theorem length_slots_take {columns : List Column} {row : List Value} (h : Stores columns row)
    (hl : row.length = columns.length) (p : Nat) :
    (slots (columns.take p) (row.take p)).length = Columns.widths (columns.take p) :=
  length_slots (h.take p) (by rw [List.length_take, List.length_take, hl])

theorem slots_append {a b : List Column} {r s : List Value} (h : a.length = r.length) :
    slots (a ++ b) (r ++ s) = slots a r ++ slots b s := by
  unfold slots
  rw [List.zipWith_append h, List.flatten_append]

/-- The slots around the slot of one column. -/
theorem slots_at {columns : List Column} {row : List Value} {p : Nat} {c : Column} {v : Value}
    (hc : columns[p]? = some c) (hv : row[p]? = some v) :
    slots columns row = slots (columns.take p) (row.take p) ++ c.slot v
      ++ slots (columns.drop (p + 1)) (row.drop (p + 1)) := by
  have hp := (List.getElem?_eq_some_iff.mp hc).1
  have hq := (List.getElem?_eq_some_iff.mp hv).1
  have hl : (columns.take p).length = (row.take p).length := by
    rw [List.length_take, List.length_take]
    omega
  conv => lhs; rw [eq_take_cons_drop hc, eq_take_cons_drop hv, slots_append hl]
  rw [List.append_assoc]
  rfl

theorem slots_undefined : ∀ columns : List Column,
    slots columns (List.replicate columns.length .undefined) =
      List.replicate (Columns.widths columns) 0
  | [] => rfl
  | c :: rest => by
      have ih := slots_undefined rest
      unfold slots at ih ⊢
      rw [List.length_cons, List.replicate_succ, List.zipWith_cons_cons, List.flatten_cons, ih,
        Column.slot_undefined, Columns.widths_cons, List.replicate_append_replicate]

theorem nullMap_undefined (n : Nat) :
    nullMap (List.replicate n .undefined) = List.replicate ((n + 7) / 8) 0 := by
  unfold nullMap
  rw [List.map_replicate]
  exact packBits_replicate_false n

@[simp] theorem length_nullMap (row : List Value) : (nullMap row).length = (row.length + 7) / 8 := by
  rw [nullMap, length_packBits, List.length_map]

theorem nullMap_set {row : List Value} {p : Nat} {v : Value} (hp : p < row.length)
    (hv : v.isUndefined = false) :
    nullMap (row.set p v) = (nullMap row).modify (p / 8) (· ||| bitOf p) := by
  unfold nullMap
  rw [List.map_set, hv]
  exact packBits_set (by rwa [List.length_map])

theorem payloads_append (a b : List Value) : payloads (a ++ b) = payloads a ++ payloads b :=
  List.filterMap_append

theorem payloads_append_of_none {vs : List Value} {v : Value} (h : v.payload? = none) :
    payloads (vs ++ [v]) = payloads vs := by
  rw [payloads_append, payloads, payloads, List.filterMap_cons_none h, List.filterMap_nil,
    List.append_nil]

theorem payloads_append_of_some {vs : List Value} {v : Value} {bytes : List UInt8}
    (h : v.payload? = some bytes) : payloads (vs ++ [v]) = payloads vs ++ [bytes] := by
  rw [payloads_append, payloads, payloads, List.filterMap_cons_some h, List.filterMap_nil]

@[simp] theorem length_startsFrom : ∀ (start : Nat) (parts : List (List UInt8)),
    (startsFrom start parts).length = parts.length
  | _, [] => rfl
  | start, bytes :: rest => by
      rw [startsFrom, List.length_cons, length_startsFrom, List.length_cons]

theorem startsFrom_append : ∀ (start : Nat) (a b : List (List UInt8)),
    startsFrom start (a ++ b) = startsFrom start a ++ startsFrom (start + a.flatten.length) b
  | _, [], _ => rfl
  | start, bytes :: rest, b => by
      rw [List.cons_append, startsFrom, startsFrom_append, startsFrom, List.flatten_cons,
        List.length_append, Nat.add_assoc, List.cons_append]

/-- One more text or byte string starts where the ones before it end. -/
theorem startsFrom_append_of_some {vs : List Value} {v : Value} {bytes : List UInt8} (start : Nat)
    (h : v.payload? = some bytes) : startsFrom start (payloads (vs ++ [v])) =
      startsFrom start (payloads vs) ++ [start + (payloads vs).flatten.length] := by
  rw [payloads_append_of_some h, startsFrom_append]
  rfl

theorem tableBytes_append (a b : List Nat) : tableBytes (a ++ b) = tableBytes a ++ tableBytes b :=
  List.flatMap_append

@[simp] theorem length_tableBytes : ∀ starts : List Nat, (tableBytes starts).length = starts.length * entrySize
  | [] => rfl
  | start :: rest => by
      have ih := length_tableBytes rest
      unfold tableBytes at ih ⊢
      rw [List.flatMap_cons, List.length_append, ih, LittleEndian.length_encode, List.length_cons,
        Nat.succ_mul, Nat.add_comm]

namespace Columns

variable {g : Columns} {row : List Value}

/-- **A chunk is as long as its statistic says.** -/
theorem length_encode (h : g.LaidOut) (hs : Stores g.columns row) (hl : row.length = g.length) :
    (g.encode row).length = g.chunkBytes (rowStatistic row) := by
  have hslots : (slots g.columns row).length = g.fixedSize :=
    (length_slots hs hl).trans h.fixedSize_eq.symm
  unfold encode body chunkBytes rowStatistic nullMapSize starts
  simp only [List.length_append, LittleEndian.length_encode, length_nullMap, length_tableBytes,
    length_startsFrom, hslots, hl]
  omega

end Columns

/-! ## 4. Rows that fit -/

/-- A group takes a row: one value a column, each admitted, and a chunk whose length is a 32-bit
    word. -/
structure Columns.Fits (g : Columns) (row : List Value) : Prop where
  length_eq : row.length = g.length
  admits : Admits g.columns row
  bounded : (g.encode row).length ≤ maxChunkOffset

/-- A schema takes a row: each group takes its part. -/
structure Schema.Fits (s : Schema) (row : List Value) : Prop where
  key : s.key.Fits (row.take s.key.length)
  value : s.value.Fits (row.drop s.key.length)

namespace Schema

variable {s : Schema} {row ks vs : List Value}

theorem Fits.length_eq (h : s.Fits row) : row.length = s.length := by
  have hk := h.key.length_eq
  have hv := h.value.length_eq
  rw [List.length_take] at hk
  rw [List.length_drop] at hv
  unfold length
  omega

theorem Fits.append (hk : s.key.Fits ks) (hv : s.value.Fits vs) : s.Fits (ks ++ vs) := by
  refine ⟨?_, ?_⟩
  · rw [List.take_left' hk.length_eq]
    exact hk
  · rw [List.drop_left' hk.length_eq]
    exact hv

theorem encode_append (h : ks.length = s.key.length) :
    s.encode (ks ++ vs) = s.fingerprint.toBytes ++ s.key.encode ks ++ s.value.encode vs := by
  unfold encode
  rw [List.take_left' h, List.drop_left' h]

end Schema

end RowCodec
