import RowCodec.Proofs.Tuple.Getters

/-!
# Columns that are read alike

A getter looks at the chunk that its index leads to, and at nothing else of a tuple.

* `View.AgreesAt` -- two tuples of which every getter gives the same at an index, an answer or a cause.
* `agreesAt_of_bytes` -- the bytes of a column decide every getter; `agreesAt_of_leads` -- and the chunk that
  the index leads to decides the bytes, wherever in each of the tuples that chunk stands.
* `agreesAt_key`, `agreesAt_value` -- **the chunks are apart**: accepted tuples with one key chunk agree at
  the key's columns, accepted tuples with one value chunk at all others.
-/

namespace RowCodec.View

variable {t t' : View} {index p : Nat} {c : ChunkBytes} {column : Column}

/-! ## 1. Agreement -/

/-- **A column is read alike in two tuples**: every getter gives the same answer or the same cause. -/
structure AgreesAt (t t' : View) (index : Nat) : Prop where
  isNull : t'.isNull index = t.isNull index
  number? : ∀ kind, t'.number? kind index = t.number? kind index
  number : ∀ kind, t'.number kind index = t.number kind index
  uuid? : t'.uuid? index = t.uuid? index
  bitSet? : t'.bitSet? index = t.bitSet? index
  utf8? : t'.utf8? index = t.utf8? index
  blob? : t'.blob? index = t.blob? index
  value : t'.value index = t.value index

/-- A column is read alike as any type, not only as its own. -/
theorem AgreesAt.valueAs (h : t.AgreesAt t' index) (type : ColumnType) :
    t'.valueAs type index = t.valueAs type index := by
  unfold View.valueAs
  rw [h.uuid?, h.bitSet?, h.utf8?, h.blob?]
  simp only [h.number?]

/-- **Every getter is decided by a column's type and bytes.** -/
theorem agreesAt_of_bytes
    (htype : Outcome.Alike (fun found found' => found'.2.2.2.type = found.2.2.2.type)
      (t.locate index) (t'.locate index))
    (hnull : t'.isNull index = t.isNull index)
    (hfixed : ∀ requested : ColumnType, requested.isFixedSize = true →
      t'.fixedBytes? index requested = t.fixedBytes? index requested)
    (hvarlen : ∀ requested : ColumnType, requested.isFixedSize = false →
      t'.varlenBytes? index requested = t.varlenBytes? index requested) :
    t.AgreesAt t' index := by
  have hnumber? : ∀ kind, t'.number? kind index = t.number? kind index := by
    intro kind
    unfold View.number?
    rw [hfixed _ rfl]
  have huuid? : t'.uuid? index = t.uuid? index := by
    unfold View.uuid?
    rw [hfixed _ rfl]
  have hbitSet? : t'.bitSet? index = t.bitSet? index := by
    unfold View.bitSet?
    rw [hfixed _ rfl]
  have hutf8? : t'.utf8? index = t.utf8? index := by
    unfold View.utf8?
    rw [hvarlen _ rfl]
  have hblob? : t'.blob? index = t.blob? index := hvarlen .blob rfl
  refine ⟨hnull, hnumber?, fun kind => ?_, huuid?, hbitSet?, hutf8?, hblob?, ?_⟩
  · unfold View.number
    rw [hnumber?]
  · refine (htype.bind_eq ?_).symm
    rintro ⟨_, _, _, c⟩ ⟨_, _, _, c'⟩ htype
    show t.valueAs c.type index = t'.valueAs c'.type index
    have hsame : c'.type = c.type := htype
    unfold View.valueAs
    rw [hsame, huuid?, hbitSet?, hutf8?, hblob?]
    simp only [hnumber?]

/-- Tuples that refuse an index for the same cause agree there. -/
theorem agreesAt_of_refused {e : TupleError} (h : t.locate index = Outcome.refuse e)
    (h' : t'.locate index = Outcome.refuse e) : t.AgreesAt t' index := by
  have hof : ∀ requested, t.locateOf index requested = Outcome.refuse e := by
    intro requested
    unfold locateOf
    rw [h]
    rfl
  have hof' : ∀ requested, t'.locateOf index requested = Outcome.refuse e := by
    intro requested
    unfold locateOf
    rw [h']
    rfl
  refine agreesAt_of_bytes ?_ ?_ (fun requested _ => ?_) (fun requested _ => ?_)
  · rw [h, h']
    exact .error _
  · unfold View.isNull
    rw [h, h']
    rfl
  · unfold fixedBytes?
    rw [hof, hof']
    rfl
  · unfold varlenBytes?
    rw [hof, hof']
    rfl

/-- **The chunk that an index leads to is all that a getter looks at**: the two tuples may have it at
    different places, and differ in everything else. -/
theorem agreesAt_of_leads (h : t.Leads index c p column) (h' : t'.Leads index c p column) :
    t.AgreesAt t' index := by
  refine agreesAt_of_bytes ?_ (h'.isNull_eq.trans h.isNull_eq.symm) (fun requested hf => ?_)
    (fun requested hf => ?_)
  · obtain ⟨_, _, hlocate⟩ := h.locate
    obtain ⟨_, _, hlocate'⟩ := h'.locate
    rw [hlocate, hlocate']
    exact .ok rfl
  · cases hk : column.type.sameKind requested with
    | true => exact (h'.fixedBytes?_eq hk hf).trans (h.fixedBytes?_eq hk hf).symm
    | false =>
        unfold fixedBytes?
        rw [h.locateOf_mismatch hk, h'.locateOf_mismatch hk]
        rfl
  · cases hk : column.type.sameKind requested with
    | true =>
        have hvarlen : column.isFixedSize = false := (ColumnType.isFixedSize_of_sameKind hk).trans hf
        exact (h'.varlenBytes?_eq hk hvarlen).trans (h.varlenBytes?_eq hk hvarlen).symm
    | false =>
        unfold varlenBytes?
        rw [h.locateOf_mismatch hk, h'.locateOf_mismatch hk]
        rfl

/-! ## 2. Chunks -/

theorem agreesAt_key (ht : t.Sound) (ht' : t'.Sound) (hs : t'.schema = t.schema)
    (hk : t'.keyChunk = t.keyChunk) (hi : index < t.schema.key.length) : t.AgreesAt t' index := by
  obtain ⟨column, hc⟩ := Columns.exists_column hi
  have hlead := ht.leads_key hc
  have hlead' := ht'.leads_key (hs.symm ▸ hc)
  rw [hk] at hlead'
  exact agreesAt_of_leads hlead hlead'

/-- The value chunk may stand at another place, behind a key chunk of another length. -/
theorem agreesAt_value (ht : t.Sound) (ht' : t'.Sound) (hs : t'.schema = t.schema)
    (hv : t'.valueChunk = t.valueChunk) (hi : t.schema.key.length ≤ index) :
    t.AgreesAt t' index := by
  obtain ⟨p, rfl⟩ := Nat.exists_eq_add_of_le hi
  cases hc : t.schema.column? (t.schema.key.length + p) with
  | some column =>
      rw [Schema.column?_value] at hc
      have hlead := ht.leads_value hc
      have hlead' := ht'.leads_value (hs.symm ▸ hc)
      rw [hv, hs] at hlead'
      exact agreesAt_of_leads hlead hlead'
  | none =>
      have hout' := ht'.locate_out (hs.symm ▸ hc)
      rw [hs] at hout'
      exact agreesAt_of_refused (ht.locate_out hc) hout'

end RowCodec.View
