import RowCodec.Proofs.Tuple.SideBySide

/-!
# Writing under other names

Two builders whose schemas differ in names only, run side by side. They hold the same bytes behind their
schemas' fingerprints, and a step of one is a step of the other: it ends the same way, and leaves two
builders that again differ in nothing else.

* `EncodedTuple.Alike` -- two tuples that are the same behind their fingerprints; writing keeps that
  (`sameBody_stable`).
* `Builder.Alike` -- the relation: builders at one place, with such buffers (`alike_iff_paired`).
  `new_alike` makes it, and **`append`** keeps it for every value; `build` hands out such tuples.
-/

namespace RowCodec

variable {ρ : String → String} {s s' : Schema}

/-! ## 1. Two builders -/

/-- **The two builders are the same behind their fingerprints.** -/
inductive Builder.Alike (s s' : Schema) : Builder → Builder → Prop
  | intro {body : List UInt8} {index valueDeclared : Nat} {chunk : Chunk} (h : chunk.Behind) :
      Alike s s' ⟨s, s.fingerprint.toBytes ++ body, index, chunk, valueDeclared⟩
        ⟨s', s'.fingerprint.toBytes ++ body, index, chunk, valueDeclared⟩

/-- The two steps end the same way and leave builders that are alike. -/
structure Step.Alike {ε : Type} (s s' : Schema) (step step' : Step ε) : Prop where
  builder : Builder.Alike s s' step.builder step'.builder
  outcome : step'.outcome = step.outcome

theorem Step.Alike.mapCause {ε δ : Type} {step step' : Step ε} {f g : ε → δ}
    (h : Step.Alike s s' step step') (hf : g = f) :
    Step.Alike s s' (step.mapCause f) (step'.mapCause g) := by
  subst hf
  exact ⟨h.builder, congrArg (Outcome.mapCause g) h.outcome⟩

/-! ## 2. The same bytes behind the fingerprints -/

/-- A write behind both fingerprints lands in the bytes that the two share. -/
theorem sameBody_stable (s s' : Schema) : WriteStable (SameBody s s') where
  length_eq := fun h => h.length_eq
  overwrite := by
    rintro _ _ bytes offset ⟨body, rfl, rfl⟩ ho _
    obtain ⟨j, rfl⟩ := Nat.exists_eq_add_of_le ho
    have hs := overwrite_append_right s.fingerprint.toBytes body bytes j
    have hs' := overwrite_append_right s'.fingerprint.toBytes body bytes j
    rw [Fingerprint.length_toBytes] at hs hs'
    exact ⟨_, hs, hs'⟩
  modify := by
    rintro _ _ i f ⟨body, rfl, rfl⟩ hi
    obtain ⟨j, rfl⟩ := Nat.exists_eq_add_of_le hi
    have hs := modify_append_right s.fingerprint.toBytes body f j
    have hs' := modify_append_right s'.fingerprint.toBytes body f j
    rw [Fingerprint.length_toBytes] at hs hs'
    exact ⟨_, hs, hs'⟩

theorem Builder.alike_iff_paired {b b' : Builder} :
    Builder.Alike s s' b b' ↔ Builder.Paired (SameBody s s') s s' b b' := by
  constructor
  · rintro ⟨hchunk⟩
    exact .intro hchunk ⟨_, rfl, rfl⟩
  · rintro ⟨hchunk, body, rfl, rfl⟩
    exact .intro hchunk

/-- **An append is the same append under other names.** -/
theorem Builder.Alike.append {b b' : Builder} (h : Builder.Alike s s' b b') (hs : s.Renames ρ s')
    (v : Value) : Step.Alike s s' (b.append v) (b'.append v) := by
  have hstep := (alike_iff_paired.mp h).append (sameBody_stable s s') hs v
  exact ⟨alike_iff_paired.mpr hstep.builder, hstep.outcome⟩

/-! ## 3. Tuples -/

theorem Builder.new_alike (hs : s.Renames ρ s') (size keyDeclared valueDeclared : Nat) :
    Outcome.Alike (Builder.Alike s s') (Builder.new s size keyDeclared valueDeclared)
      (Builder.new s' size keyDeclared valueDeclared) :=
  (new_paired hs (fun _ => ⟨_, rfl, rfl⟩) size keyDeclared valueDeclared).imp
    fun _ _ => alike_iff_paired.mpr

/-- **The two tuples are the same behind the fingerprints of their schemas.** -/
def EncodedTuple.Alike (s s' : Schema) (t t' : EncodedTuple) : Prop :=
  ∃ body, t.bytes = s.fingerprint.toBytes ++ body ∧ t'.bytes = s'.fingerprint.toBytes ++ body

/-- Under one schema there is one such tuple. -/
theorem EncodedTuple.Alike.eq {t t' : EncodedTuple} (h : Alike s s t t') : t = t' := by
  obtain ⟨body, hbytes, hbytes'⟩ := h
  cases t
  exact congrArg EncodedTuple.mk (hbytes.trans hbytes'.symm)

theorem Builder.Alike.build {b b' : Builder} (h : Builder.Alike s s' b b') (hs : s.Renames ρ s') :
    Outcome.Alike (EncodedTuple.Alike s s') (Outcome.ofExcept b.build) (Outcome.ofExcept b'.build) :=
  (alike_iff_paired.mp h).build (sameBody_stable s s') hs

end RowCodec
