import RowCodec.Proofs.Tuple.Runs
import RowCodec.Proofs.Tuple.SideBySide

/-!
# Refused appends leave no trace

A run of appends, and the run that is left when calls that were refused are deleted from it.

* `Builder.log` -- what a caller sees of a run: every value that was given, how its append ended, and the
  index afterwards.
* `Builder.Level` -- two builders that have taken the same values. They differ in bytes at most: a text that
  finds no room leaves its table entry behind. An append at both keeps them level (`Level.append`), and so
  does one that is refused at the first and not made at the second (`Level.skip`).
* `Level.build` -- level builders hand out the same tuple: the bytes that a refused text left are written
  over by the next one, or the chunk cannot be closed.
* `log_of_deleted` -- **deleting refused calls changes nothing** that the other calls or the build answer.
-/

namespace RowCodec.Builder

/-! ## 1. What a caller sees -/

/-- One call of a run: the value given, how the append ended, and the index afterwards. -/
structure Call where
  value : Value
  outcome : Outcome TupleError Unit
  index : Nat

/-- Whether the append succeeded. -/
def Call.succeeded (c : Call) : Bool :=
  match c.outcome with
  | .ok () => true
  | .error _ => false

/-- The calls of a run that goes on with the builder a refusal leaves behind. -/
def log (b : Builder) : List Value → List Call
  | [] => []
  | v :: rest =>
    let step := b.append v
    ⟨v, step.outcome, step.builder.index⟩ :: step.builder.log rest

/-! ## 2. Two builders with the same values -/

variable {s : Schema} {keyDeclared valueDeclared : Nat} {b b' : Builder} {v : Value}

/-- The two buffers have one length. -/
def SameLength (buffer buffer' : List UInt8) : Prop :=
  buffer'.length = buffer.length

theorem sameLength_stable : WriteStable SameLength where
  length_eq h := h
  overwrite := by
    intro x y bytes offset h _ hroom
    have hroom' : offset + bytes.length ≤ y.length := hroom.trans (Nat.le_of_eq h.symm)
    exact (length_overwrite hroom').trans (h.trans (length_overwrite hroom).symm)
  modify := by
    intro x y i f h _
    exact (List.length_modify f y i).trans (h.trans (List.length_modify f x i).symm)

/-- **The two builders have taken the same values**, and differ in bytes at most. -/
structure Level (s : Schema) (keyDeclared valueDeclared : Nat) (b b' : Builder) : Prop where
  paired : Builder.Paired SameLength s s b b'
  wrote : ∃ vs, Wrote s keyDeclared valueDeclared b vs ∧ Wrote s keyDeclared valueDeclared b' vs

namespace Level

/-- A new builder is level with itself. -/
theorem of_new (hs : s.Sound) {size : Nat}
    (hnew : Builder.new s size keyDeclared valueDeclared = .ok b) :
    Level s keyDeclared valueDeclared b b := by
  have hwrote := Wrote.of_new hs hnew
  have hnew' := new_paired (R := SameLength) (Schema.Renames.refl s) (fun _ => rfl) size keyDeclared
    valueDeclared
  rw [hnew] at hnew'
  cases hnew' with
  | ok hpaired => exact ⟨hpaired, [], hwrote, hwrote⟩

variable (hs : s.Sound) (h : Level s keyDeclared valueDeclared b b')

include hs h

/-- **An append ends alike at both**, whatever bytes they differ in, and leaves them level. -/
theorem append (hi : (b.append v).outcome = .ok () ∨ (b.append v).builder.index = b.index) :
    (b'.append v).outcome = (b.append v).outcome ∧
      (b'.append v).builder.index = (b.append v).builder.index ∧
      Level s keyDeclared valueDeclared (b.append v).builder (b'.append v).builder := by
  obtain ⟨vs, hwrote, hwrote'⟩ := h.wrote
  have hstep := h.paired.append sameLength_stable (Schema.Renames.refl s) v
  refine ⟨hstep.outcome, hstep.builder.index_eq, hstep.builder, ?_⟩
  rcases hi with hok | hi
  · exact ⟨vs ++ [v], hwrote.append_ok hs hok, hwrote'.append_ok hs (hstep.outcome.trans hok)⟩
  · have hi' : (b'.append v).builder.index = b'.index := by
      rw [hstep.builder.index_eq, hi, h.paired.index_eq]
    exact ⟨vs, hwrote.append_kept hs hi, hwrote'.append_kept hs hi'⟩

/-- **A refused append need not be made**: the builder it leaves is level with one that never saw it. -/
theorem skip (hi : (b.append v).builder.index = b.index) :
    Level s keyDeclared valueDeclared (b.append v).builder b' := by
  obtain ⟨vs, hwrote, hwrote'⟩ := h.wrote
  obtain ⟨buffer, cause, happ, hlen, hspoiled⟩ := hwrote.append_spoils hs hi
  rw [happ]
  refine ⟨?_, vs, hspoiled, hwrote'⟩
  have hlength : SameLength b.buffer b'.buffer := h.paired.buffer
  cases h.paired with
  | intro hchunk _ => exact .intro hchunk (hlength.trans hlen.symm)

omit hs in
/-- **Level builders hand out the same tuple**, or refuse for the same cause: no byte that a refused append
    left comes out. -/
theorem build : b'.build = b.build := by
  obtain ⟨vs, hwrote, hwrote'⟩ := h.wrote
  have hends := h.paired.build sameLength_stable (Schema.Renames.refl s)
  cases hx : b.build with
  | ok t =>
      cases hx' : b'.build with
      | ok t' =>
          have hbytes := (hwrote.build hx).2
          have hbytes' := (hwrote'.build hx').2
          cases t
          cases t'
          exact congrArg (Except.ok ∘ EncodedTuple.mk) (hbytes'.trans hbytes.symm)
      | error e' =>
          rw [hx, hx'] at hends
          cases hends
  | error e =>
      cases hx' : b'.build with
      | ok t' =>
          rw [hx, hx'] at hends
          cases hends
      | error e' =>
          rw [hx, hx'] at hends
          cases hends
          rfl

end Level

/-! ## 3. Runs with calls deleted -/

/-- A call that is not among the kept ones was refused, as every call that succeeded is. -/
theorem refused_of_deleted {c : Call} {kept calls : List Call} (hsub : kept.Sublist calls)
    (hkept : kept.filter Call.succeeded = (c :: calls).filter Call.succeeded) :
    c.succeeded = false ∧ kept.filter Call.succeeded = calls.filter Call.succeeded := by
  cases hc : c.succeeded with
  | false => exact ⟨rfl, hkept.trans (List.filter_cons_of_neg (by rw [hc]; exact Bool.false_ne_true))⟩
  | true =>
      have hle := (hsub.filter Call.succeeded).length_le
      rw [hkept, List.filter_cons_of_pos hc, List.length_cons] at hle
      omega

/-- **Both runs stay level**: by induction on the run, whose every call is made at both builders or, if it was
    refused, at the first only. -/
theorem Level.log_eq (hs : s.Sound) : ∀ {calls : List Value} {kept : List Call} {b b' : Builder},
    Level s keyDeclared valueDeclared b b' → b.Steady calls → kept.Sublist (b.log calls) →
    kept.filter Call.succeeded = (b.log calls).filter Call.succeeded →
      b'.log (kept.map Call.value) = kept ∧
        Level s keyDeclared valueDeclared (b.appendEach calls) (b'.appendEach (kept.map Call.value))
  | [], kept, b, b', h, _, hsub, _ => by
      obtain rfl := List.sublist_nil.mp hsub
      exact ⟨rfl, h⟩
  | v :: rest, kept, b, b', h, hsteady, hsub, hkept => by
      have hlog : b.log (v :: rest) = ⟨v, (b.append v).outcome, (b.append v).builder.index⟩ ::
        (b.append v).builder.log rest := rfl
      rw [hlog] at hsub hkept
      cases hsub with
      | cons _ hsub =>
          obtain ⟨hrefused, hrest⟩ := refused_of_deleted hsub hkept
          have hi : (b.append v).builder.index = b.index := by
            rcases hsteady.1 with hok | hi
            · rw [Call.succeeded, hok] at hrefused
              cases hrefused
            · exact hi
          exact (h.skip hs hi).log_eq hs hsteady.2 hsub hrest
      | @cons_cons kept _ _ hsub =>
          obtain ⟨hout, hi, hlevel⟩ := h.append hs hsteady.1
          have hrest : kept.filter Call.succeeded =
              ((b.append v).builder.log rest).filter Call.succeeded := by
            rw [List.filter_cons, List.filter_cons] at hkept
            split at hkept
            · exact (List.cons.inj hkept).2
            · exact hkept
          obtain ⟨hlog', hlevel'⟩ := hlevel.log_eq hs hsteady.2 hsub hrest
          refine ⟨?_, hlevel'⟩
          show (⟨v, (b'.append v).outcome, (b'.append v).builder.index⟩ : Call) ::
            (b'.append v).builder.log (kept.map Call.value) = _
          rw [hout, hi, hlog']

/-- **Refused appends leave no trace.** Of a steady run any calls that were refused may be deleted, all of them
    or some: every call that is left ends as it did, at the index it did, and the build hands out the same
    bytes or refuses for the same cause. -/
theorem log_of_deleted {version : UInt32} {key value : List Column} {size : Nat}
    (hdef : Schema.define version key value = .ok s)
    (hnew : Builder.new s size keyDeclared valueDeclared = .ok b) {calls : List Value}
    (hsteady : b.Steady calls) {kept : List Call} (hsub : kept.Sublist (b.log calls))
    (hkept : kept.filter Call.succeeded = (b.log calls).filter Call.succeeded) :
    b.log (kept.map Call.value) = kept ∧
      (b.appendEach (kept.map Call.value)).build = (b.appendEach calls).build := by
  have hs := Schema.sound_of_define hdef
  obtain ⟨hlog, hlevel⟩ := (Level.of_new hs hnew).log_eq hs hsteady hsub hkept
  exact ⟨hlog, hlevel.build⟩

/-- Calls of which one leaves bytes behind: the string of three bytes is refused when its table entry is
    written, and the one of two bytes takes the entry. -/
def crowdedCalls : List Value :=
  [.number .int4 42, .bitSet (BitSet.ofList [0, 9]), .utf8 "", .undefined, .blob [1, 2, 3], .blob [1, 2],
    .undefined]

theorem log_of_deleted_crowded : ∃ b t,
    Schema.define 1 sampleKey sampleValue = .ok sampleSchema ∧
    Builder.new sampleSchema 34 0 2 = .ok b ∧ b.Steady crowdedCalls ∧
    (b.appendEach (crowdedCalls.take 5)).buffer ≠ (b.appendEach (crowdedCalls.take 4)).buffer ∧
    ((b.log crowdedCalls).filter Call.succeeded).map Call.value =
      [.number .int4 42, .bitSet (BitSet.ofList [0, 9]), .utf8 "", .undefined, .blob [1, 2]] ∧
    b.log (((b.log crowdedCalls).filter Call.succeeded).map Call.value) =
      (b.log crowdedCalls).filter Call.succeeded ∧
    (b.appendEach crowdedCalls).build = .ok t ∧
    (b.appendEach (((b.log crowdedCalls).filter Call.succeeded).map Call.value)).build = .ok t := by
  have hdef : Schema.define 1 sampleKey sampleValue = .ok sampleSchema := rfl
  have hnew : Builder.new sampleSchema 34 0 2 = .ok _ := rfl
  have hrun : ∀ b t, Builder.new sampleSchema 34 0 2 = .ok b → b.Steady crowdedCalls →
      (b.appendEach crowdedCalls).build = .ok t →
      b.log (((b.log crowdedCalls).filter Call.succeeded).map Call.value) =
          (b.log crowdedCalls).filter Call.succeeded ∧
        (b.appendEach (((b.log crowdedCalls).filter Call.succeeded).map Call.value)).build = .ok t := by
    intro b t hnew hsteady hbuilt
    have hkept : ((b.log crowdedCalls).filter Call.succeeded).filter Call.succeeded =
        (b.log crowdedCalls).filter Call.succeeded := by
      simp only [List.filter_filter, Bool.and_self]
    obtain ⟨hlog, hbuild⟩ := log_of_deleted hdef hnew hsteady List.filter_sublist hkept
    exact ⟨hlog, hbuild.trans hbuilt⟩
  refine ⟨_, _, hdef, hnew, ?steady, ?dirty, rfl, (hrun _ _ hnew ?steady rfl).1, rfl,
    (hrun _ _ hnew ?steady rfl).2⟩
  case steady =>
    exact ⟨Or.inl rfl, Or.inl rfl, Or.inl rfl, Or.inl rfl, Or.inr rfl, Or.inl rfl, Or.inr rfl, trivial⟩
  case dirty => decide +kernel

end RowCodec.Builder
