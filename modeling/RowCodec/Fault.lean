/-!
# How a call can end without an answer

A call is refused with a cause that its caller can inspect, or it panics because its caller broke a
precondition that the call does not report. The two never mix: a proof that a call cannot panic says
nothing about refusals, and a refusal is never an accident of memory.

* `Panic` lists the broken preconditions; `Panic.message` gives the text of those that carry one.
* `Fault ε` is a refusal with a cause of type `ε`, or a panic; `Outcome ε α` is a call's end.
* `checked` is word arithmetic: sums are taken in the natural numbers and refused once, at the end,
  when they pass the largest 64-bit word. A sum of natural numbers passes the bound exactly when
  one of its partial sums or the whole does, so one check stands for all.
-/

namespace RowCodec

/-- The preconditions that a call may find broken. -/
inductive Panic where
  /-- A row was given a null where its key is one whole value. -/
  | nullKey
  /-- A row was given no value, or a null where its value is one whole value. -/
  | nullValue
  /-- A column bound to a whole object was asked to fill one field. -/
  | noFieldToPopulate (index : Nat)
  /-- A column bound to one field was asked for a whole object. -/
  | noWholeObject (index : Nat)
  /-- A position past the end of a list. -/
  | outOfBounds
  /-- A sum or difference that no 64-bit word holds. -/
  | overflow
  /-- A buffer larger than half the address space. -/
  | allocation
  /-- The fixed offset of a column that has none. -/
  | variableLength (index : Nat)
  /-- A number, UUID or bit set found where text or bytes are stored. -/
  | fixedSizeValue (index : Nat)
deriving DecidableEq, Repr

/-- The text a panic carries; those that have no text of their own carry none. -/
def Panic.message : Panic → Option String
  | .nullKey => some "null keys are not supported"
  | .nullValue => some "null values are not supported"
  | .noFieldToPopulate index =>
      some s!"identity accessor for column {index} has no field to populate"
  | .noWholeObject index => some s!"field accessor for column {index} cannot produce a whole object"
  | .outOfBounds => none
  | .overflow => none
  | .allocation => none
  | .variableLength _ => none
  | .fixedSizeValue _ => none

/-- Why a call gave no answer. -/
inductive Fault (ε : Type) where
  /-- The call reports `cause` to its caller. -/
  | refused (cause : ε)
  /-- The call was aborted. -/
  | panic (cause : Panic)
deriving DecidableEq, Repr

/-- The same fault with its cause told in other words. -/
def Fault.map {ε δ : Type} (f : ε → δ) : Fault ε → Fault δ
  | .refused cause => .refused (f cause)
  | .panic cause => .panic cause

/-- How a call ends: with an answer, or with a fault. -/
abbrev Outcome (ε α : Type) := Except (Fault ε) α

namespace Outcome

variable {ε δ α : Type}

/-- The call is refused. -/
def refuse (cause : ε) : Outcome ε α := .error (.refused cause)

/-- The call is aborted. -/
def abort (cause : Panic) : Outcome ε α := .error (.panic cause)

/-- The same end with its cause told in other words. -/
def mapCause (f : ε → δ) : Outcome ε α → Outcome δ α
  | .ok a => .ok a
  | .error e => .error (e.map f)

/-- An end that can only refuse, as one that could also panic. -/
def ofExcept : Except ε α → Outcome ε α
  | .ok a => .ok a
  | .error e => refuse e

/-- Whether the call was aborted. -/
def panics : Outcome ε α → Bool
  | .error (.panic _) => true
  | _ => false

end Outcome

/-- The number of 64-bit words. -/
def wordLimit : Nat := 0x10000000000000000

/-- A sum as a 64-bit word. -/
def checked {ε : Type} (n : Nat) : Outcome ε Nat :=
  if n < wordLimit then .ok n else Outcome.abort .overflow

/-- A difference of 64-bit words. -/
def checkedSub {ε : Type} (m n : Nat) : Outcome ε Nat :=
  if n ≤ m then .ok (m - n) else Outcome.abort .overflow

end RowCodec
