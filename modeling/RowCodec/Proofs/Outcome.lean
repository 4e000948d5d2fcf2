import RowCodec.Fault

/-!
# How composed calls end

What is known of one part of a composed call says how the whole goes on, and an answer of the whole is
an answer of each part.

* `ok_bind` -- a sequence goes on from an answer.
* `bind_ok` -- both calls of an answered sequence were answered.
* `mapCause_ok`, `ofExcept_ok`, `mapError_ok` -- telling causes in other words makes no answer.
* `bind_refused`, `mapCause_refused` -- a refused sequence was refused at its first call or at its second, for
  the cause of that call.
* `Ensures` -- a call that does not panic, with what is known of its answers and of the causes of its
  refusals; `Ensures.bind` puts two such calls in sequence.
* `Alike` -- two calls that end in the same fault or have related answers; `Alike.bind` puts two pairs
  of such calls in sequence.
-/

namespace RowCodec.Outcome

variable {ε δ α β : Type}

/-! ## 1. Answers -/

@[simp] theorem ok_bind (a : α) (f : α → Except ε β) : Except.ok a >>= f = f a := rfl

@[simp] theorem pure_eq (a : α) : (pure a : Except ε α) = .ok a := rfl

@[simp] theorem ofExcept_eq (a : α) : ofExcept (.ok a : Except ε α) = .ok a := rfl

@[simp] theorem mapCause_eq (f : ε → δ) (a : α) : mapCause f (.ok a) = .ok a := rfl

@[simp] theorem refuse_bind (e : ε) (f : α → Outcome ε β) :
    ((refuse e : Outcome ε α) >>= f : Outcome ε β) = refuse e := rfl

@[simp] theorem mapCause_refuse (f : ε → δ) (e : ε) :
    mapCause f (refuse e : Outcome ε α) = refuse (f e) := rfl

@[simp] theorem mapError_eq (f : ε → δ) (a : α) :
    (Except.ok a : Except ε α).mapError f = .ok a := rfl

theorem ofExcept_mapError (f : ε → δ) (x : Except ε α) :
    ofExcept (x.mapError f) = (ofExcept x).mapCause f := by
  cases x <;> rfl

theorem bind_ok {x : Except ε α} {f : α → Except ε β} {r : β} (h : x >>= f = .ok r) :
    ∃ a, x = .ok a ∧ f a = .ok r := by
  cases x with
  | error e => cases h
  | ok a => exact ⟨a, rfl, h⟩

theorem mapCause_ok {f : ε → δ} {x : Outcome ε α} {a : α} (h : x.mapCause f = .ok a) :
    x = .ok a := by
  cases x with
  | error e => cases h
  | ok b => exact congrArg Except.ok (Except.ok.inj h)

theorem ofExcept_ok {x : Except ε α} {a : α} (h : ofExcept x = .ok a) : x = .ok a := by
  cases x with
  | error e => cases h
  | ok b => exact congrArg Except.ok (Except.ok.inj h)

theorem mapError_ok {f : ε → δ} {x : Except ε α} {a : α} (h : x.mapError f = .ok a) : x = .ok a := by
  cases x with
  | error e => cases h
  | ok b => exact congrArg Except.ok (Except.ok.inj h)

theorem bind_refused {x : Outcome ε α} {f : α → Outcome ε β} {cause : ε}
    (h : (x >>= f : Outcome ε β) = refuse cause) :
    x = refuse cause ∨ ∃ a, x = .ok a ∧ f a = refuse cause := by
  cases x with
  | ok a => exact Or.inr ⟨a, rfl, h⟩
  | error fault =>
      cases h
      exact Or.inl rfl

theorem mapCause_refused {f : ε → δ} {x : Outcome ε α} {cause : δ}
    (h : x.mapCause f = refuse cause) : ∃ e, cause = f e := by
  cases x with
  | ok a => cases h
  | error fault =>
      cases fault with
      | panic own => cases h
      | refused e =>
          cases h
          exact ⟨e, rfl⟩

/-! ## 2. Ends without a panic -/

/-- **The call does not panic**: `answer` holds of an answer, `cause` of the cause of a refusal. -/
def Ensures (x : Outcome ε α) (answer : α → Prop) (cause : ε → Prop) : Prop :=
  match x with
  | .ok a => answer a
  | .error (.refused e) => cause e
  | .error (.panic _) => False

namespace Ensures

variable {x : Outcome ε α} {answer : α → Prop} {cause : ε → Prop}

theorem bind {f : α → Outcome ε β} {final : β → Prop} (h : x.Ensures answer cause)
    (hf : ∀ a, answer a → (f a).Ensures final cause) :
    Ensures (x >>= f : Outcome ε β) final cause :=
  match x, h with
  | .ok a, h => hf a h
  | .error (.refused _), h => h

theorem imp {final : α → Prop} {named : ε → Prop} (h : x.Ensures answer cause)
    (ha : ∀ a, answer a → final a) (he : ∀ e, cause e → named e) : x.Ensures final named :=
  match x, h with
  | .ok a, h => ha a h
  | .error (.refused e), h => he e h

theorem panics_eq (h : x.Ensures answer cause) : x.panics = false :=
  match x, h with
  | .ok _, _ => rfl
  | .error (.refused _), _ => rfl

/-- There is an answer or a cause. -/
theorem ends (h : x.Ensures answer cause) :
    (∃ a, x = .ok a ∧ answer a) ∨ ∃ e, x = Outcome.refuse e ∧ cause e :=
  match x, h with
  | .ok a, h => Or.inl ⟨a, rfl, h⟩
  | .error (.refused e), h => Or.inr ⟨e, rfl, h⟩

theorem of_ok {a : α} (h : x.Ensures answer cause) (hx : x = .ok a) : answer a := by
  subst hx
  exact h

theorem of_refused {e : ε} (h : x.Ensures answer cause) (hx : x = Outcome.refuse e) : cause e := by
  subst hx
  exact h

end Ensures

/-! ## 3. Two calls at once -/

/-- **The two calls end alike**: in the same fault, or with answers that `R` relates. -/
inductive Alike (R : α → β → Prop) : Outcome ε α → Outcome ε β → Prop
  | ok {a : α} {b : β} (h : R a b) : Alike R (.ok a) (.ok b)
  | error (fault : Fault ε) : Alike R (.error fault) (.error fault)

namespace Alike

variable {γ ζ : Type} {R : α → β → Prop} {x : Outcome ε α} {y : Outcome ε β}

theorem same (x : Outcome ε α) : x.Alike Eq x :=
  match x with
  | .ok _ => .ok rfl
  | .error fault => .error fault

theorem eq {y : Outcome ε α} (h : x.Alike Eq y) : x = y := by
  cases h with
  | ok h => exact congrArg Except.ok h
  | error fault => rfl

theorem imp {S : α → β → Prop} (h : x.Alike R y) (hR : ∀ a b, R a b → S a b) : x.Alike S y := by
  cases h with
  | ok h => exact .ok (hR _ _ h)
  | error fault => exact .error fault

/-- A fault of the one call is the other's. -/
theorem fault_eq {fault : Fault ε} (h : x.Alike R y) (hx : x = .error fault) : y = .error fault := by
  cases h with
  | ok h => cases hx
  | error fault =>
      cases hx
      rfl

theorem bind {S : γ → ζ → Prop} {f : α → Outcome ε γ} {g : β → Outcome ε ζ} (h : x.Alike R y)
    (hf : ∀ a b, R a b → (f a).Alike S (g b)) :
    Alike S (x >>= f : Outcome ε γ) (y >>= g : Outcome ε ζ) := by
  cases h with
  | ok h => exact hf _ _ h
  | error fault => exact .error fault

/-- The same call, and calls that go on alike from its answer. -/
theorem after {S : γ → ζ → Prop} (x : Outcome ε α) {f : α → Outcome ε γ} {g : α → Outcome ε ζ}
    (hf : ∀ a, (f a).Alike S (g a)) : Alike S (x >>= f : Outcome ε γ) (x >>= g : Outcome ε ζ) :=
  (same x).bind fun a _ hab => hab ▸ hf a

/-- Calls that go on in the same way from related answers are the same call. -/
theorem bind_eq {f : α → Outcome ε γ} {g : β → Outcome ε γ} (h : x.Alike R y)
    (hf : ∀ a b, R a b → f a = g b) : (x >>= f : Outcome ε γ) = y >>= g :=
  (h.bind fun a b hab => hf a b hab ▸ same (f a)).eq

theorem mapCause {f g : ε → δ} (h : x.Alike R y) (hf : f = g) :
    Alike R (x.mapCause f) (y.mapCause g) := by
  subst hf
  cases h with
  | ok h => exact .ok h
  | error fault => exact .error _

end Alike

end RowCodec.Outcome
