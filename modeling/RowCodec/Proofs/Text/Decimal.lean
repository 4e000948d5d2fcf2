import Mathlib.Data.List.TakeWhile

/-!
# Decimal numbers in texts

A number is written as the run of its digits. What follows the run is told apart from it as long as it does
not begin with a digit itself.

* `NoDigitFirst` -- a text that may follow a number.
* `takeWhile_toDigits`, `dropWhile_toDigits` -- the run of digits is the number's, and what is left is what
  followed.
* `exists_toDigits_cons` -- a number begins with a digit, and only zero with a zero.
* `number_append_inj` -- texts that begin with numbers are equal only if the numbers are; `number_sep_inj` is
  the form of it for a fixed text behind the number (`EndsNumber`).
-/

namespace RowCodec

/-- The characters do not begin with a digit. -/
def NoDigitFirst (cs : List Char) : Prop := ∀ c ∈ cs.head?, c.isDigit = false

theorem noDigitFirst_cons {c : Char} {rest : List Char} (h : c.isDigit = false) :
    NoDigitFirst (c :: rest) := by
  intro d hd
  cases hd
  exact h

variable {rest s t : List Char}

theorem NoDigitFirst.takeWhile_eq (h : NoDigitFirst rest) : rest.takeWhile Char.isDigit = [] := by
  cases rest with
  | nil => rfl
  | cons c rest => exact List.takeWhile_cons_of_neg (by rw [h c rfl]; exact Bool.false_ne_true)

theorem NoDigitFirst.dropWhile_eq (h : NoDigitFirst rest) : rest.dropWhile Char.isDigit = rest := by
  cases rest with
  | nil => rfl
  | cons c rest => exact List.dropWhile_cons_of_neg (by rw [h c rfl]; exact Bool.false_ne_true)

theorem isDigit_of_mem {n : Nat} : ∀ c ∈ Nat.toDigits 10 n, c.isDigit = true :=
  fun _ hc => Nat.isDigit_of_mem_toDigits (by decide) (by decide) hc

theorem takeWhile_toDigits (n : Nat) (h : NoDigitFirst rest) :
    (Nat.toDigits 10 n ++ rest).takeWhile Char.isDigit = Nat.toDigits 10 n := by
  rw [List.takeWhile_append_of_pos isDigit_of_mem, h.takeWhile_eq, List.append_nil]

theorem dropWhile_toDigits (n : Nat) (h : NoDigitFirst rest) :
    (Nat.toDigits 10 n ++ rest).dropWhile Char.isDigit = rest := by
  rw [List.dropWhile_append_of_pos isDigit_of_mem, h.dropWhile_eq]

theorem toDigits_append_inj {m n : Nat} (hs : NoDigitFirst s) (ht : NoDigitFirst t)
    (h : Nat.toDigits 10 m ++ s = Nat.toDigits 10 n ++ t) : m = n ∧ s = t := by
  have hdigits := congrArg (List.takeWhile Char.isDigit) h
  have hrest := congrArg (List.dropWhile Char.isDigit) h
  rw [takeWhile_toDigits m hs, takeWhile_toDigits n ht] at hdigits
  rw [dropWhile_toDigits m hs, dropWhile_toDigits n ht] at hrest
  refine ⟨?_, hrest⟩
  rw [← Nat.ofDigitChars_ten_toDigits (n := m), hdigits, Nat.ofDigitChars_ten_toDigits]

theorem toList_toString (n : Nat) : (toString n).toList = Nat.toDigits 10 n := by
  rw [Nat.toString_eq_ofList_toDigits, String.toList_ofList]

/-- A number is written with a digit in front, and only zero with a zero. -/
theorem exists_toDigits_cons (n : Nat) :
    ∃ c cs, Nat.toDigits 10 n = c :: cs ∧ c.isDigit = true ∧ (c = '0' → n = 0) := by
  induction n using Nat.strongRecOn with
  | ind n ih =>
      by_cases hn : n < 10
      · rw [Nat.toDigits_of_lt_base hn]
        refine ⟨_, [], rfl, ?_, Nat.digitChar_eq_zero.mp⟩
        rw [Nat.isDigit_digitChar, decide_eq_true hn]
      · obtain ⟨c, cs, hcons, hdigit, hzero⟩ := ih (n / 10) (by omega)
        rw [Nat.toDigits_of_base_le (by decide) (Nat.le_of_not_lt hn), hcons, List.cons_append]
        refine ⟨c, _, rfl, hdigit, ?_⟩
        intro hc
        have := hzero hc
        omega

/-- **A number at the front of a text** can be read off it, if what follows does not begin with a digit. -/
theorem number_append_inj {m n : Nat} {s t : String} (hs : NoDigitFirst s.toList)
    (ht : NoDigitFirst t.toList) (h : toString m ++ s = toString n ++ t) : m = n ∧ s = t := by
  have hlist := congrArg String.toList h
  rw [String.toList_append, String.toList_append, toList_toString, toList_toString] at hlist
  obtain ⟨hmn, hst⟩ := toDigits_append_inj hs ht hlist
  exact ⟨hmn, String.toList_inj.mp hst⟩

/-- A text whose first character ends a number before it. -/
def EndsNumber (sep : String) : Prop := (sep.toList.head?.any fun c => !c.isDigit) = true

instance (sep : String) : Decidable (EndsNumber sep) := inferInstanceAs (Decidable (_ = true))

theorem EndsNumber.noDigitFirst {sep : String} (h : EndsNumber sep) (s : String) :
    NoDigitFirst (sep ++ s).toList := by
  unfold EndsNumber at h
  rw [String.toList_append]
  cases hsep : sep.toList with
  | nil =>
      rw [hsep] at h
      cases h
  | cons c rest =>
      rw [hsep] at h
      exact noDigitFirst_cons (by simpa using h)

/-- A number, what ends it, and what follows. -/
theorem number_sep_inj {m n : Nat} {sep s t : String} (hsep : EndsNumber sep)
    (h : toString m ++ (sep ++ s) = toString n ++ (sep ++ t)) : m = n ∧ s = t := by
  obtain ⟨hmn, hst⟩ := number_append_inj (hsep.noDigitFirst s) (hsep.noDigitFirst t) h
  exact ⟨hmn, (String.append_right_inj sep).mp hst⟩

theorem number_inj {m n : Nat} (h : toString m = toString n) : m = n := by
  have hlist := congrArg String.toList h
  rw [toList_toString, toList_toString] at hlist
  rw [← Nat.ofDigitChars_ten_toDigits (n := m), hlist, Nat.ofDigitChars_ten_toDigits]

end RowCodec
