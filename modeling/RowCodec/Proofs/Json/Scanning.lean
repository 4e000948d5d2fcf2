import RowCodec.Json.Token
import RowCodec.Proofs.Text.Decimal
import Mathlib.Algebra.Ring.Nat
import Mathlib.Data.List.Chain

/-!
# Scanning what was written

The written form of a token is scanned as that token, whatever follows; of a number, what follows must not
continue it.

* `Piece.Written`, `Token.Written` -- what a writer writes: no character that has to be escaped stands plain,
  and every number has its value.
* `scanString_pieces` -- a string up to its closing quote, one piece a step.
* `scanNumber_toDigits` -- a number, as long as no digit, point or exponent follows (`Stops`).
* `scan_chars` -- a run of tokens, no two of them numbers side by side (`Spaced`).
-/

namespace RowCodec

/-! ## 1. Hexadecimal digits -/

namespace Hex

theorem digit?_digit : ∀ n < 16, digit? (digit n) = some n := by decide

theorem toNat?_append_digit (cs : List Char) {n : Nat} (hn : n < 16) :
    toNat? (cs ++ [digit n]) = (toNat? cs).map fun high => 16 * high + n := by
  unfold toNat?
  rw [List.foldl_append]
  cases cs.foldl _ (some 0) with
  | none => rfl
  | some high => simp [digit?_digit n hn]

/-- The last digits of a number are its remainder. -/
theorem toNat?_digits (width n : Nat) : toNat? (digits width n) = some (n % 16 ^ width) := by
  induction width generalizing n with
  | zero => simp [digits, toNat?, Nat.mod_one]
  | succ width ih =>
      rw [digits, toNat?_append_digit _ (Nat.mod_lt n (by decide)), ih, Option.map_some,
        Nat.pow_succ, Nat.mul_comm (16 ^ width) 16, Nat.mod_mul, Nat.add_comm]

end Hex

/-! ## 2. Strings -/

namespace Piece

/-- A piece as it is written: nothing plain that has to be escaped, no unknown escape, no unit of more than
    16 bits. -/
def Written : Piece → Prop
  | plain c => c ≠ '"' ∧ c ≠ '\\' ∧ isControl c = false
  | short letter => (shortEscape? letter).isSome
  | unit n => n < 0x10000

theorem written_ofChar (c : Char) : (ofChar c).Written := by
  unfold ofChar
  split
  all_goals try exact rfl
  rename_i hquote hbackslash _ _ _ _ _
  split
  · rename_i hc
    have hlow : c.toNat < 0x20 := by simpa [isControl] using hc
    exact Nat.lt_trans hlow (by decide)
  · rename_i hc
    exact ⟨hquote, hbackslash, by simpa using hc⟩

end Piece

namespace Token

theorem scanString_plain {controls : Bool} {c : Char} (hquote : c ≠ '"') (hbackslash : c ≠ '\\')
    (hcontrol : Piece.isControl c = false) (rest : List Char) :
    scanString controls (c :: rest) =
      (scanString controls rest).map fun (pieces, rest) => (.plain c :: pieces, rest) := by
  -- no quote and no backslash, so none of the patterns before the last one matches
  rw [scanString.eq_def]
  split
  case h_5 heq =>
    obtain ⟨rfl, rfl⟩ := List.cons.inj heq
    rw [if_neg (by simp [hbackslash, hcontrol])]
    cases scanString controls rest <;> rfl
  all_goals simp_all

theorem scanString_short {controls : Bool} {letter : Char} (h : (Piece.shortEscape? letter).isSome)
    (rest : List Char) : scanString controls ('\\' :: letter :: rest) =
      (scanString controls rest).map fun (pieces, rest) => (.short letter :: pieces, rest) := by
  -- a backslash and a u begin a unit, which is tried first
  have hu : letter ≠ 'u' := by
    intro hu
    subst hu
    exact absurd h (by decide)
  rw [scanString.eq_def]
  split
  case h_4 heq =>
    obtain ⟨rfl, rfl⟩ := List.cons.inj (List.cons.inj heq).2
    rw [if_pos h]
    cases scanString controls rest <;> rfl
  case h_5 hescape heq =>
    obtain ⟨rfl, rfl⟩ := List.cons.inj heq
    exact absurd rfl (hescape letter rest rfl)
  all_goals simp_all

theorem scanString_unit {controls : Bool} {n : Nat} (h : n < 0x10000) (rest : List Char) :
    scanString controls ('\\' :: 'u' :: Hex.digits 4 n ++ rest) =
      (scanString controls rest).map fun (pieces, rest) => (.unit n :: pieces, rest) := by
  have hn : Hex.toNat? (Hex.digits 4 n) = some n :=
    (Hex.toNat?_digits 4 n).trans (congrArg some (Nat.mod_eq_of_lt h))
  obtain ⟨a, b, c, d, hdigits⟩ : ∃ a b c d, Hex.digits 4 n = [a, b, c, d] := ⟨_, _, _, _, rfl⟩
  rw [hdigits] at hn ⊢
  show scanString controls ('\\' :: 'u' :: a :: b :: c :: d :: rest) = _
  rw [scanString, hn]
  cases scanString controls rest <;> rfl

/-- One piece of a string. -/
theorem scanString_piece {controls : Bool} {piece : Piece} (h : piece.Written) (rest : List Char) :
    scanString controls (pieceChars piece ++ rest) =
      (scanString controls rest).map fun (pieces, rest) => (piece :: pieces, rest) := by
  cases piece with
  | plain c => exact scanString_plain h.1 h.2.1 h.2.2 rest
  | short letter => exact scanString_short h rest
  | unit n => exact scanString_unit h rest

/-- A string, up to its closing quote. -/
theorem scanString_pieces {controls : Bool} {pieces : List Piece} (h : ∀ p ∈ pieces, p.Written)
    (rest : List Char) :
    scanString controls (pieces.flatMap pieceChars ++ '"' :: rest) = some (pieces, rest) := by
  induction pieces with
  | nil => rfl
  | cons piece pieces ih =>
      obtain ⟨hpiece, hpieces⟩ := List.forall_mem_cons.mp h
      rw [List.flatMap_cons, List.append_assoc, scanString_piece hpiece, ih hpieces, Option.map_some]

/-! ## 3. Numbers -/

/-- The characters do not continue a number before them. -/
def Stops (cs : List Char) : Prop :=
  ∀ c ∈ cs.head?, c.isDigit = false ∧ c ≠ '.' ∧ c ≠ 'e' ∧ c ≠ 'E'

namespace Stops

variable {rest : List Char} (h : Stops rest)

include h

theorem noDigitFirst : NoDigitFirst rest := fun c hc => (h c hc).1

theorem scanFraction : scanFraction rest = some (false, rest) := by
  cases rest with
  | nil => rfl
  | cons c rest =>
      obtain ⟨-, hpoint, -⟩ := h c rfl
      unfold Token.scanFraction
      split
      case h_1 heq => exact absurd (List.cons.inj heq).1 hpoint
      case h_2 => rfl

theorem scanExponent : scanExponent rest = some (false, rest) := by
  cases rest with
  | nil => rfl
  | cons c rest =>
      obtain ⟨-, -, hlower, hupper⟩ := h c rfl
      simp [Token.scanExponent, hlower, hupper]

end Stops

theorem scanDigits_toDigits (n : Nat) {rest : List Char} (h : NoDigitFirst rest) :
    scanDigits (Nat.toDigits 10 n ++ rest) = some (Nat.toDigits 10 n, rest) := by
  unfold scanDigits
  rw [takeWhile_toDigits n h, dropWhile_toDigits n h]
  split
  case h_1 hnil => exact absurd hnil Nat.toDigits_ne_nil
  case h_2 => rfl

theorem scanInteger_toDigits (n : Nat) {rest : List Char} (h : NoDigitFirst rest) :
    scanInteger (Nat.toDigits 10 n ++ rest) = some (Nat.toDigits 10 n, rest) := by
  by_cases hn : n = 0
  · rw [hn, Nat.toDigits_zero]
    rfl
  · rw [← scanDigits_toDigits n h]
    obtain ⟨c, cs, hcons, -, hzero⟩ := exists_toDigits_cons n
    rw [hcons, List.cons_append]
    unfold scanInteger
    split
    case h_1 heq => exact absurd (hzero (List.cons.inj heq).1) hn
    case h_2 => rfl

/-- A number, up to what does not continue it. -/
theorem scanNumber_toDigits (n : Nat) {rest : List Char} (h : Stops rest) :
    scanNumber (Nat.toDigits 10 n ++ rest) = some (some n, rest) := by
  obtain ⟨c, cs, hcons, hdigit, -⟩ := exists_toDigits_cons n
  have hsign : c ≠ '-' := by
    intro hc
    subst hc
    cases hdigit
  have hinteger := scanInteger_toDigits n h.noDigitFirst
  have hvalue : ofDigits (Nat.toDigits 10 n) = n := Nat.ofDigitChars_ten_toDigits
  rw [hcons, List.cons_append] at hinteger ⊢
  unfold scanNumber
  split
  rename_i negative cs' hmatch
  split at hmatch
  case h_1 heq => exact absurd (List.cons.inj heq).1 hsign
  case h_2 =>
    obtain ⟨rfl, rfl⟩ := Prod.mk.inj hmatch
    rw [hcons] at hvalue
    simp [hinteger, h.scanFraction, h.scanExponent, hvalue]

/-- A text that begins with a digit is scanned as a number. -/
theorem scanOne_digit (controls : Bool) {c : Char} (hc : c.isDigit = true) (cs : List Char) :
    scanOne controls (c :: cs) =
      (scanNumber (c :: cs)).map fun (natural, rest) => (number natural, rest) := by
  unfold scanOne
  split
  case h_11 => rfl
  all_goals
    rename_i heq
    rw [(List.cons.inj heq).1] at hc
    exact absurd hc (by decide)

/-! ## 4. Tokens -/

/-- A token as it is written: numbers have their value, strings are written piece by piece. -/
def Written : Token → Prop
  | number natural => natural.isSome
  | string pieces => ∀ p ∈ pieces, p.Written
  | _ => True

/-- Whether a token is a number, which only some characters end. -/
def isNumber : Token → Bool
  | number _ => true
  | _ => false

/-- No two numbers stand side by side. -/
def Spaced : List Token → Prop := List.IsChain fun a b => a.isNumber = true → b.isNumber = false

/-- One token. -/
theorem scanOne_chars (controls : Bool) {token : Token} (h : token.Written) {rest : List Char}
    (hrest : token.isNumber = true → Stops rest) :
    scanOne controls (token.chars ++ rest) = some (token, rest) := by
  cases token with
  | number natural =>
      obtain ⟨n, rfl⟩ := Option.isSome_iff_exists.mp h
      obtain ⟨c, cs, hcons, hdigit, -⟩ := exists_toDigits_cons n
      show scanOne controls ((toString n).toList ++ rest) = _
      have hnumber := scanNumber_toDigits n (hrest rfl)
      rw [toList_toString]
      rw [hcons, List.cons_append] at hnumber ⊢
      rw [scanOne_digit controls hdigit, hnumber, Option.map_some]
  | string pieces =>
      show (scanString controls ((pieces.flatMap pieceChars ++ ['"']) ++ rest)).map _ = _
      rw [List.append_assoc, List.singleton_append, scanString_pieces h, Option.map_some]
  | bool b => cases b <;> rfl
  | _ => rfl

theorem exists_chars_cons (token : Token) : ∃ c cs, token.chars = c :: cs ∧ isBlank c = false := by
  cases token with
  | number natural =>
      obtain ⟨c, cs, hcons, hdigit, -⟩ := exists_toDigits_cons (natural.getD 0)
      refine ⟨c, cs, ?_, ?_⟩
      · rw [← hcons, ← toList_toString]
        rfl
      · by_contra hblank
        simp only [isBlank, Bool.not_eq_false, Bool.or_eq_true, decide_eq_true_eq] at hblank
        rcases hblank with ((rfl | rfl) | rfl) | rfl <;> cases hdigit
  | bool b => cases b <;> exact ⟨_, _, rfl, by decide⟩
  | _ => exact ⟨_, _, rfl, by decide⟩

/-- Only a number continues a number. -/
theorem stops_chars {token : Token} (h : token.isNumber = false) (rest : List Char) :
    Stops (token.chars ++ rest) := by
  intro c hc
  cases token with
  | number natural => cases h
  | bool b =>
      cases b
      all_goals
        cases hc
        decide
  | _ =>
      cases hc
      decide

theorem Spaced.stops {token : Token} {tokens : List Token} (h : Spaced (token :: tokens))
    (hnumber : token.isNumber = true) : Stops (tokens.flatMap chars) := by
  cases tokens with
  | nil =>
      intro c hc
      cases hc
  | cons next tokens =>
      rw [List.flatMap_cons]
      exact stops_chars ((List.isChain_cons_cons.mp h).1 hnumber) _

/-- A run of tokens. -/
theorem scanAll_chars (controls : Bool) {tokens : List Token} (h : ∀ t ∈ tokens, t.Written)
    (hspaced : Spaced tokens) {fuel : Nat} (hfuel : (tokens.flatMap chars).length ≤ fuel) :
    scanAll controls fuel (tokens.flatMap chars) = some tokens := by
  induction tokens generalizing fuel with
  | nil => cases fuel <;> rfl
  | cons token tokens ih =>
      obtain ⟨htoken, htokens⟩ := List.forall_mem_cons.mp h
      obtain ⟨c, cs, hcons, hblank⟩ := exists_chars_cons token
      have hone := scanOne_chars controls htoken hspaced.stops
      rw [List.flatMap_cons, hcons, List.cons_append] at hfuel ⊢
      rw [hcons, List.cons_append] at hone
      cases fuel with
      | zero => cases hfuel
      | succ fuel =>
          have hrest : (tokens.flatMap chars).length ≤ fuel := by
            simp only [List.length_cons, List.length_append] at hfuel
            omega
          simp [scanAll, hblank, hone, ih htokens (List.isChain_cons.mp hspaced).2 hrest]

/-- **A text made of written tokens** is scanned as these tokens. -/
theorem scan_chars (controls : Bool) {tokens : List Token} (h : ∀ t ∈ tokens, t.Written)
    (hspaced : Spaced tokens) : scan controls (String.ofList (tokens.flatMap chars)) = some tokens := by
  unfold scan
  rw [String.toList_ofList]
  exact scanAll_chars controls h hspaced (by rw [String.length_ofList])

end Token

end RowCodec
