import RowCodec.Json.Layout
import RowCodec.Proofs.Text.Decimal
import Mathlib.Data.List.Basic

/-!
# Names of column types

A type is shown by its name, a bit mask with its width.

* `mem_plainTypes` -- every type but the bit masks is one of the types whose name says all.
* `text_injective` -- a type can be read off its text, and no comma stands in one (`comma_notMem_text`).
-/

namespace RowCodec

namespace ColumnType

theorem mem_plainTypes (type : ColumnType) :
    type ∈ plainTypes ∨ ∃ bits, type = .bitmask bits := by
  cases type with
  | bitmask bits => exact Or.inr ⟨bits, rfl⟩
  | number kind => cases kind <;> exact Or.inl (by decide)
  | uuid => exact Or.inl (by decide)
  | utf8 => exact Or.inl (by decide)
  | blob => exact Or.inl (by decide)

theorem toList_text_bitmask (bits : UInt32) : (bitmask bits).text.toList =
    "Bitmask(".toList ++ (Nat.toDigits 10 bits.toNat ++ [')']) := by
  show ("Bitmask(" ++ toString bits.toNat ++ ")").toList = _
  rw [String.toList_append, String.toList_append, toList_toString, List.append_assoc]
  rfl

/-- A type's text tells the type. -/
theorem text_injective : Function.Injective text := by
  have hplain : ∀ a ∈ plainTypes, ∀ b ∈ plainTypes, a.text = b.text → a = b := by decide
  have hmask : ∀ a ∈ plainTypes, a.text.toList.take 2 ≠ ['B', 'i'] := by decide
  have htake : ∀ bits, (bitmask bits).text.toList.take 2 = ['B', 'i'] := by
    intro bits
    rw [toList_text_bitmask]
    rfl
  intro a b h
  rcases mem_plainTypes a with ha | ⟨m, rfl⟩
  · rcases mem_plainTypes b with hb | ⟨n, rfl⟩
    · exact hplain a ha b hb h
    · exact absurd (h ▸ htake n) (hmask a ha)
  · rcases mem_plainTypes b with hb | ⟨n, rfl⟩
    · exact absurd (h ▸ htake m) (hmask b hb)
    · have hlist := congrArg String.toList h
      rw [toList_text_bitmask, toList_text_bitmask] at hlist
      obtain ⟨hmn, _⟩ := toDigits_append_inj (noDigitFirst_cons (by decide))
        (noDigitFirst_cons (by decide)) (List.append_cancel_left hlist)
      rw [UInt32.toNat_inj.mp hmn]

/-- No comma stands in a type's text. -/
theorem comma_notMem_text (type : ColumnType) : ',' ∉ type.text.toList := by
  have hplain : ∀ a ∈ plainTypes, ',' ∉ a.text.toList := by decide
  rcases mem_plainTypes type with ha | ⟨bits, rfl⟩
  · exact hplain type ha
  · rw [toList_text_bitmask]
    intro hmem
    rcases List.mem_append.mp hmem with h | h
    · exact absurd h (by decide)
    · rcases List.mem_append.mp h with h | h
      · exact absurd (isDigit_of_mem _ h) (by decide)
      · exact absurd h (by decide)

end ColumnType

end RowCodec
