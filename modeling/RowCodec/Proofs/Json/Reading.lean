import RowCodec.Json.Tree
import RowCodec.Proofs.Json.Scanning

/-!
# Reading values that were written

A value's text is read as that value. Values contain lists of values, so each fact about all values is proved
for a value from its parts (`Json.induction`), and for the parts of a container by induction on their list.

* `Json.Spaces`, `spaces` -- a value's tokens keep numbers apart, whatever comes after it but another number.
* `Json.Reads`, `reads` -- a value's tokens are read as the value, whatever follows, if the fuel is twice
  their number.
* `parse?_text` -- the text of a value.
-/

namespace RowCodec

namespace Json

/-! ## 1. Values and their parts -/

/-- What holds of every value whose parts it holds of, holds of all values. -/
@[elab_as_elim]
theorem induction {motive : Json → Prop} (null : motive null) (bool : ∀ b, motive (bool b))
    (number : ∀ natural, motive (number natural)) (string : ∀ pieces, motive (string pieces))
    (array : ∀ items, (∀ item ∈ items, motive item) → motive (array items))
    (object : ∀ members, (∀ m ∈ members, motive m.2) → motive (object members)) : ∀ j, motive j
  | .null => null
  | .bool b => bool b
  | .number natural => number natural
  | .string pieces => string pieces
  | .array items => array items fun item hitem =>
      have _ : sizeOf item < sizeOf items := List.sizeOf_lt_of_mem hitem
      induction null bool number string array object item
  | .object members => object members fun m hm =>
      have _ : sizeOf m < sizeOf members := List.sizeOf_lt_of_mem hm
      have _ : sizeOf m.2 < sizeOf m := by
        rw [Prod.mk.sizeOf_spec m.1 m.2]
        omega
      induction null bool number string array object m.2
termination_by j => sizeOf j

/-! ## 2. No two numbers side by side -/

theorem spaced_cons {token : Token} {rest : List Token} (h : token.isNumber = false)
    (hrest : Token.Spaced rest) : Token.Spaced (token :: rest) := by
  refine List.isChain_cons.mpr ⟨fun _ _ hnumber => ?_, hrest⟩
  rw [h] at hnumber
  cases hnumber

/-- The tokens of a value may stand before all that may follow a number. -/
def Spaces (j : Json) : Prop :=
  ∀ rest, Token.Spaced rest → (∀ t ∈ rest.head?, t.isNumber = false) → Token.Spaced (j.tokens ++ rest)

/-- What the tokens of a value are followed by in a container: a separator or a closer. -/
theorem Spaces.before {j : Json} (h : j.Spaces) {token : Token} (htoken : token.isNumber = false)
    {rest : List Token} (hrest : Token.Spaced rest) : Token.Spaced (j.tokens ++ token :: rest) := by
  refine h _ (spaced_cons htoken hrest) ?_
  intro t ht
  cases ht
  exact htoken

theorem spaced_itemTokens {items : List Json} (h : ∀ item ∈ items, item.Spaces) {rest : List Token}
    (hrest : Token.Spaced rest) : Token.Spaced (itemTokens items ++ rest) := by
  induction items with
  | nil => exact spaced_cons rfl hrest
  | cons item items ih =>
      obtain ⟨hitem, hitems⟩ := List.forall_mem_cons.mp h
      cases items with
      | nil =>
          rw [itemTokens, List.append_assoc]
          exact hitem.before rfl hrest
      | cons next items =>
          rw [itemTokens, List.append_assoc, List.cons_append]
          exact hitem.before rfl (ih hitems)

theorem spaced_memberTokens {members : List (List Piece × Json)} (h : ∀ m ∈ members, m.2.Spaces)
    {rest : List Token} (hrest : Token.Spaced rest) : Token.Spaced (memberTokens members ++ rest) := by
  induction members with
  | nil => exact spaced_cons rfl hrest
  | cons m members ih =>
      obtain ⟨hm, hmembers⟩ := List.forall_mem_cons.mp h
      cases members with
      | nil =>
          rw [memberTokens, List.append_assoc, List.cons_append, List.cons_append]
          exact spaced_cons rfl (spaced_cons rfl (hm.before rfl hrest))
      | cons next members =>
          rw [memberTokens, List.append_assoc, List.cons_append, List.cons_append]
          exact spaced_cons rfl (spaced_cons rfl (hm.before rfl (ih hmembers)))

theorem spaces (j : Json) : j.Spaces := by
  induction j using induction with
  | number natural =>
      intro rest hrest hhead
      exact List.isChain_cons.mpr ⟨fun t ht _ => hhead t ht, hrest⟩
  | array items ih =>
      intro rest hrest _
      exact spaced_cons rfl (spaced_itemTokens ih hrest)
  | object members ih =>
      intro rest hrest _
      exact spaced_cons rfl (spaced_memberTokens ih hrest)
  | _ =>
      intro rest hrest _
      exact spaced_cons rfl hrest

/-! ## 3. Reading -/

/-- A value at the front of tokens is read, with fuel for going down twice a token. -/
def Reads (j : Json) : Prop :=
  ∀ fuel rest, 2 * j.tokens.length ≤ fuel + 1 → readValue fuel (j.tokens ++ rest) = some (j, rest)

theorem readItems_itemTokens {items : List Json} (h : ∀ item ∈ items, item.Reads) (hne : items ≠ [])
    (fuel : Nat) (rest : List Token) (hfuel : 2 * (itemTokens items).length ≤ fuel) :
    readItems fuel (itemTokens items ++ rest) = some (items, rest) := by
  induction items generalizing fuel with
  | nil => exact absurd rfl hne
  | cons item items ih =>
      obtain ⟨hitem, hitems⟩ := List.forall_mem_cons.mp h
      cases items with
      | nil =>
          rw [itemTokens, List.length_append] at hfuel
          obtain ⟨fuel, rfl⟩ : ∃ k, fuel = k + 1 := ⟨fuel - 1, by simp at hfuel; omega⟩
          rw [itemTokens, List.append_assoc, readItems, hitem fuel _ (by omega)]
          rfl
      | cons next items =>
          rw [itemTokens, List.length_append, List.length_cons] at hfuel
          obtain ⟨fuel, rfl⟩ : ∃ k, fuel = k + 1 := ⟨fuel - 1, by omega⟩
          rw [itemTokens, List.append_assoc, List.cons_append, readItems, hitem fuel _ (by omega)]
          have hrest := ih hitems (List.cons_ne_nil _ _) fuel (by omega)
          simp [hrest]

theorem readMembers_memberTokens {members : List (List Piece × Json)} (h : ∀ m ∈ members, m.2.Reads)
    (hne : members ≠ []) (fuel : Nat) (rest : List Token)
    (hfuel : 2 * (memberTokens members).length ≤ fuel) :
    readMembers fuel (memberTokens members ++ rest) = some (members, rest) := by
  induction members generalizing fuel with
  | nil => exact absurd rfl hne
  | cons m members ih =>
      obtain ⟨hm, hmembers⟩ := List.forall_mem_cons.mp h
      cases members with
      | nil =>
          rw [memberTokens, List.length_append, List.length_cons, List.length_cons] at hfuel
          obtain ⟨fuel, rfl⟩ : ∃ k, fuel = k + 1 := ⟨fuel - 1, by omega⟩
          rw [memberTokens, List.append_assoc, List.cons_append, List.cons_append, readMembers,
            hm fuel _ (by omega)]
          rfl
      | cons next members =>
          rw [memberTokens, List.length_append, List.length_cons, List.length_cons, List.length_cons] at hfuel
          obtain ⟨fuel, rfl⟩ : ∃ k, fuel = k + 1 := ⟨fuel - 1, by omega⟩
          have hrest := ih hmembers (List.cons_ne_nil _ _) fuel (by omega)
          rw [memberTokens, List.append_assoc, List.cons_append, List.cons_append, List.cons_append,
            readMembers, hm fuel _ (by omega)]
          simp [hrest]

/-- The items of an array do not begin with its closing bracket. -/
theorem exists_itemTokens_cons (item : Json) (items : List Json) :
    ∃ t ts, itemTokens (item :: items) = t :: ts ∧ t ≠ .closeBracket := by
  obtain ⟨t, ts, hcons, ht⟩ : ∃ t ts, item.tokens = t :: ts ∧ t ≠ .closeBracket := by
    cases item <;> exact ⟨_, _, rfl, Token.noConfusion⟩
  cases items with
  | nil => exact ⟨t, ts ++ [.closeBracket], by rw [itemTokens, hcons, List.cons_append], ht⟩
  | cons next rest =>
      exact ⟨t, ts ++ .comma :: itemTokens (next :: rest), by
        rw [itemTokens, hcons, List.cons_append], ht⟩

/-- **A value that was written** is read from the front of any tokens. -/
theorem reads (j : Json) : j.Reads := by
  induction j using induction with
  | array items ih =>
      intro fuel rest hfuel
      rw [tokens, List.length_cons] at hfuel
      obtain ⟨fuel, rfl⟩ : ∃ k, fuel = k + 1 := ⟨fuel - 1, by omega⟩
      rw [tokens, List.cons_append]
      cases items with
      | nil => rfl
      | cons item items =>
          have hitems := readItems_itemTokens ih (List.cons_ne_nil _ _) fuel rest (by omega)
          obtain ⟨t, ts, hcons, ht⟩ := exists_itemTokens_cons item items
          rw [hcons, List.cons_append] at hitems ⊢
          rw [readValue, hitems, Option.map_some]
          -- a bracket closed at once is read as an empty array, which this one is not
          intro rest' heq
          exact ht (List.cons.inj heq).1
  | object members ih =>
      intro fuel rest hfuel
      rw [tokens, List.length_cons] at hfuel
      obtain ⟨fuel, rfl⟩ : ∃ k, fuel = k + 1 := ⟨fuel - 1, by omega⟩
      rw [tokens, List.cons_append]
      cases members with
      | nil => rfl
      | cons m members =>
          have hmembers := readMembers_memberTokens ih (List.cons_ne_nil _ _) fuel rest (by omega)
          obtain ⟨ts, hcons⟩ : ∃ ts, memberTokens (m :: members) = .string m.1 :: ts := by
            cases members <;> exact ⟨_, rfl⟩
          rw [hcons, List.cons_append] at hmembers ⊢
          rw [readValue, hmembers, Option.map_some]
          intro rest' heq
          cases heq
  | _ =>
      intro fuel rest hfuel
      obtain ⟨fuel, rfl⟩ : ∃ k, fuel = k + 1 := ⟨fuel - 1, by simp [tokens] at hfuel; omega⟩
      rfl

theorem ofTokens_tokens (j : Json) : ofTokens j.tokens = some j := by
  have h := reads j (2 * j.tokens.length + 1) [] (by omega)
  rw [List.append_nil] at h
  rw [ofTokens, h]

/-- A value whose strings and numbers can be written as they are. -/
def Written (j : Json) : Prop := ∀ t ∈ j.tokens, t.Written

/-- **The text of a value** is read as the value. -/
theorem parse?_text (controls : Bool) {j : Json} (h : j.Written) : parse? controls j.text = some j := by
  have hspaced : Token.Spaced j.tokens := by
    have := spaces j [] List.IsChain.nil (by simp)
    rwa [List.append_nil] at this
  rw [parse?, text, Token.scan_chars controls h hspaced]
  exact ofTokens_tokens j

end Json

end RowCodec
