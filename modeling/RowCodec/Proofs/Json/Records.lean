import RowCodec.Json.Fields
import RowCodec.Proofs.Json.Reading

/-!
# Records that were written

What a reader needs to find the value that was written: the text of a string, the fields of a record by their
names, and enough containers left to open.

* `Json.depth` -- the number of containers that a value opens one inside the other.
* `Json.Restores` -- a written value is read back by a reader exactly if it may open that many containers.
* `fields?_ofMembers` -- the fields of a record whose names differ.
* `Restores.list`, `Restores.optional`, `Restores.record` -- lists, fields that may be missing, and records, each
  from the values it contains.
-/

namespace RowCodec

theorem mapM_map_of_forall {α β γ : Type} {l : List α} {f : α → β} {g : β → Option γ} {k : α → γ}
    (h : ∀ a ∈ l, g (f a) = some (k a)) : (l.map f).mapM g = some (l.map k) := by
  induction l with
  | nil => rfl
  | cons a l ih =>
      obtain ⟨ha, hl⟩ := List.forall_mem_cons.mp h
      rw [List.map_cons, List.mapM_cons, ha, ih hl]
      rfl

theorem mapM_map_self {α β : Type} {l : List α} {f : α → β} {g : β → Option α}
    (h : ∀ a ∈ l, g (f a) = some a) : (l.map f).mapM g = some l := by
  rw [mapM_map_of_forall (k := id) h, List.map_id]

theorem mapM_map_self_iff {α β : Type} {l : List α} {f : α → β} {g : β → Option α} :
    (l.map f).mapM g = some l ↔ ∀ a ∈ l, g (f a) = some a := by
  refine ⟨fun h => ?_, mapM_map_self⟩
  induction l with
  | nil => exact List.forall_mem_nil _
  | cons a l ih =>
      rw [List.map_cons, List.mapM_cons] at h
      obtain ⟨first, hfirst, h⟩ := Option.bind_eq_some_iff.mp h
      obtain ⟨rest, hrest, h⟩ := Option.bind_eq_some_iff.mp h
      cases h
      exact List.forall_mem_cons.mpr ⟨hfirst, ih hrest⟩

/-! ## 1. Texts -/

namespace Piece

theorem codePoints_cons {piece : Piece} (h : ∀ n, piece = unit n → isHighSurrogate n = false)
    (pieces : List Piece) : codePoints (piece :: pieces) = piece.code :: codePoints pieces := by
  rw [codePoints.eq_def]
  split
  case h_1 heq => cases heq
  case h_2 high low rest heq =>
    obtain ⟨rfl, rfl⟩ := List.cons.inj heq
    rw [h high rfl]
    rfl
  case h_3 heq =>
    obtain ⟨rfl, rfl⟩ := List.cons.inj heq
    rfl

theorem code_ofChar (c : Char) : (ofChar c).code = c.toNat := by
  unfold ofChar
  split
  all_goals try rfl
  split <;> rfl

/-- Only control characters are written as units. -/
theorem lt_of_ofChar_eq_unit {c : Char} {n : Nat} (h : ofChar c = unit n) : n < 0x20 := by
  unfold ofChar at h
  split at h
  case h_8 =>
    split at h
    case isTrue hc =>
      cases h
      simpa [isControl] using hc
    case isFalse => cases h
  all_goals cases h

theorem isHighSurrogate_of_lt {n : Nat} (h : n < 0x20) : isHighSurrogate n = false := by
  simp only [isHighSurrogate, Bool.and_eq_false_iff, decide_eq_false_iff_not]
  omega

theorem codePoints_ofText (cs : List Char) : codePoints (cs.map ofChar) = cs.map Char.toNat := by
  induction cs with
  | nil => rfl
  | cons c cs ih =>
      have hpair : ∀ n, ofChar c = unit n → isHighSurrogate n = false :=
        fun _ h => isHighSurrogate_of_lt (lt_of_ofChar_eq_unit h)
      rw [List.map_cons, codePoints_cons hpair, code_ofChar, ih, List.map_cons]

theorem char?_toNat (c : Char) : char? c.toNat = some c := by
  have hvalid : c.toNat.isValidChar := c.valid
  rw [char?, if_pos hvalid, Char.ofNat_toNat]

/-- A text is read off its written form. -/
theorem toText?_ofText (text : String) : toText? (ofText text) = some text := by
  have hchars := mapM_map_self fun c (_ : c ∈ text.toList) => char?_toNat c
  rw [toText?, ofText, codePoints_ofText, hchars, Option.map_some, String.ofList_toList]

end Piece

namespace Json

/-! ## 2. Depth -/

mutual

/-- The number of containers that a value opens one inside the other. -/
def depth : Json → Nat
  | array items => itemsDepth items + 1
  | object members => membersDepth members + 1
  | _ => 0

/-- The greatest depth of an array's items. -/
def itemsDepth : List Json → Nat
  | [] => 0
  | item :: rest => max item.depth (itemsDepth rest)

/-- The greatest depth of an object's values. -/
def membersDepth : List (List Piece × Json) → Nat
  | [] => 0
  | (_, value) :: rest => max value.depth (membersDepth rest)

end

theorem itemsDepth_le {items : List Json} {n : Nat} :
    itemsDepth items ≤ n ↔ ∀ item ∈ items, item.depth ≤ n := by
  induction items with
  | nil => simp [itemsDepth]
  | cons item items ih => rw [itemsDepth, Nat.max_le, ih, List.forall_mem_cons]

theorem membersDepth_le {members : List (List Piece × Json)} {n : Nat} :
    membersDepth members ≤ n ↔ ∀ m ∈ members, m.2.depth ≤ n := by
  induction members with
  | nil => simp [membersDepth]
  | cons m members ih => rw [membersDepth, Nat.max_le, ih, List.forall_mem_cons]

theorem depth_array_le {items : List Json} {n : Nat} :
    (array items).depth ≤ n + 1 ↔ ∀ item ∈ items, item.depth ≤ n := by
  rw [depth, Nat.succ_le_succ_iff, itemsDepth_le]

theorem depth_ofMembers_le {members : List (String × Json)} {n : Nat} :
    (ofMembers members).depth ≤ n + 1 ↔ ∀ m ∈ members, m.2.depth ≤ n := by
  rw [ofMembers, depth, Nat.succ_le_succ_iff, membersDepth_le, List.forall_mem_map]

/-! ## 3. What is written as it is -/

theorem written_ofText (text : String) : (ofText text).Written := by
  intro t ht
  cases List.mem_singleton.mp ht
  intro piece hpiece
  obtain ⟨c, _, rfl⟩ := List.mem_map.mp hpiece
  exact Piece.written_ofChar c

theorem written_ofNat (n : Nat) : (ofNat n).Written := by
  intro t ht
  cases List.mem_singleton.mp ht
  rfl

theorem written_itemTokens {items : List Json} (h : ∀ item ∈ items, item.Written) :
    ∀ t ∈ itemTokens items, t.Written := by
  induction items with
  | nil => exact List.forall_mem_singleton.mpr trivial
  | cons item items ih =>
      obtain ⟨hitem, hitems⟩ := List.forall_mem_cons.mp h
      cases items with
      | nil => exact List.forall_mem_append.mpr ⟨hitem, List.forall_mem_singleton.mpr trivial⟩
      | cons next items =>
          exact List.forall_mem_append.mpr ⟨hitem, List.forall_mem_cons.mpr ⟨trivial, ih hitems⟩⟩

theorem written_array {items : List Json} (h : ∀ item ∈ items, item.Written) : (array items).Written :=
  List.forall_mem_cons.mpr ⟨trivial, written_itemTokens h⟩

theorem written_memberTokens {members : List (String × Json)} (h : ∀ m ∈ members, m.2.Written) :
    ∀ t ∈ memberTokens (members.map fun m => (Piece.ofText m.1, m.2)), t.Written := by
  induction members with
  | nil => exact List.forall_mem_singleton.mpr trivial
  | cons m members ih =>
      obtain ⟨hm, hmembers⟩ := List.forall_mem_cons.mp h
      have hname : Token.Written (.string (Piece.ofText m.1)) := written_ofText m.1 _ List.mem_cons_self
      have hfront : ∀ t ∈ Token.string (Piece.ofText m.1) :: .colon :: m.2.tokens, t.Written :=
        List.forall_mem_cons.mpr ⟨hname, List.forall_mem_cons.mpr ⟨trivial, hm⟩⟩
      cases members with
      | nil => exact List.forall_mem_append.mpr ⟨hfront, List.forall_mem_singleton.mpr trivial⟩
      | cons next members =>
          exact List.forall_mem_append.mpr ⟨hfront, List.forall_mem_cons.mpr ⟨trivial, ih hmembers⟩⟩

theorem written_ofMembers {members : List (String × Json)} (h : ∀ m ∈ members, m.2.Written) :
    (ofMembers members).Written :=
  List.forall_mem_cons.mpr ⟨trivial, written_memberTokens h⟩

/-! ## 4. Fields -/

theorem uniqueMember_of_mem {members : List (String × Json)} (hnames : (members.map (·.1)).Nodup)
    {m : String × Json} (hm : m ∈ members) : uniqueMember members m.1 = some (some m.2) := by
  have hfilter : members.filter (fun k => k.1 = m.1) = [m] := by
    induction members with
    | nil => cases hm
    | cons first members ih =>
        obtain ⟨hfirst, hnames⟩ := List.nodup_cons.mp hnames
        rcases List.mem_cons.mp hm with rfl | hm
        · have hothers : ∀ k ∈ members, ¬decide (k.1 = m.1) = true := by
            intro k hk hname
            exact hfirst (List.mem_map.mpr ⟨k, hk, of_decide_eq_true hname⟩)
          rw [List.filter_cons, if_pos (decide_eq_true rfl), List.filter_eq_nil_iff.mpr hothers]
        · have hother : ¬decide (first.1 = m.1) = true := by
            intro hname
            exact hfirst (List.mem_map.mpr ⟨m, hm, (of_decide_eq_true hname).symm⟩)
          rw [List.filter_cons, if_neg hother, ih hnames hm]
  rw [uniqueMember, hfilter]

/-- The fields of a record, in the order of their names. -/
theorem fields?_ofMembers {members : List (String × Json)} {names : List String}
    (h : members.map (·.1) = names) (hnames : names.Nodup) :
    fields? names (ofMembers members) = some (members.map fun m => some m.2) := by
  subst h
  have hread : ∀ m ∈ members, (Piece.toText? (Piece.ofText m.1)).bind (fun name => some (name, m.2)) =
      some m := by
    intro m _
    rw [Piece.toText?_ofText]
    rfl
  have hmembers := mapM_map_self (f := fun m : String × Json => (Piece.ofText m.1, m.2))
    (g := fun m : List Piece × Json => (Piece.toText? m.1).bind fun name => some (name, m.2)) hread
  have hunique := mapM_map_of_forall fun m hm => uniqueMember_of_mem hnames hm
  calc fields? (members.map (·.1)) (ofMembers members)
      = (some members).bind fun read => (members.map (·.1)).mapM (uniqueMember read) := by
        rw [← hmembers]
        rfl
    _ = some (members.map fun m => some m.2) := hunique

/-! ## 5. Readers -/

/-- A value is written as it is, and read back by a reader if and only if the reader may open as many
    containers as the value has. -/
structure Restores {α : Type} (write : α → Json) (read : Nat → Json → Option α) (a : α) : Prop where
  written : (write a).Written
  read_iff : ∀ depth, read depth (write a) = some a ↔ (write a).depth ≤ depth

theorem restores_text (text : String) : Restores ofText (fun _ => toText?) text where
  written := written_ofText text
  read_iff depth := iff_of_true (Piece.toText?_ofText text) (Nat.zero_le depth)

theorem restores_nat {bound n : Nat} (h : n ≤ bound) : Restores ofNat (fun _ => toNat? bound) n where
  written := written_ofNat n
  read_iff depth := iff_of_true (if_pos h) (Nat.zero_le depth)

theorem restores_bool (b : Bool) : Restores bool (fun _ => toBool?) b where
  written := List.forall_mem_singleton.mpr trivial
  read_iff depth := iff_of_true rfl (Nat.zero_le depth)

section

variable {α : Type} {write : α → Json} {read : Nat → Json → Option α}

theorem Restores.list {l : List α} (h : ∀ a ∈ l, Restores write read a) :
    Restores (fun l => array (l.map write)) (toList? read) l where
  written := written_array (List.forall_mem_map.mpr fun a ha => (h a ha).written)
  read_iff depth := by
    cases depth with
    | zero => exact iff_of_false (fun hread => by cases hread) (Nat.not_succ_le_zero _)
    | succ depth =>
        rw [depth_array_le, List.forall_mem_map, toList?, mapM_map_self_iff]
        exact forall₂_congr fun a ha => (h a ha).read_iff depth

/-- A field that may be missing, of values that are not written as null. -/
theorem Restores.optional {o : Option α} (h : ∀ a ∈ o, Restores write read a)
    (hnull : ∀ a, write a ≠ null) :
    Restores (ofOption write) (fun depth j => Json.optional (read depth) (some j)) o := by
  cases o with
  | none => exact ⟨List.forall_mem_singleton.mpr trivial, fun depth => iff_of_true rfl (Nat.zero_le depth)⟩
  | some a =>
      refine ⟨(h a rfl).written, ?_⟩
      intro depth
      have hsome : Json.optional (read depth) (some (write a)) = (read depth (write a)).map some := by
        unfold Json.optional
        split
        case h_1 heq => cases heq
        case h_2 heq => exact absurd (Option.some.inj heq) (hnull a)
        case h_3 heq =>
          cases heq
          rfl
      calc Json.optional (read depth) (some (write a)) = some (some a)
          ↔ read depth (write a) = some a := by
            rw [hsome, Option.map_eq_some_iff]
            simp
        _ ↔ (write a).depth ≤ depth := (h a rfl).read_iff depth

/-- A record with a reader that opens it, finds its fields, and reads them. -/
theorem Restores.record {a : α} {members : List (String × Json)} (names : List String)
    (hwrite : write a = ofMembers members) (hnames : members.map (·.1) = names) (hapart : names.Nodup)
    (hwritten : ∀ m ∈ members, m.2.Written) (hclosed : ∀ j, read 0 j = none)
    (hread : ∀ depth j, fields? names j = some (members.map fun m => some m.2) →
      (read (depth + 1) j = some a ↔ ∀ m ∈ members, m.2.depth ≤ depth)) :
    Restores write read a where
  written := hwrite ▸ written_ofMembers hwritten
  read_iff depth := by
    rw [hwrite]
    cases depth with
    | zero =>
        rw [hclosed]
        exact iff_of_false (fun hread => by cases hread) (Nat.not_succ_le_zero _)
    | succ depth =>
        rw [depth_ofMembers_le]
        exact hread depth _ (fields?_ofMembers hnames hapart)

end

/-- **The text of a value** is parsed as the value if and only if it does not nest too deep. -/
theorem Restores.parse?_iff {α : Type} {write : α → Json} {read : Nat → Json → Option α} {a : α}
    (h : Restores write read a) (controls : Bool) :
    (Json.parse? controls (write a).text).bind (read maxDepth) = some a ↔ (write a).depth ≤ maxDepth := by
  rw [parse?_text controls h.written, Option.bind_some]
  exact h.read_iff maxDepth

end Json

end RowCodec
