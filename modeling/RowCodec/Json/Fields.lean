import RowCodec.Json.Tree

/-!
# Reading typed values from JSON

The rules that all records written as JSON share.

* A record is an object with its fields by name, in any order: unknown names are passed over, a name
  of the record must not come twice. Or it is an array with the values of all its fields in order.
* A field that may be missing is missing when it is absent or null.
* Records, arrays and tagged types may be nested `maxDepth` deep; values under unknown names do not
  count. Each reader that opens a container takes the depth that is left and is recursive on it.
-/

namespace RowCodec.Json

/-- The number of containers that may be open at once. -/
def maxDepth : Nat := 127

/-- The greatest value of an unsigned word of the given width in bits. -/
def maxWord (width : Nat) : Nat := (1 <<< width) - 1

/-! ## 1. Writing -/

/-- A text as a JSON string. -/
def ofText (text : String) : Json := string (Piece.ofText text)

/-- A number as a JSON number. -/
def ofNat (n : Nat) : Json := number (some n)

/-- A value that may be missing; null when it is. -/
def ofOption {α : Type} (write : α → Json) : Option α → Json
  | some a => write a
  | none => null

/-- An object with the given members. -/
def ofMembers (members : List (String × Json)) : Json :=
  object (members.map fun (name, value) => (Piece.ofText name, value))

/-! ## 2. Reading -/

def toText? : Json → Option String
  | string pieces => Piece.toText? pieces
  | _ => none

def toBool? : Json → Option Bool
  | bool b => some b
  | _ => none

/-- A natural number up to a bound. -/
def toNat? (bound : Nat) : Json → Option Nat
  | number (some n) => if n ≤ bound then some n else none
  | _ => none

/-- A list, with `depth` containers left to open. -/
def toList? {α : Type} (read : Nat → Json → Option α) : Nat → Json → Option (List α)
  | depth + 1, array items => items.mapM (read depth)
  | _, _ => none

/-- A field that must be there. -/
def required {α : Type} (read : Json → Option α) : Option Json → Option α
  | some j => read j
  | none => none

/-- A field that may be missing. -/
def optional {α : Type} (read : Json → Option α) : Option Json → Option (Option α)
  | none => some none
  | some null => some none
  | some j => (read j).map some

/-- The value of a name among named members; a name that comes twice is refused. -/
def uniqueMember (members : List (String × Json)) (name : String) : Option (Option Json) :=
  match members.filter fun m => m.1 = name with
  | [] => some none
  | [(_, value)] => some (some value)
  | _ => none

/-- The fields of a record, one for each name. -/
def fields? (names : List String) : Json → Option (List (Option Json))
  | object members => do
    let members ← members.mapM fun (name, value) => do return (← Piece.toText? name, value)
    names.mapM (uniqueMember members)
  | array items => if items.length = names.length then some (items.map some) else none
  | _ => none

end RowCodec.Json
