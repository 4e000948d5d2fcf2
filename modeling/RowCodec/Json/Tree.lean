import RowCodec.Json.Token

/-!
# JSON values

* `Json` is a JSON value as it was written: members in their order, repeated names included.
* `Json.ofTokens` reads the tokens of one value; `Json.parse?` reads a whole text, of which nothing
  may be left over. A comma must stand between two items and nowhere else.
* `Json.tokens` writes a value without blanks; `Json.text` is its text.
-/

namespace RowCodec

/-- A JSON value. -/
inductive Json where
  | null
  | bool (b : Bool)
  /-- A number, with its value if it is written as a natural number. -/
  | number (natural : Option Nat)
  | string (pieces : List Piece)
  | array (items : List Json)
  | object (members : List (List Piece × Json))

namespace Json

/-! ## 1. Reading -/

mutual

/-- The first value of a list of tokens, and what follows it; `fuel` bounds the tokens read. -/
def readValue : Nat → List Token → Option (Json × List Token)
  | 0, _ => none
  | fuel + 1, tokens =>
    match tokens with
    | .null :: rest => some (null, rest)
    | .bool b :: rest => some (bool b, rest)
    | .number natural :: rest => some (number natural, rest)
    | .string pieces :: rest => some (string pieces, rest)
    | .openBracket :: .closeBracket :: rest => some (array [], rest)
    | .openBracket :: rest => (readItems fuel rest).map fun (items, rest) => (array items, rest)
    | .openBrace :: .closeBrace :: rest => some (object [], rest)
    | .openBrace :: rest =>
      (readMembers fuel rest).map fun (members, rest) => (object members, rest)
    | _ => none

/-- The remaining items of an array, at least one, and what follows its bracket. -/
def readItems : Nat → List Token → Option (List Json × List Token)
  | 0, _ => none
  | fuel + 1, tokens => do
    let (item, rest) ← readValue fuel tokens
    match rest with
    | .closeBracket :: rest => return ([item], rest)
    | .comma :: rest =>
      let (items, rest) ← readItems fuel rest
      return (item :: items, rest)
    | _ => none

/-- The remaining members of an object, at least one, and what follows its brace. -/
def readMembers : Nat → List Token → Option (List (List Piece × Json) × List Token)
  | 0, _ => none
  | fuel + 1, tokens => do
    match tokens with
    | .string name :: .colon :: tokens =>
      let (value, rest) ← readValue fuel tokens
      match rest with
      | .closeBrace :: rest => return ([(name, value)], rest)
      | .comma :: rest =>
        let (members, rest) ← readMembers fuel rest
        return ((name, value) :: members, rest)
      | _ => none
    | _ => none

end

/-- The value that a list of tokens is. Each step down takes a token or goes from a container to its
    first item, so twice the number of tokens bounds the steps. -/
def ofTokens (tokens : List Token) : Option Json :=
  match readValue (2 * tokens.length + 1) tokens with
  | some (value, []) => some value
  | _ => none

/-- The value that a text is. -/
def parse? (controls : Bool) (text : String) : Option Json :=
  (Token.scan controls text).bind ofTokens

/-! ## 2. Writing -/

mutual

/-- The tokens of a value. -/
def tokens : Json → List Token
  | null => [.null]
  | bool b => [.bool b]
  | number natural => [.number natural]
  | string pieces => [.string pieces]
  | array items => .openBracket :: itemTokens items
  | object members => .openBrace :: memberTokens members

/-- The tokens of an array's items and its closing bracket. -/
def itemTokens : List Json → List Token
  | [] => [.closeBracket]
  | [item] => item.tokens ++ [.closeBracket]
  | item :: next :: rest => item.tokens ++ .comma :: itemTokens (next :: rest)

/-- The tokens of an object's members and its closing brace. -/
def memberTokens : List (List Piece × Json) → List Token
  | [] => [.closeBrace]
  | [(name, value)] => .string name :: .colon :: value.tokens ++ [.closeBrace]
  | (name, value) :: next :: rest =>
    .string name :: .colon :: value.tokens ++ .comma :: memberTokens (next :: rest)

end

/-- The text of a value, without blanks. -/
def text (j : Json) : String := String.ofList (j.tokens.flatMap Token.chars)

end Json

end RowCodec
