import RowCodec.Bytes.Hex
import RowCodec.Json.Piece

/-!
# Tokens of JSON text

* `Token.scan` splits a text into tokens; blanks (space, tab, line feed, carriage return) may stand
  between any two. Everything that is no token is refused: unknown words, numbers with a leading
  zero or without digits, unfinished strings, unknown escapes.
* Whether control characters may stand unescaped in a string is the caller's choice: text must not
  hold them, a string that stands for bytes may.
* Of a number only its value as a natural number is kept; numbers with a sign, a fraction or an
  exponent have none.
* `Token.chars` is a token's written form.
-/

namespace RowCodec

/-- A token of JSON text. -/
inductive Token where
  | openBrace | closeBrace | openBracket | closeBracket | colon | comma
  | null
  | bool (b : Bool)
  /-- A number, with its value if it is written as a natural number. -/
  | number (natural : Option Nat)
  | string (pieces : List Piece)
deriving DecidableEq, Repr

namespace Token

/-! ## 1. Reading -/

/-- Whether a character may stand between tokens. -/
def isBlank (c : Char) : Bool := c = ' ' || c = '\t' || c = '\n' || c = '\r'

/-- The pieces up to the closing quote, and what follows it. -/
def scanString (controls : Bool) : List Char → Option (List Piece × List Char)
  | [] => none
  | '"' :: rest => some ([], rest)
  | '\\' :: 'u' :: a :: b :: c :: d :: rest => do
    let n ← Hex.toNat? [a, b, c, d]
    let (pieces, rest) ← scanString controls rest
    return (.unit n :: pieces, rest)
  | '\\' :: letter :: rest =>
    if (Piece.shortEscape? letter).isSome then do
      let (pieces, rest) ← scanString controls rest
      return (.short letter :: pieces, rest)
    else none
  | c :: rest =>
    if c = '\\' || (Piece.isControl c && !controls) then none
    else do
      let (pieces, rest) ← scanString controls rest
      return (.plain c :: pieces, rest)

/-- A run of one or more digits, and what follows it. -/
def scanDigits (cs : List Char) : Option (List Char × List Char) :=
  match cs.takeWhile Char.isDigit with
  | [] => none
  | digits => some (digits, cs.dropWhile Char.isDigit)

/-- The digits before a number's point: a single zero, or a run that starts with none. -/
def scanInteger : List Char → Option (List Char × List Char)
  | '0' :: rest => some (['0'], rest)
  | cs => scanDigits cs

/-- What follows a fraction, if there is one, and whether there was. -/
def scanFraction : List Char → Option (Bool × List Char)
  | '.' :: rest => (scanDigits rest).map fun (_, rest) => (true, rest)
  | cs => some (false, cs)

/-- What follows an exponent, if there is one, and whether there was. -/
def scanExponent : List Char → Option (Bool × List Char)
  | c :: rest =>
    if c = 'e' || c = 'E' then
      let unsigned := match rest with
        | '+' :: digits => digits
        | '-' :: digits => digits
        | digits => digits
      (scanDigits unsigned).map fun (_, rest) => (true, rest)
    else some (false, c :: rest)
  | [] => some (false, [])

/-- The number that a run of decimal digits stands for. -/
def ofDigits (digits : List Char) : Nat :=
  digits.foldl (fun n c => 10 * n + (c.toNat - '0'.toNat)) 0

/-- A number, and what follows it. -/
def scanNumber (cs : List Char) : Option (Option Nat × List Char) := do
  let (negative, cs) := match cs with
    | '-' :: rest => (true, rest)
    | cs => (false, cs)
  let (digits, cs) ← scanInteger cs
  let (fraction, cs) ← scanFraction cs
  let (exponent, cs) ← scanExponent cs
  return (if negative || fraction || exponent then none else some (ofDigits digits), cs)

/-- The first token, and what follows it. -/
def scanOne (controls : Bool) : List Char → Option (Token × List Char)
  | '{' :: rest => some (openBrace, rest)
  | '}' :: rest => some (closeBrace, rest)
  | '[' :: rest => some (openBracket, rest)
  | ']' :: rest => some (closeBracket, rest)
  | ':' :: rest => some (colon, rest)
  | ',' :: rest => some (comma, rest)
  | 'n' :: 'u' :: 'l' :: 'l' :: rest => some (null, rest)
  | 't' :: 'r' :: 'u' :: 'e' :: rest => some (bool true, rest)
  | 'f' :: 'a' :: 'l' :: 's' :: 'e' :: rest => some (bool false, rest)
  | '"' :: rest => (scanString controls rest).map fun (pieces, rest) => (string pieces, rest)
  | cs => (scanNumber cs).map fun (natural, rest) => (number natural, rest)

/-- The tokens of a text, with at most `fuel` tokens and blanks. -/
def scanAll (controls : Bool) : Nat → List Char → Option (List Token)
  | _, [] => some []
  | 0, _ :: _ => none
  | fuel + 1, c :: rest =>
    if isBlank c then scanAll controls fuel rest
    else do
      let (token, rest) ← scanOne controls (c :: rest)
      return token :: (← scanAll controls fuel rest)

/-- The tokens of a text. Every token and blank takes at least one character. -/
def scan (controls : Bool) (text : String) : Option (List Token) :=
  scanAll controls text.length text.toList

/-! ## 2. Writing -/

/-- The written form of a piece. -/
def pieceChars : Piece → List Char
  | .plain c => [c]
  | .short letter => ['\\', letter]
  | .unit n => '\\' :: 'u' :: Hex.digits 4 n

/-- The written form of a token. A number without a natural value is written as zero. -/
def chars : Token → List Char
  | openBrace => ['{']
  | closeBrace => ['}']
  | openBracket => ['[']
  | closeBracket => [']']
  | colon => [':']
  | comma => [',']
  | null => ['n', 'u', 'l', 'l']
  | bool true => ['t', 'r', 'u', 'e']
  | bool false => ['f', 'a', 'l', 's', 'e']
  | number natural => (toString (natural.getD 0)).toList
  | string pieces => '"' :: pieces.flatMap pieceChars ++ ['"']

end Token

end RowCodec
