/-!
# Hexadecimal text

Lowercase digits, two to a byte, the high digit first.

* `ofNat width n` is a number as exactly `width` digits, most significant first.
* `encode` and `decode?` take a byte list to its text and back; `decode?` refuses a text of odd
  length and every character that is no lowercase or uppercase digit.
-/

namespace RowCodec.Hex

/-- The digit of a number below sixteen. -/
def digit (n : Nat) : Char :=
  if n < 10 then Char.ofNat (48 + n) else Char.ofNat (87 + n)

/-- The number a digit stands for. -/
def digit? (c : Char) : Option Nat :=
  let n := c.toNat
  if 48 ≤ n && n ≤ 57 then some (n - 48)
  else if 97 ≤ n && n ≤ 102 then some (n - 87)
  else if 65 ≤ n && n ≤ 70 then some (n - 55)
  else none

/-- The last `width` digits of `n`, most significant first. -/
def digits : Nat → Nat → List Char
  | 0, _ => []
  | width + 1, n => digits width (n / 16) ++ [digit (n % 16)]

/-- A number as exactly `width` digits. -/
def ofNat (width n : Nat) : String :=
  String.ofList (digits width n)

/-- The number a run of digits stands for. -/
def toNat? (cs : List Char) : Option Nat :=
  cs.foldl (fun acc c => do return 16 * (← acc) + (← digit? c)) (some 0)

/-- The text of a byte list. -/
def encode (bytes : List UInt8) : String :=
  String.ofList (bytes.flatMap fun b => [digit (b.toNat / 16), digit (b.toNat % 16)])

/-- The bytes that a list of digits stands for. -/
def decodeChars? : List Char → Option (List UInt8)
  | [] => some []
  | [_] => none
  | hi :: lo :: rest => do
      let h ← digit? hi
      let l ← digit? lo
      return UInt8.ofNat (16 * h + l) :: (← decodeChars? rest)

/-- The bytes that a text stands for. -/
def decode? (text : String) : Option (List UInt8) :=
  decodeChars? text.toList

end RowCodec.Hex
