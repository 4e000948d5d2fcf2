/-!
# What stands between the quotes of a JSON string

A JSON string is a sequence of pieces: plain characters, short escapes, and 16-bit units written in
hexadecimal. Pieces keep what was written, so that a reader decides afterwards how strict to be.

* `Piece.codePoints` joins two units that form a surrogate pair and takes every other piece for
  itself.
* `Piece.toText?` reads pieces as text and refuses surrogates without a partner; `Piece.toBytes`
  reads them as bytes, where such a surrogate becomes its three-byte form.
* `Piece.ofText` is the written form of a text: the quote, the backslash and the control characters
  are escaped, all else is plain.
-/

namespace RowCodec

/-- A piece of a JSON string. -/
inductive Piece where
  | plain (c : Char)
  /-- A backslash and a letter. -/
  | short (letter : Char)
  /-- A backslash, the letter u, and four hexadecimal digits. -/
  | unit (n : Nat)
deriving DecidableEq, Repr

namespace Piece

/-! ## 1. Short escapes -/

/-- The short escapes: the letter after the backslash, and the character meant. -/
def shortEscapes : List (Char × Char) :=
  [('"', '"'), ('\\', '\\'), ('/', '/'), ('b', '\x08'), ('f', '\x0c'), ('n', '\n'), ('r', '\r'),
   ('t', '\t')]

/-- The character that a letter after a backslash stands for. -/
def shortEscape? (letter : Char) : Option Char := shortEscapes.lookup letter

/-- Whether a character must be escaped for being a control character. -/
def isControl (c : Char) : Bool := c.toNat < 0x20

/-- The written form of a character. -/
def ofChar (c : Char) : Piece :=
  match c with
  | '"' => short '"'
  | '\\' => short '\\'
  | '\x08' => short 'b'
  | '\x0c' => short 'f'
  | '\n' => short 'n'
  | '\r' => short 'r'
  | '\t' => short 't'
  | c => if isControl c then unit c.toNat else plain c

/-- The written form of a text. -/
def ofText (text : String) : List Piece := text.toList.map ofChar

/-! ## 2. Code points -/

def isHighSurrogate (n : Nat) : Bool := 0xD800 ≤ n && n ≤ 0xDBFF

def isLowSurrogate (n : Nat) : Bool := 0xDC00 ≤ n && n ≤ 0xDFFF

/-- The code point that a piece stands for on its own. -/
def code : Piece → Nat
  | plain c => c.toNat
  | short letter => ((shortEscape? letter).getD letter).toNat
  | unit n => n

/-- The code points of pieces, surrogate pairs joined. -/
def codePoints : List Piece → List Nat
  | [] => []
  | unit high :: unit low :: rest =>
    if isHighSurrogate high && isLowSurrogate low then
      ((high - 0xD800) * 0x400 + (low - 0xDC00) + 0x10000) :: codePoints rest
    else high :: codePoints (unit low :: rest)
  | piece :: rest => piece.code :: codePoints rest

/-- The character of a code point; surrogates have none. -/
def char? (n : Nat) : Option Char :=
  if n.isValidChar then some (Char.ofNat n) else none

/-- The text that pieces stand for; a surrogate without a partner is refused. -/
def toText? (pieces : List Piece) : Option String :=
  ((codePoints pieces).mapM char?).map String.ofList

/-- A code point in the byte form of UTF-8, surrogates included. -/
def codeBytes (n : Nat) : List UInt8 :=
  let tail (shift : Nat) : UInt8 := UInt8.ofNat (0x80 + (n >>> shift) % 64)
  if n < 0x80 then [UInt8.ofNat n]
  else if n < 0x800 then [UInt8.ofNat (0xC0 + n / 64), tail 0]
  else if n < 0x10000 then [UInt8.ofNat (0xE0 + n / 4096), tail 6, tail 0]
  else [UInt8.ofNat (0xF0 + n / 262144), tail 12, tail 6, tail 0]

/-- The bytes that pieces stand for. -/
def toBytes (pieces : List Piece) : List UInt8 := (codePoints pieces).flatMap codeBytes

end Piece

end RowCodec
