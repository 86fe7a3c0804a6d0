/-! # Numerals

Numbers are written in decimal or hexadecimal. They are read in the notation of integer
literals: a leading `0x`, `0o`, `0b` or `0` selects the radix, and an underscore may stand
between two digits or after the radix.
-/

namespace HostCode.Numeral

/-! ## Writing -/

def hexDigits (n : Nat) : List Char := Nat.toDigits 16 n

def paddedHexDigits (width n : Nat) : List Char :=
  let ds := hexDigits n
  List.replicate (width - ds.length) '0' ++ ds

def hex (n : Nat) : String := "0x" ++ String.ofList (hexDigits n)

/-- `0x` and the digits, with zeros in front up to `width` digits. -/
def paddedHex (width n : Nat) : String := "0x" ++ String.ofList (paddedHexDigits width n)

def signedHex (i : Int) : String :=
  if i < 0 then "-" ++ hex i.natAbs else hex i.natAbs

def plusHex (i : Int) : String :=
  if i < 0 then "-" ++ hex i.natAbs else "+" ++ hex i.natAbs

def bytesHex (bytes : List UInt8) : String :=
  String.ofList (bytes.flatMap fun b => paddedHexDigits 2 b.toNat)

def guestHex (a : UInt32) : String := paddedHex 8 a.toNat

/-! ## Reading -/

inductive Trouble | malformed | outOfRange
  deriving DecidableEq, Repr

def digit? (c : Char) : Option Nat :=
  if '0' ≤ c ∧ c ≤ '9' then some (c.toNat - '0'.toNat)
  else if 'a' ≤ c ∧ c ≤ 'z' then some (c.toNat - 'a'.toNat + 10)
  else if 'A' ≤ c ∧ c ≤ 'Z' then some (c.toNat - 'A'.toNat + 10)
  else none

/-- Reads the digits that follow those of `sum`. The number is refused as soon as it passes
`limit`, whatever comes after. -/
def readDigits (radix limit : Nat) (underscores : Bool) :
    (sum : Nat) → List Char → Except Trouble Nat
  | sum, [] => .ok sum
  | sum, c :: cs =>
    if underscores && c == '_' then readDigits radix limit underscores sum cs else
    match digit? c with
    | none => .error .malformed
    | some d =>
      if radix ≤ d then .error .malformed
      else if limit < sum * radix + d then .error .outOfRange
      else readDigits radix limit underscores (sum * radix + d) cs

/-- The radix of a literal and the characters its digits are read from. A radix letter
counts only if something follows it. -/
def radix : List Char → Nat × List Char
  | '0' :: cs =>
    match cs with
    | x :: d :: ds =>
      if x == 'b' || x == 'B' then (2, d :: ds)
      else if x == 'o' || x == 'O' then (8, d :: ds)
      else if x == 'x' || x == 'X' then (16, d :: ds)
      else (8, cs)
    | _ => (8, cs)
  | cs => (10, cs)

/-- Every underscore stands between two digits, where `afterDigit` tells whether a digit,
or the radix, has just been seen. -/
def underscoresFit (hexadecimal : Bool) : (afterDigit : Bool) → List Char → Bool
  | _, [] => true
  | afterDigit, '_' :: cs =>
    afterDigit && (match cs with
      | c :: _ => c.isDigit || (hexadecimal && isHexLetter c)
      | [] => false) && underscoresFit hexadecimal false cs
  | _, c :: cs => underscoresFit hexadecimal (c.isDigit || (hexadecimal && isHexLetter c)) cs
where
  isHexLetter (c : Char) : Bool := ('a' ≤ c && c ≤ 'f') || ('A' ≤ c && c ≤ 'F')

def underscoresPlaced : List Char → Bool
  | '0' :: x :: cs =>
    if x == 'x' || x == 'X' then underscoresFit true true cs
    else if x == 'b' || x == 'B' || x == 'o' || x == 'O' then underscoresFit false true cs
    else underscoresFit false false ('0' :: x :: cs)
  | cs => underscoresFit false false cs

/-- Reads a literal without a sign that fits in `bits` bits. -/
def readUnsigned (bits : Nat) (s : List Char) : Except Trouble Nat := do
  if s.isEmpty then throw .malformed
  let (r, ds) := radix s
  let n ← readDigits r (1 <<< bits - 1) true 0 ds
  if ds.contains '_' && !underscoresPlaced s then throw .malformed
  return n

/-- Reads a literal with an optional sign that fits in `bits` bits as a signed number. -/
def readSigned (bits : Nat) (s : List Char) : Except Trouble Int := do
  let (negative, ds) := match s with
    | '+' :: ds => (false, ds)
    | '-' :: ds => (true, ds)
    | ds => (false, ds)
  let n ← readUnsigned bits ds
  if negative then
    if 1 <<< (bits - 1) < n then throw .outOfRange
    return -(n : Int)
  else
    if 1 <<< (bits - 1) ≤ n then throw .outOfRange
    return n

def readDecimal (bits : Nat) (s : List Char) : Except Trouble Nat := do
  if s.isEmpty then throw .malformed
  readDigits 10 (1 <<< bits - 1) false 0 s

end HostCode.Numeral
