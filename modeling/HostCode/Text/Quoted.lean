import HostCode.Text.Numeral
import HostCode.Text.Printable

/-! # Quoted text

A quoted text stands between double quotes. Printable characters are written as they are,
apart from the quote and the backslash, and all others by an escape.
-/

namespace HostCode

open Numeral

/-- One character between quotes, where `mark` is the quote. -/
def quoteChar (mark c : Char) : List Char :=
  if c = mark ∨ c = '\\' then ['\\', c]
  else if isPrintable c then [c]
  else match c.toNat with
    | 7 => ['\\', 'a']
    | 8 => ['\\', 'b']
    | 12 => ['\\', 'f']
    | 10 => ['\\', 'n']
    | 13 => ['\\', 'r']
    | 9 => ['\\', 't']
    | 11 => ['\\', 'v']
    | n =>
      if n < 0x20 ∨ n = 0x7f then '\\' :: 'x' :: paddedHexDigits 2 n
      else if n < 0x10000 then '\\' :: 'u' :: paddedHexDigits 4 n
      else '\\' :: 'U' :: paddedHexDigits 8 n

def quote (s : String) : String :=
  String.ofList ('"' :: s.toList.flatMap (quoteChar '"') ++ ['"'])

def quoteOne (c : Char) : String := String.ofList ('\'' :: quoteChar '\'' c ++ ['\''])

end HostCode
