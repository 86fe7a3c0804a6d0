/-! # Blanks

The white space of Unicode, and what is left of a text without it at both ends.
-/

namespace HostCode

def isBlank (c : Char) : Bool :=
  let n := c.toNat
  (9 ≤ n && n ≤ 13) || n == 0x20 || n == 0x85 || n == 0xa0 || n == 0x1680 ||
    (0x2000 ≤ n && n ≤ 0x200a) || n == 0x2028 || n == 0x2029 || n == 0x202f ||
    n == 0x205f || n == 0x3000

def trimBlanks (s : List Char) : List Char :=
  ((s.dropWhile isBlank).reverse.dropWhile isBlank).reverse

/-- The part before the first `sep`, and the part after it if there is one. -/
def cutAt (sep : Char) (s : List Char) : List Char × Option (List Char) :=
  match s with
  | [] => ([], none)
  | c :: cs =>
    if c = sep then ([], some cs) else
    let (before, after) := cutAt sep cs
    (c :: before, after)

end HostCode
