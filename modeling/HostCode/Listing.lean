import HostCode.Decoder
import HostCode.Jump

/-! # Listings

Code line by line: an instruction, an embedded literal, or a byte that starts neither. A
listing shows the offset and the bytes of each.
-/

namespace HostCode

open Numeral

structure Literal where
  offset : Int
  size : Int
  deriving DecidableEq, Repr

/-- Puts a literal into a list that ascends by offset, in place of one at the same offset. -/
def Literal.insert (l : Literal) : List Literal → List Literal
  | [] => [l]
  | m :: ms =>
    if l.offset < m.offset then l :: m :: ms
    else if l.offset = m.offset then l :: ms
    else m :: l.insert ms

namespace Listing

inductive Content | instruction | data | bad
  deriving DecidableEq, Repr

structure Line where
  offset : Nat
  bytes : List UInt8
  content : Content
  deriving DecidableEq, Repr

def Content.label : Content → String
  | instruction => "insn"
  | data => ".data"
  | bad => "(bad)"

/-- The bytes stand in a column of 24 characters. -/
def Line.render (l : Line) : String :=
  let column := bytesHex l.bytes
  let blanks := String.ofList (List.replicate (24 - column.length) ' ')
  paddedHex 4 l.offset ++ ": " ++ column ++ blanks ++ " " ++ l.content.label

def add (l : Line) (rest : Except Fault (List Line)) : Except Fault (List Line) :=
  rest.map (l :: ·)

/-- The lines of the code `rest` from `offset` on, with the literals that are still to come.
No instruction reaches into a literal. -/
def lines (decode : List UInt8 → Option Nat) (offset : Nat) (rest : List UInt8)
    (literals : List Literal) : Except Fault (List Line) :=
  match rest with
  | [] => .ok []
  | b :: bs =>
    match literals with
    | l :: ls =>
      if l.offset < offset then lines decode offset (b :: bs) ls
      else if l.offset = offset then
        if l.size < 0 ∨ offsetLimit ≤ offset + l.size then .error .outOfRange else
        let n := min l.size.toNat (b :: bs).length
        add ⟨offset, (b :: bs).take n, .data⟩
          (lines decode (offset + n) ((b :: bs).drop n) ls)
      else if offset + (b :: bs).length < l.offset then .error .outOfRange
      else
        match decode ((b :: bs).take (l.offset - offset).toNat) with
        | some (n + 1) =>
          add ⟨offset, (b :: bs).take (n + 1), .instruction⟩
            (lines decode (offset + (n + 1)) (bs.drop n) (l :: ls))
        | _ => add ⟨offset, [b], .bad⟩ (lines decode (offset + 1) bs (l :: ls))
    | [] =>
      match decode (b :: bs) with
      | some (n + 1) =>
        add ⟨offset, (b :: bs).take (n + 1), .instruction⟩
          (lines decode (offset + (n + 1)) (bs.drop n) [])
      | _ => add ⟨offset, [b], .bad⟩ (lines decode (offset + 1) bs [])
termination_by rest.length + literals.length
decreasing_by
  all_goals simp only [List.length_drop, List.length_cons]
  all_goals omega

/-- The listing of the code from `origin` on, by a decoder for wide and narrow hosts. -/
def ofCode (wide : Bool) (code : List UInt8) (origin : Int) (literals : List Literal)
    (decode : Bool → List UInt8 → Option Nat := Decoder.length) : Except Fault (List Line) :=
  if origin < 0 then .error .outOfRange
  else lines (decode wide) origin.toNat (code.drop origin.toNat) literals

def render (ls : List Line) : String := String.join (ls.map fun l => l.render ++ "\n")

end Listing

def Assembler.listing (a : Assembler) (origin : Int)
    (decode : Bool → List UInt8 → Option Nat := Decoder.length) :
    Except Fault (List Listing.Line) :=
  Listing.ofCode a.mode.wide a.code origin (a.literals.map fun (l : Nat) => ⟨l, 8⟩) decode

end HostCode
