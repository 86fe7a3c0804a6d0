import HostCode.Decoder.Modifiers

/-! # Instruction layouts

What follows an opcode: a ModRM byte with its SIB byte and displacement, and then a constant.
-/

namespace HostCode.Decoder

inductive Tail
  | none
  | bytes (count : Nat)
  /-- A constant of the operand size, of which 64-bit operands take 32. -/
  | sized
  /-- A constant of the full operand size. -/
  | full
  | address
  | relative
  /-- A selector and an offset. -/
  | far
  deriving DecidableEq, Repr

structure Layout where
  modrm : Bool
  tail : Tail := .none
  deriving DecidableEq, Repr

def Tail.size (wide : Bool) (m : Modifiers) : Tail → Nat
  | none => 0
  | bytes n => n
  | sized => if m.word && !m.qword then 2 else 4
  | full => if m.qword then 8 else if m.word then 2 else 4
  | address => if wide then (if m.shortAddress then 4 else 8) else if m.shortAddress then 2 else 4
  | relative => if m.word && !wide then 2 else 4
  | far => if m.word then 4 else 6

inductive Shape | any | memory | register
  deriving DecidableEq, Repr

def isRegister (modrm : Nat) : Bool := 0xc0 ≤ modrm

/-- The middle field of a ModRM byte, which can be a part of the opcode. -/
def middle (modrm : Nat) : Nat := modrm / 8 % 8

def Shape.admits (modrm : Nat) : Shape → Bool
  | any => true
  | memory => !isRegister modrm
  | register => isRegister modrm

/-- The instructions that share an opcode, in the order in which they are tried. -/
abbrev Variants := List (Selector × Shape)

namespace Layout

def plain (t : Tail) : Option Layout := some ⟨false, t⟩

def operand (modrm : Nat) (s : Shape) (t : Tail) : Option Layout :=
  if s.admits modrm then some ⟨true, t⟩ else none

/-- A ModRM byte of the shape that the picked instruction takes. -/
def choice (m : Modifiers) (modrm : Nat) (variants : Variants) (t : Tail) : Option Layout := do
  operand modrm (← m.pick variants) t

end Layout

/-- The bytes that a ModRM byte takes with its SIB byte and displacement. -/
def operandSize (shortAddress wide : Bool) : List UInt8 → Option Nat
  | [] => none
  | m :: rest =>
    let mod := m.toNat / 64
    let rm := m.toNat % 8
    if mod == 3 then some 1
    else if shortAddress && !wide then
      some (1 + if mod == 1 then 1 else if mod == 2 || rm == 6 then 2 else 0)
    else
      let displacement (base : Nat) : Nat :=
        if mod == 1 then 1 else if mod == 2 || base == 5 then 4 else 0
      if rm == 4 then
        match rest with
        | [] => none
        | s :: _ => some (2 + displacement (s.toNat % 8))
      else some (1 + displacement rm)

end HostCode.Decoder
