/-! # Registers

The sixteen general purpose registers, of which the first eight exist on every host, and
the eight floating point stack registers, counted from the top of the stack.
-/

namespace HostCode

inductive Gpr
  | ax | cx | dx | bx | sp | bp | si | di
  | r8 | r9 | r10 | r11 | r12 | r13 | r14 | r15
  deriving DecidableEq, Repr

namespace Gpr

def all : List Gpr :=
  [ax, cx, dx, bx, sp, bp, si, di, r8, r9, r10, r11, r12, r13, r14, r15]

def code : Gpr → BitVec 4
  | ax => 0 | cx => 1 | dx => 2 | bx => 3 | sp => 4 | bp => 5 | si => 6 | di => 7
  | r8 => 8 | r9 => 9 | r10 => 10 | r11 => 11 | r12 => 12 | r13 => 13 | r14 => 14 | r15 => 15

def low (r : Gpr) : BitVec 3 := r.code.extractLsb' 0 3

def extended (r : Gpr) : Bool := r.code.msb

def name : Gpr → String
  | ax => "AX" | cx => "CX" | dx => "DX" | bx => "BX"
  | sp => "SP" | bp => "BP" | si => "SI" | di => "DI"
  | r8 => "R8" | r9 => "R9" | r10 => "R10" | r11 => "R11"
  | r12 => "R12" | r13 => "R13" | r14 => "R14" | r15 => "R15"

end Gpr

/-- A register as an operand names it. Codes without a register can be named too, and are
refused when an instruction needs the register. -/
inductive Register
  | none
  | gpr (r : Gpr)
  | st (i : Fin 8)
  | unnamed (code : UInt8)
  deriving DecidableEq, Repr

namespace Register

def stack : List (Fin 8) := [0, 1, 2, 3, 4, 5, 6, 7]

/-- The registers with a name, in the order of their codes, which start at one. -/
def named : List Register := Gpr.all.map gpr ++ stack.map st

def name : Register → String
  | none => "nil"
  | gpr r => r.name
  | st i => "ST" ++ toString i.val
  | unnamed c => "Register(" ++ toString c.toNat ++ ")"

def ofName? (s : String) : Option Register := named.find? (·.name == s)

def code : Register → UInt8
  | none => 0
  | gpr r => UInt8.ofNat (1 + r.code.toNat)
  | st i => UInt8.ofNat (17 + i.val)
  | unnamed c => c

def ofCode (c : UInt8) : Register :=
  if c = 0 then none else named.getD (c.toNat - 1) (unnamed c)

end Register

/-- A register that can hold the state base: general purpose, and not the stack pointer. -/
abbrev BaseRegister := { r : Gpr // r ≠ .sp }

def Register.base? : Register → Option BaseRegister
  | .gpr r => if h : r ≠ .sp then some ⟨r, h⟩ else Option.none
  | _ => Option.none

end HostCode
