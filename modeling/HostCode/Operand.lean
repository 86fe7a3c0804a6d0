import HostCode.Word
import HostCode.Register
import HostCode.Text.Numeral

/-! # Operands

What an instruction works on, and how messages write it.
-/

namespace HostCode

open Numeral

inductive Size | byte | word | dword | qword
  deriving DecidableEq, Repr

namespace Size

def bits : Size → Nat
  | byte => 8 | word => 16 | dword => 32 | qword => 64

def bytes : Size → Nat
  | byte => 1 | word => 2 | dword => 4 | qword => 8

/-- The size of so many bits. Requests carry their width as a number, which need not be
the width of anything. -/
def ofBits? (bits : UInt8) : Option Size :=
  if bits = 8 then some byte else if bits = 16 then some word
  else if bits = 32 then some dword else if bits = 64 then some qword else none

/-- A full immediate: instructions on 64 bits extend the sign of 32. -/
def immediate : Size → Size
  | qword => dword
  | s => s

end Size

inductive Operand
  | none
  | reg (r : Register)
  /-- A constant, of which an instruction holds the low bits. -/
  | imm (value : Int64) (bits : UInt8)
  /-- The memory at `base + index * scale + disp`, without index if that is no register. -/
  | mem (base index : Register) (scale : UInt8) (disp : Int32)
  /-- A field of the emulated processor's state, given by its address. -/
  | state (address : HostAddress)
  /-- A full host address. -/
  | abs (address : HostAddress)
  | unnamed (kind : UInt8)
  deriving DecidableEq, Repr

namespace Operand

def isReg : Operand → Bool
  | reg _ => true
  | _ => false

def isMemory : Operand → Bool
  | mem .. | state _ => true
  | _ => false

def isRM (o : Operand) : Bool := o.isReg || o.isMemory

def isNone : Operand → Bool
  | none => true
  | _ => false

def render : Operand → String
  | none => ""
  | reg r => r.name
  | imm v bits => "$" ++ signedHex v.toInt ++ ":" ++ toString bits.toNat
  | mem base index scale disp =>
    "[" ++ base.name ++
      (if index = .none then "" else "+" ++ index.name ++ "*" ++ toString scale.toNat) ++
      (if disp = 0 then "" else plusHex disp.toInt) ++ "]"
  | state a => "state[" ++ hex a.toNat ++ "]"
  | abs a => "abs[" ++ hex a.toNat ++ "]"
  | unnamed k => "Operand(" ++ toString k.toNat ++ ")"

end Operand

end HostCode
