import HostCode.Operand

/-! # Addressing modes

Narrow hosts address the emulated processor's state by 32-bit absolute addresses. Wide hosts
keep the base of the state in a register and address its fields relative to that.
-/

namespace HostCode

open Numeral

/-- A distance between two addresses that its field cannot hold. -/
structure DisplacementRange where
  target : HostAddress
  base : HostAddress
  bits : Nat
  deriving DecidableEq, Repr

def DisplacementRange.message (e : DisplacementRange) : String :=
  "displacement from " ++ hex e.base.toNat ++ " to " ++ hex e.target.toNat ++
    " does not fit in " ++ toString e.bits ++ " bits"

/-- The largest distance that a displacement covers, in either direction. -/
def maxDistance : Nat := 0x7fffffff

/-- The displacement that leads from `base` to `target`. The distance is taken between the
addresses as numbers and does not wrap around. -/
def displacement (target base : HostAddress) : Except DisplacementRange Int32 :=
  if (target.toNat - base.toNat : Int).natAbs ≤ maxDistance then
    .ok (Int32.ofInt (target.toNat - base.toNat))
  else .error ⟨target, base, 32⟩

theorem toInt_displacement {target base : HostAddress} {d : Int32}
    (h : displacement target base = .ok d) : d.toInt = target.toNat - base.toNat := by
  unfold displacement at h
  split at h
  · next hle =>
    cases h
    unfold maxDistance at hle
    exact Int32.toInt_ofInt_of_le (by omega) (by omega)
  · cases h

inductive AddressingMode
  | absolute
  | baseRelative (base : BaseRegister) (value : HostAddress)
  deriving DecidableEq, Repr

namespace AddressingMode

def wide : AddressingMode → Bool
  | absolute => false
  | baseRelative .. => true

def baseRegister : AddressingMode → Register
  | absolute => .none
  | baseRelative b _ => .gpr b.val

def baseValue : AddressingMode → HostAddress
  | absolute => 0
  | baseRelative _ v => v

def render : AddressingMode → String
  | absolute => "absolute"
  | baseRelative b v => "base-relative(" ++ b.val.name ++ "=" ++ hex v.toNat ++ ")"

/-- The registers that code may use freely: not the stack pointer, not the state base, and
on narrow hosts only the first eight. -/
def allocatable (m : AddressingMode) : List Gpr :=
  Gpr.all.filter fun r =>
    (m.wide || !r.extended) && r ≠ .sp && Register.gpr r ≠ m.baseRegister

end AddressingMode

end HostCode
