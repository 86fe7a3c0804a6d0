import HostCode.Condition
import HostCode.Register
import HostCode.Word

/-! # Faults

What breaks off an operation halfway. The state that was reached is kept, so a fault can be
followed by further operations. Misuse is a call that breaks the rules of the library.
-/

namespace HostCode

inductive SiteKind
  /-- Four bytes, relative to the end of the field. -/
  | rel32
  /-- An address of eight bytes. -/
  | abs64
  deriving DecidableEq, Repr

namespace SiteKind

def size : SiteKind → Nat
  | rel32 => 4
  | abs64 => 8

def name : SiteKind → String
  | rel32 => "rel32"
  | abs64 => "abs64"

def ofCode? (c : UInt8) : Option SiteKind :=
  if c = 1 then some rel32 else if c = 2 then some abs64 else none

def codeName (c : UInt8) : String :=
  match ofCode? c with
  | some k => k.name
  | none => "SiteKind(" ++ toString c.toNat ++ ")"

end SiteKind

structure AllocationFailure where
  size : Int
  cause : String
  deriving DecidableEq, Repr

def AllocationFailure.message (e : AllocationFailure) : String :=
  "allocating " ++ toString e.size ++ " bytes of executable memory: " ++ e.cause

/-- A jump at `site` that its field is too narrow for. -/
structure JumpRange where
  site : Nat
  displacement : Int
  bits : Nat
  deriving DecidableEq, Repr

def JumpRange.message (e : JumpRange) : String :=
  "jump at offset " ++ toString e.site ++ ": displacement " ++ toString e.displacement ++
    " does not fit in " ++ toString e.bits ++ " bits"

inductive Misuse
  | access (count : Nat) (offset : Int) (length : Nat)
  | truncation (offset : Int) (length : Nat)
  | siteKind (code : UInt8)
  | siteOutside (kind : SiteKind) (offset : Int) (length : Nat)
  | siteNotZero (kind : SiteKind) (offset : Int)
  | offsetOutside (offset : Int) (length : Nat)
  | notEmitted (offset : Int)
  | condition (code : UInt8)
  | invertAlways
  | stateBase (r : Register)
  deriving DecidableEq, Repr

def Misuse.message (m : Misuse) : String :=
  "BUG: " ++ match m with
  | access n off len =>
    "access of " ++ toString n ++ " bytes at offset " ++ toString off ++ outside len
  | truncation off len => "truncation at offset " ++ toString off ++ outside len
  | siteKind c => "invalid site kind " ++ toString c.toNat
  | siteOutside k off len => k.name ++ " site at offset " ++ toString off ++ outside len
  | siteNotZero k off =>
    k.name ++ " site at offset " ++ toString off ++ " is not a zero placeholder"
  | offsetOutside off len => "offset " ++ toString off ++ outside len
  | notEmitted off => "offset " ++ toString off ++ " is not emitted yet"
  | condition c => "invalid condition " ++ toString c.toNat
  | invertAlways => "CondAlways cannot be inverted"
  | stateBase r => r.name ++ " cannot hold the state base"
where
  outside (len : Nat) : String := " is outside of code buffer of length " ++ toString len

inductive Fault
  | misuse (m : Misuse)
  | allocation (e : AllocationFailure)
  | jumpRange (e : JumpRange)
  /-- A range of bytes whose end is not an offset, or that is not in the code, or that there
  are not enough addresses for. -/
  | outOfRange
  deriving DecidableEq, Repr

def SiteKind.ofCode (c : UInt8) : Except Misuse SiteKind :=
  match ofCode? c with
  | some k => .ok k
  | none => .error (.siteKind c)

/-- The opposite condition. Codes that mean nothing are paired like those that do. -/
def Cond.invert (c : Cond) : Except Misuse Cond :=
  match c with
  | .always => .error .invertAlways
  | .flag f => .ok (.flag f.opposite)
  | .unnamed code => .ok (.ofCode (code ^^^ 1))

end HostCode
