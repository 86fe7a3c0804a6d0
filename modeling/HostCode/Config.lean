import HostCode.Addressing
import HostCode.Buffer
import HostCode.Log.Record

/-! # Configuration

What a session is made of: the host it writes code for, where the guest state lies, where
memory comes from, and what is logged.
-/

namespace HostCode

open Numeral

inductive HostMode
  /-- 32-bit code, with absolute addresses of the guest state. -/
  | narrow
  /-- 64-bit code, with a register for the base of the guest state. -/
  | wide
  | unnamed (code : UInt8)
  deriving DecidableEq, Repr

namespace HostMode

def name : HostMode → String
  | narrow => "narrow"
  | wide => "wide"
  | unnamed c => "HostMode(" ++ toString c.toNat ++ ")"

def ofCode (c : UInt8) : HostMode :=
  if c = 1 then narrow else if c = 2 then wide else unnamed c

end HostMode

structure Config where
  mode : HostMode := .wide
  stateBase : HostAddress := 0
  baseRegister : Register := .gpr .r15
  buffer : CodeBuffer
  logger : Log.Logger := {}
  /-- The session takes part in the metrics of its registry. -/
  metrics : Bool := false

inductive SetupError
  | stateBase (address : HostAddress) (mode : HostMode)
  | baseRegister (r : Register)
  | hostMode (code : UInt8)
  | metrics
  deriving DecidableEq, Repr

def SetupError.message : SetupError → String
  | stateBase a m => "state base " ++ hex a.toNat ++ " is not addressable in " ++ m.name ++ " mode"
  | baseRegister r => r.name ++ " cannot hold the state base"
  | hostMode c => "invalid host mode " ++ toString c.toNat
  | metrics => "registering metrics: a metric of that name is there already"

/-- The addressing mode that a configuration selects. The register for the state base only
matters where there is one. -/
def Config.addressing (c : Config) : Except SetupError AddressingMode :=
  match c.mode with
  | .narrow =>
    if c.stateBase.toNat < 0x100000000 then .ok .absolute else .error (.stateBase c.stateBase c.mode)
  | .wide =>
    match c.baseRegister.base? with
    | some b => .ok (.baseRelative b c.stateBase)
    | none => .error (.baseRegister c.baseRegister)
  | .unnamed code => .error (.hostMode code)

end HostCode
