import HostCode.Addressing
import HostCode.Encoding.Field
import HostCode.Request

/-! # Rejected requests

Why a request has no encoding. Nothing is written for a rejected request.
-/

namespace HostCode

open Numeral

inductive Rejection
  /-- No form of the instruction takes these operands. -/
  | operands (dst src : Operand)
  | width (bits : UInt8)
  | condition (c : Cond)
  | notInModRM (o : Operand)
  | notGeneralPurpose (r : Register)
  | baseRegister (r : Register)
  | indexRegister (r : Register)
  | stackPointerIndex
  | scale (n : UInt8)
  | rexOnNarrowHost (p : Rex)
  | displacement (e : DisplacementRange)
  deriving DecidableEq, Repr

namespace Rejection

/-- The request has a form that does not exist, whatever its registers and addresses are. -/
def isUnsupported : Rejection → Bool
  | operands .. | width _ | condition _ | notInModRM _ => true
  | _ => false

def message : Rejection → String
  | operands dst src => "operands " ++ dst.render ++ ", " ++ src.render ++ form
  | width bits => "width " ++ toString bits.toNat ++ form
  | condition c => "condition " ++ c.name ++ form
  | notInModRM o => o.render ++ " cannot be encoded in ModRM" ++ form
  | notGeneralPurpose r => r.name ++ " is not a general purpose register"
  | baseRegister r => "invalid base register [" ++ r.name ++ "]"
  | indexRegister r => "invalid index register [" ++ r.name ++ "]"
  | stackPointerIndex => "SP cannot be used for SIB index"
  | scale n => "scale must be 1, 2, 4 or 8 but was " ++ toString n.toNat
  | rexOnNarrowHost p => "REX prefix " ++ hex p.byte.toNat ++ " requires a 64-bit host"
  | displacement e => e.message
where
  form : String := ": unsupported instruction form"

end Rejection

inductive EncodeError
  | unknown (op : Op)
  | rejected (r : Request) (cause : Rejection)
  deriving DecidableEq, Repr

def EncodeError.message : EncodeError → String
  | unknown op => "unknown instruction " ++ op.name
  | rejected r cause => r.render ++ ": " ++ cause.message

end HostCode
