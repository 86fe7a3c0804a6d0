import HostCode.Encoding.Rejection
import HostCode.Fault

/-! # Errors

What an operation answers when it cannot do its work. An error may stand inside another that
says what was going on, and keeps its kind there.
-/

namespace HostCode

open Numeral

inductive Error
  | encode (e : EncodeError)
  | allocation (e : AllocationFailure)
  | jumpRange (e : JumpRange)
  | unresolved (first : GuestAddress) (rest : List GuestAddress)
  | blockExists (guest : GuestAddress)
  /-- A session that cannot go on since a jump went out of range. -/
  | needsReset (cause : JumpRange)
  | translating (guest : GuestAddress) (cause : Error)
  | patching (guest : GuestAddress) (cause : Error)
  | other (text : String)
  deriving DecidableEq, Repr

namespace Error

inductive Kind
  | allocation | jumpRange | displacementRange | unresolved | unsupported | blockExists | other
  deriving DecidableEq, Repr

def kind : Error → Kind
  | encode (.rejected _ (.displacement _)) => .displacementRange
  | encode (.rejected _ cause) => if cause.isUnsupported then .unsupported else .other
  | encode (.unknown _) => .other
  | allocation _ => .allocation
  | jumpRange _ | needsReset _ => .jumpRange
  | unresolved .. => .unresolved
  | blockExists _ => .blockExists
  | translating _ cause | patching _ cause => cause.kind
  | other _ => .other

def message : Error → String
  | encode e => e.message
  | allocation e => e.message
  | jumpRange e => e.message
  | unresolved first rest =>
    toString (rest.length + 1) ++ " unresolved relocation targets, first " ++ guestHex first
  | blockExists guest => guestHex guest ++ ": block already translated"
  | needsReset cause => "session must be reset after a failed block: " ++ cause.message
  | translating guest cause => "translating " ++ guestHex guest ++ ": " ++ cause.message
  | patching guest cause => "patching jumps of " ++ guestHex guest ++ ": " ++ cause.message
  | other text => text

end Error

end HostCode
