import HostCode.Encoding.Family

/-! # The reference encoder

A second assembler knows the common integer instructions on 32 and 64 bits with two operands,
and agrees with this one on their bytes for wide hosts.
-/

namespace HostCode.Reference

def knowsOp : Op → Bool
  | .alu _ | .mov | .shift _ | .imul => true
  | _ => false

def knowsOperand : Operand → Bool
  | .reg _ | .imm .. | .mem .. => true
  | _ => false

def knows (r : Request) : Bool :=
  knowsOp r.op && (r.width == 32 || r.width == 64) &&
    knowsOperand r.dst && knowsOperand r.src && r.aux.isNone

/-- A wide host. Which base it has makes no difference without state operands. -/
def mode : AddressingMode := .baseRelative ⟨.r15, by decide⟩ 0

def encode (r : Request) : Except String (List UInt8) :=
  if !knows r then .error (r.render ++ " has no golang-asm equivalent") else
  match Encoding.encode mode r with
  | .ok (some i) => .ok i.bytes
  | .ok none => .ok []
  | .error e => .error e.message

end HostCode.Reference
