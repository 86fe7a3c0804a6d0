import HostCode.Condition
import HostCode.Operation
import HostCode.Operand

/-! # Requests

One instruction as it is asked for: what to do, on how many bits, and with what. The
destination is written, the source read, and a few families take a third operand.
-/

namespace HostCode

structure Request where
  op : Op
  width : UInt8 := 0
  /-- Read by the families that act on a condition. -/
  cond : Cond := .flag .o
  dst : Operand := .none
  src : Operand := .none
  aux : Operand := .none
  deriving DecidableEq, Repr

namespace Request

/-- The name of the operation, with the condition in it where it has one. -/
def mnemonic (r : Request) : String :=
  match r.op with
  | .setcc => "SET" ++ r.cond.name
  | .cmovcc => "CMOV" ++ r.cond.name
  | op => op.name

def operands (r : Request) : List Operand :=
  [r.dst, r.src, r.aux].filter fun o => !o.isNone

/-- The name, the width and the operands that are there: `ADD.32 AX, $0x1:8`. -/
def render (r : Request) : String :=
  let head := r.mnemonic ++ "." ++ toString r.width.toNat
  match r.operands with
  | [] => head
  | os => head ++ " " ++ ", ".intercalate (os.map Operand.render)

end Request

end HostCode
