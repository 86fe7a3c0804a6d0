import HostCode.Encoding.Family
import HostCode.Error
import HostCode.Segment

/-! # Assemblers

An assembler writes instructions to a code segment. It also remembers where addresses are
embedded in the code, so that a listing does not take them for instructions.
-/

namespace HostCode

def AddressingMode.ofBase (r : Register) (value : HostAddress) : Except Misuse AddressingMode :=
  match r.base? with
  | some base => .ok (.baseRelative base value)
  | none => .error (.stateBase r)

structure Assembler where
  segment : Segment
  mode : AddressingMode
  /-- The offsets of embedded addresses, ascending. Each takes eight bytes. -/
  literals : List Nat := []

namespace Assembler

def new (buffer : CodeBuffer) (mode : AddressingMode) : Assembler := { segment := { buffer }, mode }

def offset (a : Assembler) : Nat := a.segment.length

def code (a : Assembler) : List UInt8 := a.segment.buffer.bytes.toList

def onSegment {α : Type} (x : Attempt Segment α) : Attempt Assembler α := fun a =>
  match x a.segment with
  | .ok v s => .ok v { a with segment := s }
  | .error f s => .error f { a with segment := s }

def append (chunk : List UInt8) : Attempt Assembler Unit := onSegment (Segment.append chunk)

/-- Writes the instruction for a request, field by field. A rejected request writes nothing. -/
def encode (r : Request) : Attempt Assembler (Except Error Unit) := do
  match Encoding.encode (← get).mode r with
  | .error e => return .error (.encode e)
  | .ok none => return .ok ()
  | .ok (some i) =>
    i.fields.forM append
    return .ok ()

/-- Loads the base register with the state base, where there is one. -/
def loadStateBase : Attempt Assembler (Except Error Unit) := do
  match (← get).mode with
  | .absolute => return .ok ()
  | .baseRelative base value =>
    encode {
      op := .mov, width := 64
      dst := .reg (.gpr base.val), src := .imm value.toInt64 64 }

def reset (a : Assembler) : Assembler := { a with literals := [] }

/-- Discards the code from `offset` on, with the jump sites and the addresses in it. -/
def truncate (offset : Int) : Attempt Assembler Unit := do
  onSegment (Segment.truncateSites offset)
  modify fun a => { a with literals := a.literals.filter fun l => l < offset }
  onSegment (Segment.truncateBuffer offset)

def release (a : Assembler) : Except Error Unit × Assembler :=
  match a.segment.buffer.release with
  | .ok b => (.ok (), { a with segment := { a.segment with buffer := b } })
  | .error text => (.error (.other text), a)

def verify (a : Assembler) : Except Error Unit :=
  match a.segment.table.targets with
  | [] => .ok ()
  | first :: rest => .error (.unresolved first rest)

end Assembler

end HostCode
