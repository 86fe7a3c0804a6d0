import HostCode.Condition
import HostCode.Operation
import HostCode.Proofs.Processor.Fields

/-! # The opcode map

What each opcode asks the processor to do, and where its operands come from. Some opcodes
stand for a group, in which the middle bits of the ModRM byte pick the operation. Others hold
a register or a condition in their low bits.
-/

namespace HostCode.Processor

/-- Where an operand comes from, and the size at which it is used. -/
inductive Arg
  /-- The register or the memory in the r/m field. -/
  | rm (s : Size)
  /-- The register in the middle of the ModRM byte. -/
  | reg (s : Size)
  /-- The register in the low bits of the opcode. -/
  | embedded (s : Size)
  | accumulator (s : Size)
  /-- The low byte of CX. -/
  | counter
  /-- The constant at the end, of the given size. -/
  | constant (s : Size)
  /-- The memory at the address at the end, which has a size of its own. -/
  | offset (address s : Size)
  /-- The floating point register in the r/m field. -/
  | float
  deriving DecidableEq, Repr

structure Entry where
  op : Op
  /-- The size that the instruction works on, if it comes in several. -/
  width : Option Size := none
  cond : Option Flag := none
  args : List Arg := []
  deriving DecidableEq, Repr

def hostSize (wide : Bool) : Size := if wide then .qword else .dword

def Fields.size (f : Fields) : Size :=
  match f.rex.w, f.word with
  | true, _ => .qword
  | false, true => .word
  | false, false => .dword

/-- What is pushed and popped is as wide as an address, if the operand size byte is not there. -/
def stackSize (wide : Bool) (v : Size) : Size := if v = .word then .word else hostSize wide

/-- Even opcodes are on bytes where the next one is not. -/
def sizeIn (b : UInt8) (v : Size) : Size := if b % 2 = 0 then .byte else v

def aluOf : BitVec 3 → Alu
  | 0 => .add | 1 => .or | 2 => .adc | 3 => .sbb | 4 => .and | 5 => .sub | 6 => .xor | _ => .cmp

def shiftOf? : BitVec 3 → Option Shift
  | 0 => some .rol | 1 => some .ror | 4 => some .shl | 5 => some .shr | 7 => some .sar | _ => none

def unaryOf? : BitVec 3 → Option Op
  | 2 => some (.unary .not) | 3 => some (.unary .neg) | 4 => some (.unary .mul)
  | 5 => some .imul | 6 => some (.unary .div) | 7 => some (.unary .idiv) | _ => none

def flagOf (b : UInt8) : Flag := Flag.all.getD (b.toNat % 16) .o

def arithmetic (v : Size) (b : UInt8) : Option Entry :=
  let s := sizeIn b v
  let entry (args : List Arg) : Entry :=
    { op := .alu (aluOf (b.toBitVec.extractLsb' 3 3)), width := some s, args }
  if b % 8 < 2 then some (entry [.rm s, .reg s])
  else if b % 8 < 4 then some (entry [.reg s, .rm s])
  else if b % 8 < 6 then some (entry [.accumulator s, .constant s.immediate])
  else none

def shifts (s : Size) (reg : BitVec 3) (count : Arg) : Option Entry :=
  (shiftOf? reg).map fun o => { op := .shift o, width := some s, args := [.rm s, count] }

/-- Opcodes of one byte. Some of them want memory and no register in the r/m field. -/
def oneByte (wide : Bool) (v : Size) (b : UInt8) (reg : BitVec 3) (register : Bool) :
    Option Entry :=
  let s := sizeIn b v
  if b < 0x40 then arithmetic v b
  else if 0x50 ≤ b && b < 0x60 then
    some { op := .stack (if b < 0x58 then .push else .pop), args := [.embedded (stackSize wide v)] }
  else if 0xb0 ≤ b && b < 0xb8 then
    some { op := .mov, width := some .byte, args := [.embedded .byte, .constant .byte] }
  else if 0xb8 ≤ b && b < 0xc0 then
    some { op := .mov, width := some v, args := [.embedded v, .constant v] }
  else match b with
  | 0x63 =>
    if wide then some { op := .extend .movsxd, width := some v, args := [.reg v, .rm .dword] }
    else none
  | 0x69 =>
    some { op := .imul, width := some v, args := [.reg v, .rm v, .constant v.immediate] }
  | 0x6b => some { op := .imul, width := some v, args := [.reg v, .rm v, .constant .byte] }
  | 0x80 =>
    some { op := .alu (aluOf reg), width := some .byte, args := [.rm .byte, .constant .byte] }
  | 0x81 =>
    some { op := .alu (aluOf reg), width := some v, args := [.rm v, .constant v.immediate] }
  | 0x83 => some { op := .alu (aluOf reg), width := some v, args := [.rm v, .constant .byte] }
  | 0x84 | 0x85 => some { op := .test, width := some s, args := [.rm s, .reg s] }
  | 0x88 | 0x89 => some { op := .mov, width := some s, args := [.rm s, .reg s] }
  | 0x8a | 0x8b => some { op := .mov, width := some s, args := [.reg s, .rm s] }
  | 0x8d => if register then none else some { op := .lea, width := some v, args := [.reg v, .rm v] }
  | 0x90 => some { op := .plain .nop }
  | 0x99 => some { op := .cdq, width := some v }
  | 0xa0 | 0xa1 =>
    some { op := .movabs, width := some s, args := [.accumulator s, .offset (hostSize wide) s] }
  | 0xa2 | 0xa3 =>
    some { op := .movabs, width := some s, args := [.offset (hostSize wide) s, .accumulator s] }
  | 0xa9 => some { op := .test, width := some v, args := [.accumulator v, .constant v.immediate] }
  | 0xc0 | 0xc1 => shifts s reg (.constant .byte)
  | 0xc3 => some { op := .plain .ret }
  | 0xc6 | 0xc7 =>
    if reg = 0 then some { op := .mov, width := some s, args := [.rm s, .constant s.immediate] }
    else none
  | 0xd2 | 0xd3 => shifts s reg .counter
  | 0xf6 | 0xf7 =>
    if reg = 0 then some { op := .test, width := some s, args := [.rm s, .constant s.immediate] }
    else (unaryOf? reg).map fun op => { op, width := some s, args := [.rm s] }
  | 0xfe | 0xff =>
    if reg = 0 then some { op := .count .inc, width := some s, args := [.rm s] }
    else if reg = 1 then some { op := .count .dec, width := some s, args := [.rm s] }
    else if b = 0xff ∧ reg = 2 then some { op := .transfer .call, args := [.rm (hostSize wide)] }
    else if b = 0xff ∧ reg = 4 then some { op := .transfer .jmp, args := [.rm (hostSize wide)] }
    else none
  | _ => none

def twoByte (v : Size) (b : UInt8) : Option Entry :=
  if 0x40 ≤ b && b < 0x50 then
    some { op := .cmovcc, width := some v, cond := some (flagOf b), args := [.reg v, .rm v] }
  else if 0x90 ≤ b && b < 0xa0 then
    some { op := .setcc, width := some .byte, cond := some (flagOf b), args := [.rm .byte] }
  else match b with
  | 0xa4 => shiftInto .shld (.constant .byte)
  | 0xa5 => shiftInto .shld .counter
  | 0xac => shiftInto .shrd (.constant .byte)
  | 0xad => shiftInto .shrd .counter
  | 0xaf => some { op := .imul, width := some v, args := [.reg v, .rm v] }
  | 0xb6 => extending .movzxb .byte
  | 0xb7 => extending .movzxw .word
  | 0xbe => extending .movsxb .byte
  | 0xbf => extending .movsxw .word
  | _ => none
where
  shiftInto (o : DoubleShift) (count : Arg) : Option Entry :=
    some { op := .doubleShift o, width := some v, args := [.rm v, .reg v, count] }
  extending (o : Extend) (source : Size) : Option Entry :=
    some { op := .extend o, width := some v, args := [.reg v, .rm source] }

def floatMemory (b : UInt8) (reg : BitVec 3) : Option Entry :=
  match b, reg with
  | 0xd8, 0 => on .fadd .dword | 0xd8, 1 => on .fmul .dword
  | 0xd8, 4 => on .fsub .dword | 0xd8, 6 => on .fdiv .dword
  | 0xd9, 0 => on .fld .dword | 0xd9, 2 => on .fst .dword | 0xd9, 3 => on .fstp .dword
  | 0xd9, 5 => on .fldcw .word
  | 0xdb, 0 => on .fild .dword | 0xdb, 3 => on .fistp .dword
  | 0xdc, 0 => on .fadd .qword | 0xdc, 1 => on .fmul .qword
  | 0xdc, 4 => on .fsub .qword | 0xdc, 6 => on .fdiv .qword
  | 0xdd, 0 => on .fld .qword | 0xdd, 2 => on .fst .qword | 0xdd, 3 => on .fstp .qword
  | 0xdf, 5 => on .fild .qword | 0xdf, 7 => on .fistp .qword
  | _, _ => none
where
  on (o : FloatMemory) (s : Size) : Option Entry :=
    some { op := .floatMemory o, width := some s, args := [.rm s] }

/-- Floating point opcodes without memory. The last bits are a register, or a part of the
opcode. -/
def floatRegister (b : UInt8) (reg last : BitVec 3) : Option Entry :=
  match b, reg with
  | 0xd9, 4 =>
    if last = 0 then some { op := .plain .fchs }
    else if last = 1 then some { op := .plain .fabs } else none
  | 0xd9, 7 => if last = 2 then some { op := .plain .fsqrt } else none
  | 0xdd, 0 => some { op := .floatStack .ffree, args := [.float] }
  | 0xdf, 5 => some { op := .floatStack .fucomip, args := [.float] }
  | 0xdf, 6 => some { op := .floatStack .fcomip, args := [.float] }
  | _, _ => none

/-- What an opcode asks for, with a ModRM byte behind it or without one. -/
def lookup (wide : Bool) (v : Size) : List UInt8 → Option (BitVec 3 × RM) → Option Entry
  | [b], none => oneByte wide v b 0 false
  | [b], some (reg, m) =>
    if 0xd8 ≤ b && b < 0xe0 then
      if m.mod = 3 then floatRegister b reg m.rm else floatMemory b reg
    else oneByte wide v b reg (m.mod = 3)
  | [_, b], some _ => twoByte v b
  | _, _ => none

end HostCode.Processor
