import HostCode.Operand

/-! # Instruction fields

An instruction is a sequence of fields: the operand size byte, the REX byte, the opcode, the
ModRM byte with its SIB byte and displacement, and an immediate. Each field is written whole.
-/

namespace HostCode

/-- The REX byte. It is needed if one of its bits is set, or if its mere presence changes
the meaning of a register number. -/
structure Rex where
  w : Bool := false
  r : Bool := false
  x : Bool := false
  b : Bool := false
  bare : Bool := false
  deriving DecidableEq, Repr

namespace Rex

def needed (p : Rex) : Bool := p.w || p.r || p.x || p.b || p.bare

def byte (p : Rex) : UInt8 :=
  .ofBitVec (4#4 ++ BitVec.ofBool p.w ++ BitVec.ofBool p.r ++ BitVec.ofBool p.x ++
    BitVec.ofBool p.b)

def merge (p q : Rex) : Rex :=
  ⟨p.w || q.w, p.r || q.r, p.x || q.x, p.b || q.b, p.bare || q.bare⟩

end Rex

structure Sib where
  scale : BitVec 2
  index : BitVec 3
  base : BitVec 3
  deriving DecidableEq, Repr

def Sib.byte (s : Sib) : UInt8 := .ofBitVec (s.scale ++ s.index ++ s.base)

inductive Displacement
  | none
  | byte (v : Int8)
  | dword (v : Int32)
  deriving DecidableEq, Repr

def Displacement.fields : Displacement → List (List UInt8)
  | none => []
  | byte v => [[v.toUInt8]]
  | dword v => [littleEndian 4 v.toUInt32.toNat]

/-- An operand in the r/m field, with the two REX bits that belong to it. -/
structure RM where
  mod : BitVec 2
  rm : BitVec 3
  x : Bool := false
  b : Bool := false
  sib : Option Sib := .none
  disp : Displacement := .none
  deriving DecidableEq, Repr

def RM.rex (m : RM) : Rex := { x := m.x, b := m.b }

def RM.fields (m : RM) (reg : BitVec 3) : List (List UInt8) :=
  [.ofBitVec (m.mod ++ reg ++ m.rm)] ::
    ((m.sib.map fun s => [s.byte]).toList ++ m.disp.fields)

structure Immediate where
  size : Size
  value : Int64
  deriving DecidableEq, Repr

def Immediate.field (i : Immediate) : List UInt8 :=
  littleEndian i.size.bytes i.value.toUInt64.toNat

structure Instruction where
  /-- The operand size byte, for 16-bit operands. -/
  sizeByte : Bool := false
  rex : Rex := {}
  opcode : List UInt8
  /-- The middle bits of the ModRM byte, a register or a part of the opcode, and the operand
  around them. -/
  modrm : Option (BitVec 3 × RM) := .none
  imm : Option Immediate := .none
  deriving DecidableEq, Repr

namespace Instruction

def fields (i : Instruction) : List (List UInt8) :=
  (if i.sizeByte then [[0x66]] else []) ++
  (if i.rex.needed then [[i.rex.byte]] else []) ++
  [i.opcode] ++
  (match i.modrm with
    | some (reg, rm) => rm.fields reg
    | none => []) ++
  (i.imm.map (·.field)).toList

def bytes (i : Instruction) : List UInt8 := i.fields.flatten

end Instruction

end HostCode
