import HostCode.Encoding.Rejection

/-! # The r/m operand

A register or a place in memory in the ModRM byte. The displacement of a place takes the
fewest bytes that hold it, except for state fields, which all have the same length.
-/

namespace HostCode.RM

/-- The mode bits and the displacement for a base whose low bits are `base`. Without a
displacement, the low bits of BP and R13 would mean an absolute address. -/
def shortest (base : BitVec 3) (disp : Int32) : BitVec 2 × Displacement :=
  if disp = 0 ∧ base ≠ 5 then (0, .none)
  else if -128 ≤ disp.toInt ∧ disp.toInt ≤ 127 then (1, .byte disp.toInt8)
  else (2, .dword disp)

def register (r : Gpr) : RM := { mod := 3, rm := r.low, b := r.extended }

/-- A base without an index. The low bits of SP and R12 announce a SIB byte, so these two
get one that has no index. -/
def based (base : Gpr) (form : BitVec 2 × Displacement) : RM where
  mod := form.1
  rm := base.low
  b := base.extended
  sib := if base.low = 4 then some ⟨0, 4, 4⟩ else none
  disp := form.2

def indexed (base index : Gpr) (scale : BitVec 2) (form : BitVec 2 × Displacement) : RM where
  mod := form.1
  rm := 4
  x := index.extended
  b := base.extended
  sib := some ⟨scale, index.low, base.low⟩
  disp := form.2

def scaleBits? (scale : UInt8) : Option (BitVec 2) :=
  if scale = 1 then some 0 else if scale = 2 then some 1
  else if scale = 4 then some 2 else if scale = 8 then some 3 else none

def memory (base index : Register) (scale : UInt8) (disp : Int32) : Except Rejection RM :=
  match base with
  | .gpr b =>
    let form := shortest b.low disp
    match index with
    | .none => .ok (based b form)
    | .gpr i =>
      if i = .sp then .error .stackPointerIndex else
      match scaleBits? scale with
      | some s => .ok (indexed b i s form)
      | none => .error (.scale scale)
    | r => .error (.indexRegister r)
  | r => .error (.baseRegister r)

/-- A state field: an absolute address, or a displacement of 32 bits from the state base. -/
def state (mode : AddressingMode) (address : HostAddress) : Except Rejection RM :=
  match mode with
  | .absolute =>
    if address.toNat < 0x100000000 then
      .ok { mod := 0, rm := 5, disp := .dword address.toUInt32.toInt32 }
    else .error (.displacement ⟨address, 0, 32⟩)
  | .baseRelative base value =>
    match displacement address value with
    | .ok d => .ok (based base.val (2, .dword d))
    | .error e => .error (.displacement e)

def ofOperand (mode : AddressingMode) : Operand → Except Rejection RM
  | .reg (.gpr r) => .ok (register r)
  | .reg r => .error (.notGeneralPurpose r)
  | .mem base index scale disp => memory base index scale disp
  | .state address => state mode address
  | o => .error (.notInModRM o)

end HostCode.RM
