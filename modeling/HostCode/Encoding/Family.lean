import HostCode.Encoding.Memory

/-! # Encoding by family

Each family of operations has a few forms, told apart by the kinds of its operands. A form
is an opcode, an r/m operand with a register or opcode bits beside it, and an immediate.
-/

namespace HostCode.Encoding

variable (mode : AddressingMode)

/-! ## Building blocks -/

def generalPurpose : Register → Except Rejection Gpr
  | .gpr r => .ok r
  | r => .error (.notGeneralPurpose r)

def sizeOf (r : Request) : Except Rejection Size :=
  match Size.ofBits? r.width with
  | some s => .ok s
  | none => .error (.width r.width)

def wideSizeOf (r : Request) : Except Rejection Size :=
  match Size.ofBits? r.width with
  | some .byte | none => .error (.width r.width)
  | some s => .ok s

def unsupported {α : Type} (r : Request) : Except Rejection α := .error (.operands r.dst r.src)

def sizeRex : Size → Rex
  | .qword => { w := true }
  | _ => {}

/-- As bytes, the registers from SP to DI are told from the high halves of the first four
by a REX byte, which only wide hosts have. -/
def byteRex : Register → Rex
  | .gpr .sp | .gpr .bp | .gpr .si | .gpr .di => { bare := mode.wide }
  | _ => {}

def operandByteRex : Operand → Rex
  | .reg r => byteRex mode r
  | _ => {}

/-- An opcode and its companion on bytes, which is the one before it. -/
def opcodeFor (s : Size) (opcode : UInt8) : List UInt8 :=
  [if s = .byte then opcode - 1 else opcode]

/-- `rm` in the r/m field and a register beside it. -/
def withRegister (s : Size) (opcode : List UInt8) (rm : Operand) (reg : Register) :
    Except Rejection Instruction := do
  let r ← generalPurpose reg
  let m ← RM.ofOperand mode rm
  let bytes : Rex := if s = .byte then (operandByteRex mode rm).merge (byteRex mode reg) else {}
  return {
    sizeByte := s = .word
    rex := (((sizeRex s).merge { r := r.extended }).merge m.rex).merge bytes
    opcode
    modrm := some (r.low, m) }

def withExtension (s : Size) (opcode : List UInt8) (rm : Operand) (ext : BitVec 3) :
    Except Rejection Instruction := do
  let m ← RM.ofOperand mode rm
  let bytes : Rex := if s = .byte then operandByteRex mode rm else {}
  return {
    sizeByte := s = .word
    rex := ((sizeRex s).merge m.rex).merge bytes
    opcode
    modrm := some (ext, m) }

/-- No r/m operand: the registers are fixed, or part of the opcode. -/
def bare (s : Size) (opcode : List UInt8) : Instruction :=
  { sizeByte := s = .word, rex := sizeRex s, opcode }

def addImmediate (i : Instruction) (size : Size) (value : Int64) : Instruction :=
  { i with imm := some ⟨size, value⟩ }

/-! ## Integer instructions -/

/-- The place of an arithmetic operation in its group. -/
def aluCode : Alu → BitVec 3
  | .add => 0 | .or => 1 | .adc => 2 | .sbb => 3 | .and => 4 | .sub => 5 | .xor => 6 | .cmp => 7

def aluOpcode (o : Alu) (form : UInt8) : UInt8 := 8 * UInt8.ofNat (aluCode o).toNat + form

def alu (o : Alu) (r : Request) : Except Rejection Instruction := do
  let s ← sizeOf r
  match r.src with
  | .reg q =>
    if r.dst.isRM then withRegister mode s (opcodeFor s (aluOpcode o 1)) r.dst q
    else unsupported r
  | .imm v bits =>
    if !r.dst.isRM || bits = 64 then unsupported r
    else if s = .byte then
      return addImmediate (← withExtension mode s [0x80] r.dst (aluCode o)) .byte v
    else if bits = 8 then
      return addImmediate (← withExtension mode s [0x83] r.dst (aluCode o)) .byte v
    else if r.dst = .reg (.gpr .ax) then
      return addImmediate (bare s [aluOpcode o 5]) s.immediate v
    else
      return addImmediate (← withExtension mode s [0x81] r.dst (aluCode o)) s.immediate v
  | src =>
    match r.dst with
    | .reg d =>
      if src.isMemory then withRegister mode s (opcodeFor s (aluOpcode o 3)) src d
      else unsupported r
    | _ => unsupported r

/-- Moving a register to itself writes nothing, unless it clears the upper half of a wide
register. -/
def mov (r : Request) : Except Rejection (Option Instruction) := do
  let s ← sizeOf r
  match r.dst, r.src with
  | .reg d, .reg q =>
    if d = q && (s = .qword || !mode.wide) then
      let _ ← generalPurpose d
      return none
    else withRegister mode s (opcodeFor s 0x89) r.dst q
  | .reg d, .imm v bits =>
    if s = .qword && bits ≠ 64 then
      return addImmediate (← withExtension mode s [0xc7] r.dst 0) .dword v
    else if bits = 64 && s ≠ .qword then unsupported r
    else
      let g ← generalPurpose d
      let opcode := (if s = .byte then 0xb0 else 0xb8) + UInt8.ofNat g.low.toNat
      let bytes : Rex := if s = .byte then byteRex mode d else {}
      let i := bare s [opcode]
      return addImmediate { i with rex := (i.rex.merge { b := g.extended }).merge bytes } s v
  | .reg d, src =>
    if src.isMemory then withRegister mode s (opcodeFor s 0x8b) src d else unsupported r
  | dst, .reg q =>
    if dst.isMemory then withRegister mode s (opcodeFor s 0x89) dst q else unsupported r
  | dst, .imm v bits =>
    if !dst.isMemory || bits = 64 then unsupported r
    else return addImmediate (← withExtension mode s (opcodeFor s 0xc7) dst 0) s.immediate v
  | _, _ => unsupported r

def movabs (r : Request) : Except Rejection Instruction := do
  let s ← sizeOf r
  match r.dst, r.src with
  | .reg (.gpr .ax), .abs a => finish s 0xa1 a
  | .abs a, .reg (.gpr .ax) => finish s 0xa3 a
  | _, _ => unsupported r
where
  finish (s : Size) (opcode : UInt8) (a : HostAddress) : Except Rejection Instruction :=
    let i := bare s (opcodeFor s opcode)
    if mode.wide then .ok (addImmediate i .qword a.toInt64)
    else if a.toNat < 0x100000000 then .ok (addImmediate i .dword a.toInt64)
    else .error (.displacement ⟨a, 0, 32⟩)

def test (r : Request) : Except Rejection Instruction := do
  let s ← sizeOf r
  if !r.dst.isRM then unsupported r else
  match r.src with
  | .reg q => withRegister mode s (opcodeFor s 0x85) r.dst q
  | .imm v bits =>
    if bits = 64 then unsupported r
    else if s ≠ .byte && r.dst = .reg (.gpr .ax) then
      return addImmediate (bare s [0xa9]) s.immediate v
    else return addImmediate (← withExtension mode s (opcodeFor s 0xf7) r.dst 0) s.immediate v
  | _ => unsupported r

/-- One operand that is read and written, selected among others by `ext`. -/
def single (opcode : UInt8) (ext : BitVec 3) (r : Request) : Except Rejection Instruction := do
  let s ← sizeOf r
  if r.dst.isRM && r.src.isNone then withExtension mode s (opcodeFor s opcode) r.dst ext
  else unsupported r

def unaryCode : Unary → BitVec 3
  | .not => 2 | .neg => 3 | .mul => 4 | .div => 6 | .idiv => 7

/-- One operand multiplies the accumulator, two multiply the first, and three write the
product of the last two. -/
def imul (r : Request) : Except Rejection Instruction := do
  if r.src.isNone then single mode 0xf7 5 r else
  let s ← wideSizeOf r
  match r.dst with
  | .reg d =>
    if !r.src.isRM then unsupported r else
    match r.aux with
    | .none => withRegister mode s [0x0f, 0xaf] r.src d
    | .imm v bits =>
      if bits = 8 then return addImmediate (← withRegister mode s [0x6b] r.src d) .byte v
      else return addImmediate (← withRegister mode s [0x69] r.src d) s.immediate v
    | _ => unsupported r
  | _ => unsupported r

def countCode : Count → BitVec 3
  | .inc => 0 | .dec => 1

def shiftCode : Shift → BitVec 3
  | .rol => 0 | .ror => 1 | .shl => 4 | .shr => 5 | .sar => 7

/-- Shifts count by a byte or by CX. -/
def shift (o : Shift) (r : Request) : Except Rejection Instruction := do
  let s ← sizeOf r
  if !r.dst.isRM then unsupported r else
  match r.src with
  | .imm v _ =>
    return addImmediate (← withExtension mode s (opcodeFor s 0xc1) r.dst (shiftCode o)) .byte v
  | .reg (.gpr .cx) => withExtension mode s (opcodeFor s 0xd3) r.dst (shiftCode o)
  | _ => unsupported r

def doubleShiftOpcode : DoubleShift → UInt8
  | .shld => 0xa4 | .shrd => 0xac

def doubleShift (o : DoubleShift) (r : Request) : Except Rejection Instruction := do
  let s ← wideSizeOf r
  match r.src with
  | .reg q =>
    if !r.dst.isRM then unsupported r else
    match r.aux with
    | .imm v _ =>
      return addImmediate (← withRegister mode s [0x0f, doubleShiftOpcode o] r.dst q) .byte v
    | .reg (.gpr .cx) => withRegister mode s [0x0f, doubleShiftOpcode o + 1] r.dst q
    | _ => unsupported r
  | _ => unsupported r

def extendOpcode : Extend → List UInt8
  | .movsxb => [0x0f, 0xbe] | .movsxw => [0x0f, 0xbf]
  | .movzxb => [0x0f, 0xb6] | .movzxw => [0x0f, 0xb7]
  | .movsxd => [0x63]

def extendSource : Extend → Size
  | .movsxb | .movzxb => .byte
  | .movsxw | .movzxw => .word
  | .movsxd => .dword

/-- The width of an extension is that of its destination, and exceeds that of its source. -/
def extend (o : Extend) (r : Request) : Except Rejection Instruction := do
  let s ← sizeOf r
  if s.bits ≤ (extendSource o).bits then throw (.width r.width)
  match r.dst with
  | .reg d =>
    if !r.src.isRM then unsupported r else
    let i ← withRegister mode s (extendOpcode o) r.src d
    if extendSource o = .byte then
      return { i with rex := i.rex.merge (operandByteRex mode r.src) }
    else return i
  | _ => unsupported r

def lea (r : Request) : Except Rejection Instruction := do
  let s ← wideSizeOf r
  match r.dst with
  | .reg d =>
    if r.src.isMemory then withRegister mode s [0x8d] r.src d else unsupported r
  | _ => unsupported r

def flagOf (r : Request) : Except Rejection Flag :=
  match r.cond with
  | .flag c => .ok c
  | c => .error (.condition c)

/-- A byte is set whatever width is left out. -/
def setcc (r : Request) : Except Rejection Instruction := do
  if r.width ≠ 0 ∧ r.width ≠ 8 then throw (.width r.width)
  let c ← flagOf r
  if r.dst.isRM && r.src.isNone then
    withExtension mode .byte [0x0f, 0x90 + UInt8.ofNat c.code.toNat] r.dst 0
  else unsupported r

def cmovcc (r : Request) : Except Rejection Instruction := do
  let s ← wideSizeOf r
  let c ← flagOf r
  match r.dst with
  | .reg d =>
    if r.src.isRM then withRegister mode s [0x0f, 0x40 + UInt8.ofNat c.code.toNat] r.src d
    else unsupported r
  | _ => unsupported r

/-- The sign of the accumulator goes to DX, on any size but bytes. -/
def cdq (r : Request) : Except Rejection Instruction := do
  return bare (← wideSizeOf r) [0x99]

def transferCode : Transfer → BitVec 3
  | .call => 2 | .jmp => 4

/-- Control goes to an address in a register or in memory, as wide as the host's own. -/
def transfer (o : Transfer) (r : Request) : Except Rejection Instruction :=
  if r.dst.isRM && r.src.isNone then withExtension mode .dword [0xff] r.dst (transferCode o)
  else unsupported r

def stackOpcode : Stack → UInt8
  | .push => 0x50 | .pop => 0x58

def stack (o : Stack) (r : Request) : Except Rejection Instruction := do
  match r.dst with
  | .reg d =>
    if !r.src.isNone then unsupported r else
    let g ← generalPurpose d
    return { opcode := [stackOpcode o + UInt8.ofNat g.low.toNat], rex := { b := g.extended } }
  | _ => unsupported r

def plainOpcode : Plain → List UInt8
  | .nop => [0x90] | .ret => [0xc3]
  | .fchs => [0xd9, 0xe0] | .fabs => [0xd9, 0xe1] | .fsqrt => [0xd9, 0xfa]

def plain (o : Plain) (r : Request) : Except Rejection Instruction :=
  if r.dst.isNone && r.src.isNone then .ok { opcode := plainOpcode o } else unsupported r

/-! ## Floating point instructions -/

def floatOperand (r : Request) : Except Rejection Operand :=
  match r.dst, r.src with
  | .none, .none => unsupported r
  | dst, .none => .ok dst
  | .none, src => .ok src
  | _, _ => unsupported r

/-- The opcode and its extension for a value of the given size in memory. -/
def floatMemoryCode : FloatMemory → Size → Option (UInt8 × BitVec 3)
  | .fld, .dword => some (0xd9, 0) | .fld, .qword => some (0xdd, 0)
  | .fst, .dword => some (0xd9, 2) | .fst, .qword => some (0xdd, 2)
  | .fstp, .dword => some (0xd9, 3) | .fstp, .qword => some (0xdd, 3)
  | .fild, .dword => some (0xdb, 0) | .fild, .qword => some (0xdf, 5)
  | .fistp, .dword => some (0xdb, 3) | .fistp, .qword => some (0xdf, 7)
  | .fadd, .dword => some (0xd8, 0) | .fadd, .qword => some (0xdc, 0)
  | .fmul, .dword => some (0xd8, 1) | .fmul, .qword => some (0xdc, 1)
  | .fsub, .dword => some (0xd8, 4) | .fsub, .qword => some (0xdc, 4)
  | .fdiv, .dword => some (0xd8, 6) | .fdiv, .qword => some (0xdc, 6)
  | .fldcw, .word => some (0xd9, 5)
  | _, _ => none

/-- The width is that of the value and part of the opcode. -/
def floatMemory (o : FloatMemory) (r : Request) : Except Rejection Instruction := do
  let place ← floatOperand r
  if !place.isMemory then unsupported r else
  match (Size.ofBits? r.width).bind (floatMemoryCode o) with
  | some (opcode, ext) => withExtension mode .dword [opcode] place ext
  | none => .error (.width r.width)

def floatStackOpcode : FloatStack → UInt8 × UInt8
  | .fcomip => (0xdf, 0xf0) | .fucomip => (0xdf, 0xe8) | .ffree => (0xdd, 0xc0)

def floatStack (o : FloatStack) (r : Request) : Except Rejection Instruction := do
  match ← floatOperand r with
  | .reg (.st i) =>
    let (first, second) := floatStackOpcode o
    return { opcode := [first, second + UInt8.ofNat i.val] }
  | _ => unsupported r

/-! ## All families -/

/-- The instruction for a request, before the host is considered. Operations without a
family have none. -/
def family (r : Request) : Option (Except Rejection (Option Instruction)) :=
  match r.op with
  | .none | .unnamed _ => none
  | .alu o => some (alu mode o r)
  | .mov => some (mov mode r)
  | .movabs => some (movabs mode r)
  | .test => some (test mode r)
  | .unary o => some (single mode 0xf7 (unaryCode o) r)
  | .imul => some (imul mode r)
  | .count o => some (single mode 0xff (countCode o) r)
  | .shift o => some (shift mode o r)
  | .doubleShift o => some (doubleShift mode o r)
  | .extend o => some (extend mode o r)
  | .lea => some (lea mode r)
  | .setcc => some (setcc mode r)
  | .cmovcc => some (cmovcc mode r)
  | .cdq => some (cdq r)
  | .transfer o => some (transfer mode o r)
  | .stack o => some (stack o r)
  | .plain o => some (plain o r)
  | .floatMemory o => some (floatMemory mode o r)
  | .floatStack o => some (floatStack o r)

def forHost (i : Instruction) : Except Rejection Instruction :=
  if i.rex.needed && !mode.wide then .error (.rexOnNarrowHost i.rex) else .ok i

/-- The instruction for a request, or nothing where none is needed. -/
def encode (r : Request) : Except EncodeError (Option Instruction) :=
  match family mode r with
  | none => .error (.unknown r.op)
  | some (.error e) => .error (.rejected r e)
  | some (.ok none) => .ok none
  | some (.ok (some i)) =>
    match forHost mode i with
    | .error e => .error (.rejected r e)
    | .ok i => .ok (some i)

end HostCode.Encoding
