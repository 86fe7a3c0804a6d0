/-! # Operations

The instruction families. Families that share a layout are grouped, so that the layout is
a function of the group and only the numbers in it depend on the member.
-/

namespace HostCode

inductive Alu | add | or | adc | sbb | and | sub | xor | cmp
  deriving DecidableEq, Repr

inductive Unary | not | neg | mul | div | idiv
  deriving DecidableEq, Repr

inductive Count | inc | dec
  deriving DecidableEq, Repr

inductive Shift | rol | ror | shl | shr | sar
  deriving DecidableEq, Repr

inductive DoubleShift | shld | shrd
  deriving DecidableEq, Repr

inductive Extend | movsxb | movsxw | movzxb | movzxw | movsxd
  deriving DecidableEq, Repr

inductive Transfer | call | jmp
  deriving DecidableEq, Repr

inductive Stack | push | pop
  deriving DecidableEq, Repr

inductive Plain | nop | ret | fchs | fabs | fsqrt
  deriving DecidableEq, Repr

inductive FloatMemory | fld | fst | fstp | fild | fistp | fadd | fmul | fsub | fdiv | fldcw
  deriving DecidableEq, Repr

inductive FloatStack | fcomip | fucomip | ffree
  deriving DecidableEq, Repr

inductive Op
  | none
  | alu (o : Alu)
  | mov
  | movabs
  | test
  | unary (o : Unary)
  | imul
  | count (o : Count)
  | shift (o : Shift)
  | doubleShift (o : DoubleShift)
  | extend (o : Extend)
  | lea
  | setcc
  | cmovcc
  | cdq
  | transfer (o : Transfer)
  | stack (o : Stack)
  | plain (o : Plain)
  | floatMemory (o : FloatMemory)
  | floatStack (o : FloatStack)
  | unnamed (code : UInt8)
  deriving DecidableEq, Repr

namespace Op

/-- The operations with a name in the order of their codes, which start at one. -/
def named : List Op :=
  [alu .adc, alu .add, alu .and, transfer .call, cdq, cmovcc, alu .cmp, count .dec,
    unary .div, plain .fabs, floatMemory .fadd, plain .fchs, floatStack .fcomip,
    floatMemory .fdiv, floatStack .ffree, floatMemory .fild, floatMemory .fistp,
    floatMemory .fld, floatMemory .fldcw, floatMemory .fmul, plain .fsqrt, floatMemory .fst,
    floatMemory .fstp, floatMemory .fsub, floatStack .fucomip, unary .idiv, imul, count .inc,
    transfer .jmp, lea, mov, movabs, extend .movsxb, extend .movsxd, extend .movsxw,
    extend .movzxb, extend .movzxw, unary .mul, unary .neg, plain .nop, unary .not, alu .or,
    stack .pop, stack .push, plain .ret, shift .rol, shift .ror, shift .sar, alu .sbb, setcc,
    shift .shl, doubleShift .shld, shift .shr, doubleShift .shrd, alu .sub, test, alu .xor]

def name : Op → String
  | none => "NONE"
  | alu .add => "ADD" | alu .or => "OR" | alu .adc => "ADC" | alu .sbb => "SBB"
  | alu .and => "AND" | alu .sub => "SUB" | alu .xor => "XOR" | alu .cmp => "CMP"
  | mov => "MOV" | movabs => "MOVABS" | test => "TEST"
  | unary .not => "NOT" | unary .neg => "NEG" | unary .mul => "MUL"
  | unary .div => "DIV" | unary .idiv => "IDIV"
  | imul => "IMUL"
  | count .inc => "INC" | count .dec => "DEC"
  | shift .rol => "ROL" | shift .ror => "ROR" | shift .shl => "SHL"
  | shift .shr => "SHR" | shift .sar => "SAR"
  | doubleShift .shld => "SHLD" | doubleShift .shrd => "SHRD"
  | extend .movsxb => "MOVSXB" | extend .movsxw => "MOVSXW" | extend .movzxb => "MOVZXB"
  | extend .movzxw => "MOVZXW" | extend .movsxd => "MOVSXD"
  | lea => "LEA" | setcc => "SETCC" | cmovcc => "CMOVCC" | cdq => "CDQ"
  | transfer .call => "CALL" | transfer .jmp => "JMP"
  | stack .push => "PUSH" | stack .pop => "POP"
  | plain .nop => "NOP" | plain .ret => "RET" | plain .fchs => "FCHS"
  | plain .fabs => "FABS" | plain .fsqrt => "FSQRT"
  | floatMemory .fld => "FLD" | floatMemory .fst => "FST" | floatMemory .fstp => "FSTP"
  | floatMemory .fild => "FILD" | floatMemory .fistp => "FISTP" | floatMemory .fadd => "FADD"
  | floatMemory .fmul => "FMUL" | floatMemory .fsub => "FSUB" | floatMemory .fdiv => "FDIV"
  | floatMemory .fldcw => "FLDCW"
  | floatStack .fcomip => "FCOMIP" | floatStack .fucomip => "FUCOMIP"
  | floatStack .ffree => "FFREE"
  | unnamed c => "Op(" ++ toString c.toNat ++ ")"

def ofName? (s : String) : Option Op := named.find? (·.name == s)

def code : Op → UInt8
  | none => 0
  | unnamed c => c
  | op => UInt8.ofNat (1 + named.idxOf op)

def ofCode (c : UInt8) : Op :=
  if c = 0 then none else named.getD (c.toNat - 1) (unnamed c)

end Op

end HostCode
