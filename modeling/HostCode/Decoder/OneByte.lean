import HostCode.Decoder.Layout

/-! # Opcodes of one byte

In all of these, `modrm` is the byte after the opcode.
-/

namespace HostCode.Decoder

open Layout

/-- The opcodes from d8 to df with a ModRM byte that makes a floating point instruction. -/
def isFloat (opcode modrm : Nat) : Bool :=
  if isRegister modrm then
    match opcode with
    | 0xd8 => true
    | 0xd9 => modrm ≤ 0xd0 ||
      (0xe0 ≤ modrm && !([0xe2, 0xe3, 0xe6, 0xe7, 0xef].contains modrm))
    | 0xda => modrm < 0xe0 || modrm == 0xe9
    | 0xdb => modrm < 0xe0 || modrm == 0xe2 || modrm == 0xe3 || (0xe8 ≤ modrm && modrm < 0xf8)
    | 0xdc => modrm < 0xd0 || 0xe0 ≤ modrm
    | 0xdd => modrm < 0xc8 || (0xd0 ≤ modrm && modrm < 0xf0)
    | 0xde => modrm < 0xd0 || modrm == 0xd9 || 0xe0 ≤ modrm
    | _ => modrm < 0xc8 || modrm == 0xe0 || (0xe8 ≤ modrm && modrm < 0xf8)
  else
    match opcode with
    | 0xd9 => middle modrm != 1
    | 0xdb => middle modrm != 4 && middle modrm != 6
    | 0xdd => middle modrm != 5
    | _ => true

def oneByte (wide : Bool) (opcode modrm : Nat) : Option Layout :=
  let ext := middle modrm
  let narrowOnly (l : Option Layout) : Option Layout := if wide then none else l
  if opcode < 0x40 then
    match opcode % 8 with
    | 4 => plain (.bytes 1)
    | 5 => plain .sized
    | 6 | 7 => narrowOnly (plain .none)
    | _ => operand modrm .any .none
  else if opcode < 0x50 then narrowOnly (plain .none)
  else if opcode < 0x60 then plain .none
  else if 0x70 ≤ opcode && opcode < 0x80 then plain (.bytes 1)
  else if 0x84 ≤ opcode && opcode < 0x8f then
    match opcode with
    | 0x8c | 0x8e => if ext < 6 then operand modrm .any .none else none
    | 0x8d => operand modrm .memory .none
    | _ => operand modrm .any .none
  else if 0x90 ≤ opcode && opcode < 0xa0 then
    if opcode == 0x9a then narrowOnly (plain .far) else plain .none
  else if 0xa0 ≤ opcode && opcode < 0xa4 then plain .address
  else if 0xb0 ≤ opcode && opcode < 0xb8 then plain (.bytes 1)
  else if 0xb8 ≤ opcode && opcode < 0xc0 then plain .full
  else if 0xd8 ≤ opcode && opcode < 0xe0 then
    if isFloat opcode modrm then operand modrm .any .none else none
  else if 0xe0 ≤ opcode && opcode < 0xe8 then plain (.bytes 1)
  else match opcode with
    | 0x60 | 0x61 | 0xce => narrowOnly (plain .none)
    | 0x62 | 0xc4 | 0xc5 => narrowOnly (operand modrm .memory .none)
    | 0x63 => operand modrm .any .none
    | 0x68 | 0xa9 => plain .sized
    | 0x69 | 0x81 => operand modrm .any .sized
    | 0x6a | 0xa8 | 0xcd | 0xeb => plain (.bytes 1)
    | 0x6b | 0x80 | 0x83 => operand modrm .any (.bytes 1)
    | 0x8f => if ext == 0 then operand modrm .any .none else none
    | 0xc0 | 0xc1 => if ext == 6 then none else operand modrm .any (.bytes 1)
    | 0xc2 | 0xca => plain (.bytes 2)
    | 0xc6 => if ext == 0 || modrm == 0xf8 then operand modrm .any (.bytes 1) else none
    | 0xc7 => if ext == 0 || modrm == 0xf8 then operand modrm .any .sized else none
    | 0xc8 => plain (.bytes 3)
    | 0xd0 | 0xd1 | 0xd2 | 0xd3 => if ext == 6 then none else operand modrm .any .none
    | 0xd4 | 0xd5 => narrowOnly (plain (.bytes 1))
    | 0x64 | 0x65 | 0x66 | 0x67 | 0x82 | 0xd6 | 0xf0 | 0xf2 | 0xf3 => none
    | 0xe8 | 0xe9 => plain .relative
    | 0xea => narrowOnly (plain .far)
    | 0xf6 =>
      match ext with
      | 0 => operand modrm .any (.bytes 1)
      | 1 => none
      | _ => operand modrm .any .none
    | 0xf7 =>
      match ext with
      | 0 => operand modrm .any .sized
      | 1 => none
      | _ => operand modrm .any .none
    | 0xfe => if ext ≤ 1 then operand modrm .any .none else none
    | 0xff =>
      match ext with
      | 3 | 5 => operand modrm .memory .none
      | 7 => none
      | _ => operand modrm .any .none
    | _ => plain .none

/-- The layout of an instruction with an extension. Few opcodes heed it: they move a vector to
or from memory, or clear the upper halves of all vectors. -/
def extended (wide : Bool) (e : Extension) (opcode modrm : Nat) : Option Layout :=
  let needs (p : Bool) (l : Option Layout) : Option Layout := if p then l else none
  match opcode with
  | 0x2a =>
    if e.long then needs (e.table == 2 && e.choice == 1) (operand modrm .memory .none)
    else oneByte wide opcode modrm
  | 0x6f | 0x7f =>
    needs (e.table == 1 && (e.choice == 1 || e.choice == 2)) (operand modrm .any .none)
  | 0x77 => needs (e.table == 1) (plain .none)
  | 0xe7 => needs (e.table == 1 && e.choice == 1) (operand modrm .memory .none)
  | _ => oneByte wide opcode modrm

end HostCode.Decoder
