import HostCode.Decoder.Layout

/-! # Opcodes after the byte 0f

The second byte is the opcode, or one of two that lead to a third. In all of these, `modrm` is
the byte after the opcode. Most of the instructions on vectors share an opcode with others, and
are listed in the order in which they are tried.
-/

namespace HostCode.Decoder

open Layout

namespace Variants

def scalar (s : Shape) : Variants :=
  [(.repeatEqual, s), (.repeatUnequal, s), (.word, s), (.plain, s)]

def packed (s : Shape) : Variants := [(.word, s), (.plain, s)]

def word (s : Shape) : Variants := [(.word, s)]

def ofTwoByte (opcode : Nat) : Variants :=
  if [0x10, 0x11, 0x2a, 0x2c, 0x2d, 0x51, 0x58, 0x59, 0x5a, 0x5c, 0x5d, 0x5e, 0x5f, 0x70,
      0xc2].contains opcode then scalar .any
  else if [0x14, 0x15, 0x28, 0x29, 0x2e, 0x2f, 0x54, 0x55, 0x56, 0x57, 0x6e, 0x74, 0x75, 0x76,
      0xc4, 0xc6].contains opcode || (0x60 ≤ opcode && opcode ≤ 0x6b) then packed .any
  else match opcode with
    | 0x12 => [(.repeatEqual, .any), (.repeatUnequal, .any), (.word, .memory), (.plain, .any)]
    | 0x13 | 0x17 | 0xe7 => packed .memory
    | 0x16 => [(.repeatEqual, .any), (.word, .memory), (.plain, .any)]
    | 0x2b => scalar .memory
    | 0x50 | 0x71 | 0x72 | 0xc5 | 0xd7 | 0xf7 => packed .register
    | 0x52 | 0x53 | 0xbc | 0xbd => [(.repeatEqual, .any), (.plain, .any)]
    | 0x5b | 0x6f | 0x7e | 0x7f => [(.repeatEqual, .any), (.word, .any), (.plain, .any)]
    | 0x6c | 0x6d => word .any
    | 0x7c | 0x7d | 0xd0 => [(.repeatUnequal, .any), (.word, .any)]
    | 0xb8 => [(.repeatEqual, .any)]
    | 0xd6 => [(.repeatEqual, .register), (.repeatUnequal, .register), (.word, .any)]
    | 0xe6 => [(.repeatEqual, .any), (.repeatUnequal, .any), (.word, .any)]
    | 0xf0 => [(.repeatUnequal, .memory)]
    | _ => if 0xd1 ≤ opcode && opcode ≤ 0xfe then packed .any else []

def ofThreeByte38 (opcode : Nat) : Variants :=
  if opcode ≤ 0x0b || (0x1c ≤ opcode && opcode ≤ 0x1e) then packed .any
  else if [0x10, 0x14, 0x15, 0x17, 0x28, 0x29, 0x2b].contains opcode ||
      (0x20 ≤ opcode && opcode ≤ 0x25) || (0x30 ≤ opcode && opcode ≤ 0x35) ||
      (0x37 ≤ opcode && opcode ≤ 0x41) || (0xdb ≤ opcode && opcode ≤ 0xdf) then word .any
  else match opcode with
    | 0x2a | 0x82 => word .memory
    | 0xf0 | 0xf1 => [(.repeatUnequal, .any), (.plain, .memory)]
    | _ => []

def ofThreeByte3a (opcode : Nat) : Variants :=
  if opcode == 0x0f then packed .any
  else if [0x40, 0x41, 0x42, 0x44, 0xdf].contains opcode || (0x08 ≤ opcode && opcode ≤ 0x0e) ||
      (0x14 ≤ opcode && opcode ≤ 0x17) || (0x20 ≤ opcode && opcode ≤ 0x22) ||
      (0x60 ≤ opcode && opcode ≤ 0x63) then word .any
  else []

end Variants

/-- The layout of an instruction with an opcode of two bytes, whose ModRM byte can belong to
the opcode. -/
def twoByte (wide : Bool) (m : Modifiers) (opcode modrm : Nat) : Option Layout :=
  let ext := middle modrm
  let needs (p : Bool) (l : Option Layout) : Option Layout := if p then l else none
  let choice := choice m modrm
  if [0x06, 0x08, 0x09, 0x0b, 0x30, 0x31, 0x32, 0x33, 0x34, 0x35, 0x77, 0xa0, 0xa1, 0xa2,
      0xa8, 0xa9, 0xaa].contains opcode || (0xc8 ≤ opcode && opcode ≤ 0xcf) then plain .none
  else if 0x80 ≤ opcode && opcode ≤ 0x8f then plain .relative
  else if [0x02, 0x03, 0x20, 0x21, 0x22, 0x23, 0x24, 0x26, 0xa3, 0xa5, 0xab, 0xad, 0xaf, 0xb0,
      0xb1, 0xb3, 0xb6, 0xb7, 0xb9, 0xbb, 0xbe, 0xbf, 0xc0, 0xc1, 0xff].contains opcode ||
      (0x40 ≤ opcode && opcode ≤ 0x4f) || (0x90 ≤ opcode && opcode ≤ 0x9f) then
    operand modrm .any .none
  else match opcode with
    | 0x00 => needs (ext ≤ 5) (operand modrm .any .none)
    | 0x01 =>
      if [0xc8, 0xc9, 0xd0, 0xd1, 0xd5, 0xd6, 0xf8, 0xf9].contains modrm || ext == 4 || ext == 6
      then operand modrm .any .none
      else needs (ext != 5) (operand modrm .memory .none)
    | 0x05 | 0x07 => needs wide (plain .none)
    | 0x0d => needs (ext == 1) (operand modrm .memory .none)
    | 0x18 => needs (ext ≤ 3) (operand modrm .memory .none)
    | 0x1f => needs (ext == 0) (operand modrm .any .none)
    | 0x70 | 0xc2 | 0xc4 | 0xc5 | 0xc6 => choice (.ofTwoByte opcode) (.bytes 1)
    | 0x71 | 0x72 =>
      needs (ext == 2 || ext == 4 || ext == 6) (choice (.ofTwoByte opcode) (.bytes 1))
    | 0x73 =>
      match ext with
      | 2 | 6 => choice (.packed .register) (.bytes 1)
      | 3 | 7 => choice (.word .register) (.bytes 1)
      | _ => none
    | 0xa4 | 0xac => operand modrm .any (.bytes 1)
    | 0xae =>
      if [0xe8, 0xf0, 0xf8].contains modrm then operand modrm .any .none
      else if ext ≤ 3 then choice [(.repeatEqual, .any), (.plain, .memory)] .none
      else operand modrm .memory .none
    | 0xb2 | 0xb4 | 0xb5 | 0xc3 => operand modrm .memory .none
    | 0xba => needs (4 ≤ ext) (operand modrm .any (.bytes 1))
    | 0xc7 =>
      match ext with
      | 1 | 3 | 4 | 5 => operand modrm .memory .none
      | 6 => operand modrm .any .none
      | _ => none
    | _ => choice (.ofTwoByte opcode) .none

end HostCode.Decoder
