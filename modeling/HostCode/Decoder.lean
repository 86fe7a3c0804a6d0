import HostCode.Decoder.OneByte
import HostCode.Decoder.TwoByte

/-! # Instruction lengths

How many bytes an instruction takes: leading bytes that modify it, an opcode of up to three
bytes, a ModRM byte with its SIB byte and displacement, and an immediate. What is no
instruction, or is cut short, has no length.
-/

namespace HostCode.Decoder

def opcode (wide : Bool) (m : Modifiers) : List UInt8 → Option (Nat × Layout × List UInt8)
  | [] => none
  | 0x0f :: 0x38 :: b :: rest =>
    (Layout.choice m (peek rest) (.ofThreeByte38 b.toNat) .none).map fun l => (3, l, rest)
  | 0x0f :: 0x3a :: b :: rest =>
    (Layout.choice m (peek rest) (.ofThreeByte3a b.toNat) (.bytes 1)).map fun l => (3, l, rest)
  | 0x0f :: b :: rest => (twoByte wide m b.toNat (peek rest)).map fun l => (2, l, rest)
  | [0x0f] => none
  | b :: rest =>
    (match m.extension with
      | some e => extended wide e b.toNat (peek rest)
      | none => oneByte wide b.toNat (peek rest)).map fun l => (1, l, rest)
where
  peek (rest : List UInt8) : Nat := (rest.head?.getD 0).toNat

def maxLength : Nat := 15

/-- The length of the instruction at the start of the bytes, on a wide or a narrow host. -/
def length (wide : Bool) (bytes : List UInt8) : Option Nat := do
  let bytes := bytes.take maxLength
  let extension := extension? wide bytes
  let skipped := extension.elim 0 Extension.size
  let (m, before, rest) := modifiers wide { extension } (bytes.drop skipped)
  let (n, layout, rest) ← opcode wide m rest
  let operand ← if layout.modrm then operandSize m.shortAddress wide rest else some 0
  let total := skipped + before + n + operand + layout.tail.size wide m
  if total ≤ bytes.length then some total else none

end HostCode.Decoder
