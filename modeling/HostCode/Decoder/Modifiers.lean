/-! # The bytes before an opcode

An instruction may start with bytes that modify it, in any order and number, and on a wide host
with one more byte right before the opcode. An extension of two or three bytes may come before
all of them. Several instructions can share an opcode, and then these bytes pick one.
-/

namespace HostCode.Decoder

structure Extension where
  /-- It takes three bytes and not two. -/
  long : Bool
  /-- The table that the opcode is looked up in. -/
  table : Nat
  /-- Stands for one of the bytes that pick an instruction. -/
  choice : Nat
  deriving DecidableEq, Repr

def Extension.size (e : Extension) : Nat := if e.long then 3 else 2

/-- On a narrow host, an extension is told apart from an opcode by the byte that follows. -/
def extension? (wide : Bool) : List UInt8 → Option Extension
  | 0xc5 :: a :: _ => if wide || 0xc0 ≤ a then some ⟨false, 1, a.toNat % 4⟩ else none
  | 0xc4 :: a :: b :: _ =>
    if wide || 0xc0 ≤ a then some ⟨true, a.toNat % 4, b.toNat % 4⟩ else none
  | _ => none

/-- What the bytes before the opcode say. -/
structure Modifiers where
  extension : Option Extension := none
  /-- Operands of 16 bits. -/
  word : Bool := false
  /-- Operands of 64 bits. -/
  qword : Bool := false
  /-- Addresses of half the usual size. -/
  shortAddress : Bool := false
  /-- The last byte that asks for a repetition. -/
  repetition : Option UInt8 := none
  deriving DecidableEq, Repr

def isModifier (b : UInt8) : Bool :=
  [0xf0, 0xf2, 0xf3, 0x26, 0x2e, 0x36, 0x3e, 0x64, 0x65, 0x66, 0x67].contains b

def Modifiers.add (m : Modifiers) (b : UInt8) : Modifiers :=
  match b with
  | 0x66 => { m with word := true }
  | 0x67 => { m with shortAddress := true }
  | 0xf2 | 0xf3 => { m with repetition := some b }
  | _ => m

/-- Goes past the bytes after the extension, and counts them. An instruction with an extension
has no byte for 64-bit operands. -/
def modifiers (wide : Bool) : Modifiers → List UInt8 → Modifiers × Nat × List UInt8
  | m, [] => (m, 0, [])
  | m, b :: bs =>
    if isModifier b then
      let (m, n, rest) := modifiers wide (m.add b) bs
      (m, n + 1, rest)
    else if wide && m.extension.isNone && b &&& 0xf0 == 0x40 then
      ({ m with qword := b &&& 8 != 0 }, 1, bs)
    else (m, 0, b :: bs)

/-- What picks one of the instructions that share an opcode. -/
inductive Selector
  /-- The byte `f3`. -/
  | repeatEqual
  /-- The byte `f2`. -/
  | repeatUnequal
  /-- The byte `66`. -/
  | word
  /-- Nothing is needed. -/
  | plain
  deriving DecidableEq, Repr

/-- The modifiers pick the instruction. An extension stands for the bytes, present or not. -/
def Modifiers.picks (m : Modifiers) (s : Selector) : Bool :=
  match s, m.extension with
  | .plain, _ => true
  | .word, some e => e.choice == 1
  | .repeatEqual, some e => e.choice == 2
  | .repeatUnequal, some e => e.choice == 3
  | .word, none => m.word
  | .repeatEqual, none => m.repetition == some 0xf3
  | .repeatUnequal, none => m.repetition == some 0xf2

/-- A repetition that has picked nothing stands in the way of the byte `66`. -/
def Modifiers.blocks (m : Modifiers) (s : Selector) : Bool :=
  s == .word && m.extension.isNone && m.repetition.isSome

/-- The first of the instructions that share an opcode which the modifiers pick. -/
def Modifiers.pick {α : Type} (m : Modifiers) : List (Selector × α) → Option α
  | [] => none
  | (s, a) :: rest => if m.blocks s then none else if m.picks s then some a else m.pick rest

end HostCode.Decoder
