import HostCode.Assembler

/-! # Jumps

Jumps inside the code, whose displacement is known or filled in later, and jumps to guest
addresses, which leave a site for the relocation table.
-/

namespace HostCode

/-- A jump forward whose displacement is still to be written at `site`. -/
structure Jump where
  site : Nat
  short : Bool
  deriving DecidableEq, Repr

namespace Cond

def shortOpcode : Cond → Except Misuse (List UInt8)
  | always => .ok [0xeb]
  | flag c => .ok [0x70 + UInt8.ofNat c.code.toNat]
  | unnamed code => .error (.condition code)

def nearOpcode : Cond → Except Misuse (List UInt8)
  | always => .ok [0xe9]
  | flag c => .ok [0x0f, 0x80 + UInt8.ofNat c.code.toNat]
  | unnamed code => .error (.condition code)

end Cond

namespace Assembler

def check {α : Type} : Except Misuse α → Attempt Assembler α
  | .ok v => return v
  | .error m => throw (.misuse m)

def jumpShort (c : Cond) (rel : Int8) : Attempt Assembler Unit := do
  append (← check c.shortOpcode)
  append [rel.toUInt8]

def jumpNear (c : Cond) (rel : Int32) : Attempt Assembler Unit := do
  append (← check c.nearOpcode)
  append (littleEndian 4 rel.toUInt32.toNat)

def jumpForward (c : Cond) (short : Bool) : Attempt Assembler Jump := do
  if short then
    jumpShort c 0
    return ⟨(← get).offset - 1, true⟩
  else
    jumpNear c 0
    return ⟨(← get).offset - 4, false⟩

def fitsByte (v : Int) : Bool := -128 ≤ v && v ≤ 127

/-- Makes a forward jump lead to the end of the code. -/
def setJumpTarget (j : Jump) : Attempt Assembler (Except Error Unit) := do
  let here := (← get).offset
  if j.short then
    let rel : Int := here - (j.site + 1)
    if fitsByte rel then
      onSegment (Segment.patch j.site [(Int8.ofInt rel).toUInt8])
      return .ok ()
    else return .error (.jumpRange ⟨j.site, rel, 8⟩)
  else
    let rel : Int := here - (j.site + 4)
    onSegment (Segment.patch j.site (littleEndian 4 (Int32.ofInt rel).toUInt32.toNat))
    return .ok ()

/-- A jump to code that was written before, in the short form if that reaches it. -/
def jumpBackward (c : Cond) (offset : Int) : Attempt Assembler Unit := do
  let here := (← get).offset
  if here < offset then throw (.misuse (.notEmitted offset))
  let rel : Int := offset - (here + 2)
  if fitsByte rel then jumpShort c (.ofInt rel)
  else
    let length : Nat := if c = .always then 5 else 6
    jumpNear c (.ofInt (offset - (here + length)))

def insertLiteral (offset : Nat) : List Nat → List Nat
  | [] => [offset]
  | l :: ls =>
    if offset < l then offset :: l :: ls
    else if offset = l then l :: ls
    else l :: insertLiteral offset ls

def recordLast (target : GuestAddress) (kind : SiteKind) : Attempt Assembler Unit := do
  onSegment (Segment.record ((← get).offset - kind.size) target kind)

/-- A jump to a guest address. On wide hosts it reads the address of the host code from the
eight bytes behind it, on narrow hosts it holds a displacement. -/
def jumpToGuest (target : GuestAddress) : Attempt Assembler Unit := do
  if (← get).mode.wide then
    append [0xff, 0x25, 0, 0, 0, 0]
    let site := (← get).offset
    append (List.replicate 8 0)
    modify fun a => { a with literals := insertLiteral site a.literals }
    recordLast target .abs64
  else
    jumpNear .always 0
    recordLast target .rel32

def guestJumpLength : Int8 := 14

/-- A jump to a guest address on a condition. Wide hosts have none that reads its address
from memory, so there the opposite condition skips a jump that is always taken. -/
def branchToGuest (c : Cond) (target : GuestAddress) : Attempt Assembler Unit := do
  match c with
  | .always => jumpToGuest target
  | .unnamed code => throw (.misuse (.condition code))
  | .flag f =>
    if (← get).mode.wide then
      jumpShort (.flag f.opposite) guestJumpLength
      jumpToGuest target
    else
      jumpNear c 0
      recordLast target .rel32

end Assembler

end HostCode
