import HostCode.Session

/-! # Emissions

The code of a block comes from a program that calls the assembler. It writes instructions, raw
bytes, jumps inside of the block and jumps to guest addresses, looks at the assembler as it
likes, and returns or panics at any point.
-/

namespace HostCode

/-- One call of the assembler. The forward jumps of a block are numbered in the order in which
they are written, and only such a jump can be given its target. -/
inductive Call
  | encode (r : Request)
  | append (chunk : List UInt8)
  | jumpShort (c : Cond) (rel : Int8)
  | jumpNear (c : Cond) (rel : Int32)
  | jumpBackward (c : Cond) (offset : Int)
  | jumpForward (c : Cond) (short : Bool)
  | setJumpTarget (label : Nat)
  | jumpToGuest (target : GuestAddress)
  | branchToGuest (c : Cond) (target : GuestAddress)
  deriving DecidableEq, Repr

/-- A program that writes the code of a block. -/
inductive Emission
  | done (r : Except Error Unit)
  | panic (f : Fault)
  | look (next : Assembler → Emission)
  | call (c : Call) (next : Except Error Unit → Emission)

/-- How the run of an emission ends: it returns, it panics on its own, or a call breaks off. -/
inductive Ending
  | returned (r : Except Error Unit)
  | panicked (f : Fault)
  | broken (f : Fault)

/-- An assembler, and the forward jumps of the block that it is writing. -/
abbrev Writing := Assembler × List Jump

def Call.plain (x : Attempt Assembler (Except Error Unit)) : Attempt Writing (Except Error Unit) :=
  fun (a, labels) =>
    match x a with
    | .ok r a => .ok r (a, labels)
    | .error f a => .error f (a, labels)

def Call.run : Call → Attempt Writing (Except Error Unit)
  | encode r => plain (Assembler.encode r)
  | append chunk => plain (Assembler.append chunk *> pure (.ok ()))
  | jumpShort c rel => plain (Assembler.jumpShort c rel *> pure (.ok ()))
  | jumpNear c rel => plain (Assembler.jumpNear c rel *> pure (.ok ()))
  | jumpBackward c offset => plain (Assembler.jumpBackward c offset *> pure (.ok ()))
  | jumpForward c short => fun (a, labels) =>
    match Assembler.jumpForward c short a with
    | .ok j a => .ok (.ok ()) (a, labels ++ [j])
    | .error f a => .error f (a, labels)
  | setJumpTarget label => fun (a, labels) =>
    match labels[label]? with
    | some j => plain (Assembler.setJumpTarget j) (a, labels)
    | none => .ok (.ok ()) (a, labels)
  | jumpToGuest target => plain (Assembler.jumpToGuest target *> pure (.ok ()))
  | branchToGuest c target => plain (Assembler.branchToGuest c target *> pure (.ok ()))

namespace Emission

def run : Emission → Writing → Ending × Writing
  | done r, w => (.returned r, w)
  | panic f, w => (.panicked f, w)
  | look next, w => (next w.1).run w
  | call c next, w =>
    match c.run w with
    | .ok r w => (next r).run w
    | .error f w => (.broken f, w)

def emitter (e : Emission) : Emitter (List Jump) := fun w =>
  match e.run w with
  | (.returned r, w) => .ok r w
  | (.panicked f, w) => .error f w
  | (.broken f, w) => .error f w

end Emission

end HostCode
