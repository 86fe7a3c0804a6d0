import Mathlib.Algebra.Group.Nat.Defs
import HostCode.Condition
import HostCode.Proofs.Buffer.Field

/-! # Executing jumps

What a processor does at a jump, over the bytes in its memory and the flags. Distances count
from the end of the instruction and addresses wrap around, at 64 bits on wide hosts and at 32
bits on narrow ones.
-/

namespace HostCode

structure Flags where
  carry : Bool := false
  parity : Bool := false
  zero : Bool := false
  sign : Bool := false
  overflow : Bool := false
  deriving DecidableEq, Repr

/-- The condition holds: overflow, below, equal, sign, parity, less and so on. -/
def Flag.holds (x : Flags) : Flag → Bool
  | o => x.overflow
  | no => !x.overflow
  | b => x.carry
  | ae => !x.carry
  | e => x.zero
  | ne => !x.zero
  | be => x.carry || x.zero
  | a => !x.carry && !x.zero
  | s => x.sign
  | ns => !x.sign
  | p => x.parity
  | np => !x.parity
  | l => x.sign != x.overflow
  | ge => x.sign == x.overflow
  | le => x.zero || x.sign != x.overflow
  | g => !x.zero && x.sign == x.overflow

theorem Flag.holds_opposite (x : Flags) (f : Flag) : f.opposite.holds x = !f.holds x := by
  cases f <;> simp [holds, opposite, bne]

/-- The flags meet the condition with the given number in the opcode of a jump. Its upper three
bits name a test, and the lowest one turns it around. -/
def Flags.meets (x : Flags) (n : BitVec 4) : Bool :=
  let positive := match (n.extractLsb' 1 3).toNat with
    | 0 => x.overflow
    | 1 => x.carry
    | 2 => x.zero
    | 3 => x.carry || x.zero
    | 4 => x.sign
    | 5 => x.parity
    | 6 => x.sign != x.overflow
    | _ => x.zero || x.sign != x.overflow
  positive != n.getLsbD 0

theorem Flags.meets_code (x : Flags) (f : Flag) : x.meets f.code = f.holds x := by
  cases f <;> simp [meets, Flag.code, Flag.holds, bne]

namespace Processor

def width (wide : Bool) : Nat := if wide then 64 else 32

/-- What a processor finds when it executes jumps. -/
structure Machine (wide : Bool) where
  memory : BitVec (width wide) → UInt8
  flags : Flags

namespace Machine

variable {wide : Bool}

def read (x : Machine wide) (ip : BitVec (width wide)) (n : Nat) : List UInt8 :=
  (List.range n).map fun i => x.memory (ip + BitVec.ofNat _ i)

def distance (x : Machine wide) (ip : BitVec (width wide)) (n : Nat) : BitVec (width wide) :=
  (BitVec.ofNat (8 * n) (ofLittleEndian (x.read ip n))).signExtend _

def relative (x : Machine wide) (ip : BitVec (width wide)) (k n : Nat) (taken : Bool) :
    BitVec (width wide) :=
  let next := ip + BitVec.ofNat _ (k + n)
  if taken then next + x.distance (ip + BitVec.ofNat _ k) n else next

/-- Where the execution goes on after the jump at an address, if there is one. These are `JMP`
and the conditional jumps with distances of one and of four bytes, and on wide hosts the `JMP`
that reads its destination from a place relative to its end. -/
def step (x : Machine wide) (ip : BitVec (width wide)) : Option (BitVec (width wide)) :=
  let op := x.memory ip
  let second := x.memory (ip + BitVec.ofNat _ 1)
  if op = 0xeb then some (x.relative ip 1 1 true)
  else if op = 0xe9 then some (x.relative ip 1 4 true)
  else if op.toBitVec.extractLsb' 4 4 = 7 then
    some (x.relative ip 1 1 (x.flags.meets (op.toBitVec.extractLsb' 0 4)))
  else if op = 0x0f ∧ second.toBitVec.extractLsb' 4 4 = 8 then
    some (x.relative ip 2 4 (x.flags.meets (second.toBitVec.extractLsb' 0 4)))
  else if wide ∧ op = 0xff ∧ second = 0x25 then
    let source := x.relative ip 2 4 true
    some (BitVec.ofNat _ (ofLittleEndian (x.read source 8)))
  else none

/-- The jumps at the addresses of `path` are executed one after the other, and then the
execution goes on at `target`. -/
inductive Executes (x : Machine wide) :
    BitVec (width wide) → List (BitVec (width wide)) → BitVec (width wide) → Prop
  | last {ip target : BitVec (width wide)} (h : x.step ip = some target) :
    Executes x ip [ip] target
  | next {ip ip' target : BitVec (width wide)} {path : List (BitVec (width wide))}
    (h : x.step ip = some ip') (rest : Executes x ip' path target) :
    Executes x ip (ip :: path) target

end Machine

/-! ## Code in memory -/

def address (wide : Bool) (a : HostAddress) : BitVec (width wide) := BitVec.ofNat _ a.toNat

def codeAddress (wide : Bool) (base : HostAddress) (offset : Nat) : BitVec (width wide) :=
  address wide base + BitVec.ofNat _ offset

theorem codeAddress_add (wide : Bool) (base : HostAddress) (m n : Nat) :
    codeAddress wide base m + BitVec.ofNat _ n = codeAddress wide base (m + n) := by
  rw [codeAddress, codeAddress, BitVec.add_assoc, ← BitVec.ofNat_add]

namespace Machine

variable {wide : Bool} {x : Machine wide} {b : CodeBuffer} {f : Field}

/-- The code is in memory, where its buffer is. -/
def Loaded (x : Machine wide) (b : CodeBuffer) : Prop :=
  ∀ i byte, b.bytes[i]? = some byte → x.memory (codeAddress wide b.address i) = byte

def holding (wide : Bool) (b : CodeBuffer) (flags : Flags) : Machine wide where
  memory a := b.bytes.getD (a - address wide b.address).toNat 0
  flags := flags

theorem loaded_holding (hb : b.length ≤ 2 ^ 32) (flags : Flags) :
    (holding wide b flags).Loaded b := by
  intro i byte hi
  have hlt : i < b.length := (Array.getElem?_eq_some_iff.mp hi).1
  have hwidth : i < 2 ^ width wide := by
    cases wide with
    | true => exact Nat.lt_of_lt_of_le hlt (Nat.le_trans hb (by decide))
    | false => exact Nat.lt_of_lt_of_le hlt hb
  have hsub : (codeAddress wide b.address i - address wide b.address).toNat = i := by
    rw [codeAddress, BitVec.add_comm, BitVec.add_sub_cancel, BitVec.toNat_ofNat,
      Nat.mod_eq_of_lt hwidth]
  simp only [holding, hsub, Array.getD_eq_getD_getElem?, hi, Option.getD_some]

theorem Loaded.read_field (h : x.Loaded b) (hf : f.stop ≤ b.length) :
    x.read (codeAddress wide b.address f.start) f.size = b.field f := by
  apply List.ext_getElem?
  intro i
  unfold Field.stop CodeBuffer.length at hf
  rw [read, List.getElem?_map, CodeBuffer.field, CodeBuffer.getElem?_slice]
  split
  · next hi =>
    have hin : f.start + i < b.bytes.size := by omega
    rw [List.getElem?_range hi, Array.getElem?_eq_getElem hin, Option.map_some, codeAddress_add]
    exact congrArg some (h _ _ (Array.getElem?_eq_getElem hin))
  · next hi => rw [List.getElem?_eq_none (by simpa using hi), Option.map_none]

theorem Loaded.memory_eq (h : x.Loaded b) {chunk : List UInt8} {i : Nat} {byte : UInt8}
    (hchunk : b.field f = chunk) (hi : chunk[i]? = some byte) :
    x.memory (codeAddress wide b.address (f.start + i)) = byte := by
  refine h _ _ ?_
  rw [← hchunk, CodeBuffer.field, CodeBuffer.getElem?_slice] at hi
  split at hi
  · exact hi
  · cases hi

end Machine

end Processor

end HostCode
