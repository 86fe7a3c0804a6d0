import HostCode.Fault
import HostCode.Memory

/-! # Code buffers

Bytes of code at an address that changes when the memory for them grows. The capacity grows
by whole increments, by as many as the next bytes need.
-/

namespace HostCode

inductive Supply
  /-- An answer for each request: a base address, or why there is no memory. -/
  | listed (answers : List (Except String HostAddress))
  /-- Fresh memory of the host for each request of less than `limit` bytes, from the given
  address upwards. -/
  | fresh (memory : Memory) (next : HostAddress) (limit : Nat := memory.limit)

/-- Asks for a region: its base, or why there is none, and what is left of the supply. A host
does not answer at all when it is asked for more data than it has addresses for. -/
def Supply.take (size : Nat) : Supply → Except Fault HostAddress × Supply
  | listed [] => (.error (.allocation ⟨size, "out of memory"⟩), listed [])
  | listed (a :: as) => (a.mapError fun cause => .allocation ⟨size, cause⟩, listed as)
  | fresh m next limit =>
    if size < limit then (.ok next, fresh m (next + UInt64.ofNat size) limit) else
    match m with
    | .data => (.error .outOfRange, fresh m next limit)
    | .executable => (.error (.allocation ⟨size, "cannot allocate memory"⟩), fresh m next limit)

/-- A change of the base, and the capacity after it. -/
structure Move where
  source : HostAddress
  target : HostAddress
  capacity : Nat
  deriving DecidableEq, Repr

structure CodeBuffer where
  supply : Supply
  /-- The increment that was asked for. -/
  growth : Int
  /-- What giving the memory back answers, if it fails. -/
  releaseError : Option String := none
  bytes : Array UInt8 := #[]
  capacity : Nat := 0
  base : HostAddress := 0
  /-- How often the memory was replaced. -/
  grows : Nat := 0

namespace CodeBuffer

def defaultGrowth : Nat := 8192

/-- The increment in use: the default stands in for what is not positive. -/
def increment (b : CodeBuffer) : Nat :=
  if b.growth ≤ 0 then defaultGrowth else b.growth.toNat

theorem increment_pos (b : CodeBuffer) : 0 < b.increment := by
  unfold increment defaultGrowth
  split <;> omega

def length (b : CodeBuffer) : Nat := b.bytes.size

/-- The base address, or zero as long as there is no memory. -/
def address (b : CodeBuffer) : HostAddress := if b.capacity = 0 then 0 else b.base

/-- The least capacity that holds `want` bytes and differs from the present one by whole
increments. -/
def capacityFor (b : CodeBuffer) (want : Nat) : Nat :=
  b.capacity + (want - b.capacity + b.increment - 1) / b.increment * b.increment

/-- Makes room for `count` more bytes. The move is reported if code that may be in use has
changed its address. A request that fails leaves no trace but in the supply. -/
def reserve (b : CodeBuffer) (count : Nat) : Except Fault (Option Move) × CodeBuffer :=
  if b.length + count ≤ b.capacity then (.ok none, b) else
  let size := b.capacityFor (b.length + count)
  match b.supply.take size with
  | (.error f, supply) => (.error f, { b with supply })
  | (.ok base, supply) =>
    let grown := { b with supply, base, capacity := size, grows := b.grows + 1 }
    if b.address ≠ 0 ∧ grown.address ≠ b.address then
      (.ok (some ⟨b.address, grown.address, size⟩), grown)
    else (.ok none, grown)

def push (b : CodeBuffer) (chunk : List UInt8) : CodeBuffer :=
  { b with bytes := b.bytes ++ chunk }

/-- The place of `count` bytes at an offset, all of which must have been written. -/
def place (b : CodeBuffer) (count : Nat) (offset : Int) : Except Fault Nat :=
  if 0 ≤ offset ∧ offset + count ≤ b.length then .ok offset.toNat
  else if offset + count < offsetLimit then .error (.misuse (.access count offset b.length))
  else .error .outOfRange

def overwrite (bytes : Array UInt8) (i : Nat) : List UInt8 → Array UInt8
  | [] => bytes
  | c :: cs => overwrite (bytes.setIfInBounds i c) (i + 1) cs

def patch (b : CodeBuffer) (offset : Int) (chunk : List UInt8) : Except Fault CodeBuffer :=
  match b.place chunk.length offset with
  | .ok i => .ok { b with bytes := overwrite b.bytes i chunk }
  | .error f => .error f

def slice (b : CodeBuffer) (i count : Nat) : List UInt8 :=
  (b.bytes.extract i (i + count)).toList

def read (b : CodeBuffer) (count : Nat) (offset : Int) : Except Fault Nat :=
  match b.place count offset with
  | .ok i => .ok (ofLittleEndian (b.slice i count))
  | .error f => .error f

/-- Forgets the bytes from an offset on and keeps the memory. -/
def truncate (b : CodeBuffer) (offset : Int) : Except Fault CodeBuffer :=
  if 0 ≤ offset ∧ offset ≤ b.length then
    .ok { b with bytes := b.bytes.take offset.toNat }
  else .error (.misuse (.truncation offset b.length))

def reset (b : CodeBuffer) : CodeBuffer := { b with bytes := #[] }

/-- Gives the memory back. The buffer is empty then, and can be used again. -/
def release (b : CodeBuffer) : Except String CodeBuffer :=
  if b.capacity = 0 then .ok b else
  match b.releaseError with
  | some text => .error text
  | none => .ok { b with bytes := #[], capacity := 0 }

@[simp] theorem size_overwrite (bytes : Array UInt8) (i : Nat) (chunk : List UInt8) :
    (overwrite bytes i chunk).size = bytes.size := by
  induction chunk generalizing bytes i with
  | nil => rfl
  | cons c cs ih => simp [overwrite, ih]

end CodeBuffer

end HostCode
