/-! # Memory of the host

The rules for asking a host for memory that code can run in: a region has a positive size, and
is never exchanged for a smaller one. How much memory there is differs between hosts.
-/

namespace HostCode

inductive Memory
  | data
  /-- Memory that code can run in. -/
  | executable
  deriving DecidableEq, Repr

/-- The size from which on requests are refused, on a host with addresses of 48 bits and room for
2 to the power of 36 bytes of code. -/
def Memory.limit : Memory → Nat
  | data => 0x1000000000001
  | executable => 0x1000000000

namespace Mapping

inductive Misuse | mapNothing | shrink | unmapNothing
  deriving DecidableEq, Repr

def Misuse.message : Misuse → String
  | mapNothing => "BUG: MmapCodeSegment with zero length"
  | shrink => "BUG: RemapCodeSegment with size less than code"
  | unmapNothing => "BUG: MunmapCodeSegment with zero length"

inductive Failure
  | misuse (m : Misuse)
  /-- The host refuses the request. -/
  | refused
  deriving DecidableEq, Repr

/-- Asks the host for a region of less than `limit` bytes, and answers its size. -/
def request (size : Int) (limit : Nat := Memory.executable.limit) : Except Failure Int :=
  if 0 ≤ size ∧ size < limit then .ok size else .error .refused

def map (size : Int) (limit : Nat := Memory.executable.limit) : Except Failure Int :=
  if size = 0 then .error (.misuse .mapNothing) else request size limit

/-- Exchanges a region of `held` bytes, which may be none, for one of `size` bytes. -/
def remap (held size : Int) (limit : Nat := Memory.executable.limit) : Except Failure Int :=
  if size < held then .error (.misuse .shrink)
  else if held = 0 then map size limit
  else request size limit

def unmap (held : Int) : Except Failure Unit :=
  if held = 0 then .error (.misuse .unmapNothing) else .ok ()

end Mapping

end HostCode
