import HostCode.Addressing
import HostCode.Buffer

/-! # Relocations

A jump to a guest address has a field, its site, that is zero until the host code of that
address is known. Pending sites wait for it. Patched sites lead to it, and those whose bytes
depend on the base of the buffer are written again when the buffer moves.
-/

namespace HostCode

/-- A zero field at `site` that waits for the host code of `target`. -/
structure Pending where
  site : Nat
  target : GuestAddress
  kind : SiteKind
  deriving DecidableEq, Repr

/-- Where a patched site leads: into the buffer, or to an address outside of it. -/
inductive Destination
  | inside (offset : Nat)
  | outside (host : HostAddress)
  deriving DecidableEq, Repr

def Destination.address (base : HostAddress) : Destination → HostAddress
  | inside offset => base + UInt64.ofNat offset
  | outside host => host

structure Patched where
  site : Nat
  kind : SiteKind
  target : GuestAddress
  dest : Destination
  deriving DecidableEq, Repr

def Pending.leadingTo (p : Pending) (dest : Destination) : Patched :=
  ⟨p.site, p.kind, p.target, dest⟩

def Patched.reopened (s : Patched) : Pending := ⟨s.site, s.target, s.kind⟩

namespace Patched

def content (base : HostAddress) (s : Patched) : Except JumpRange (List UInt8) :=
  match s.kind, s.dest with
  | .rel32, .inside offset =>
    .ok (littleEndian 4 (Int32.ofInt (offset - (s.site + 4))).toUInt32.toNat)
  | .rel32, .outside host =>
    let next := base + UInt64.ofNat (s.site + 4)
    match displacement host next with
    | .ok d => .ok (littleEndian 4 d.toUInt32.toNat)
    | .error _ => .error ⟨s.site, (host - next).toInt64.toInt, 32⟩
  | .abs64, dest => .ok (littleEndian 8 (dest.address base).toNat)

/-- The bytes of the site change when the buffer moves. -/
def dependsOnBase (s : Patched) : Bool :=
  match s.kind, s.dest with
  | .rel32, .outside _ | .abs64, .inside _ => true
  | _, _ => false

end Patched

inductive Stop
  | unreachable (e : JumpRange)
  | fault (f : Fault)
  deriving DecidableEq, Repr

def CodeBuffer.link (b : CodeBuffer) (s : Patched) : Except Stop CodeBuffer :=
  match s.content b.address with
  | .error e => .error (.unreachable e)
  | .ok chunk =>
    match b.patch s.site chunk with
    | .ok b => .ok b
    | .error f => .error (.fault f)

structure RelocationTable where
  pending : List Pending := []
  patched : List Patched := []
  /-- How many sites were ever recorded, and how many resolved. -/
  recorded : Nat := 0
  resolved : Nat := 0
  deriving DecidableEq, Repr

namespace RelocationTable

def targets (t : RelocationTable) : List GuestAddress :=
  ((t.pending.map (·.target)).mergeSort (fun a b => a ≤ b)).eraseDups

def reset (t : RelocationTable) : RelocationTable := { t with pending := [], patched := [] }

end RelocationTable

/-- What came of a pass over a list of sites: the buffer, the sites that stay as they were,
those that were changed, and what ended the pass early. -/
structure Pass (α β : Type) where
  buffer : CodeBuffer
  kept : List α
  changed : List β
  stop : Option Stop := none

namespace Pass

variable {α β : Type}

def keep (a : α) (p : Pass α β) : Pass α β := { p with kept := a :: p.kept }

def change (b : β) (p : Pass α β) : Pass α β := { p with changed := b :: p.changed }

/-- What is left of the list `before` that the pass went over. Sites move up into the places
of changed ones as the pass goes, so a fault leaves the rest of the list where it was. -/
def remaining (p : Pass α β) (before : List α) : List α :=
  match p.stop with
  | some (.fault _) => p.kept ++ before.drop p.kept.length
  | _ => p.kept

end Pass

/-- Patches the sites that wait for `target`, up to the first that cannot reach `dest`. -/
def resolvePass (target : GuestAddress) (dest : Destination) :
    CodeBuffer → List Pending → Pass Pending Patched
  | b, [] => ⟨b, [], [], none⟩
  | b, p :: ps =>
    if p.target ≠ target then (resolvePass target dest b ps).keep p else
    match b.link (p.leadingTo dest) with
    | .ok b => (resolvePass target dest b ps).change (p.leadingTo dest)
    | .error (.unreachable e) => ⟨b, p :: ps, [], some (.unreachable e)⟩
    | .error (.fault f) => ⟨b, [], [], some (.fault f)⟩

/-- Drops the sites from `offset` on, and clears those that lead to code from there on. -/
def truncatePass (offset : Int) : CodeBuffer → List Patched → Pass Patched Pending
  | b, [] => ⟨b, [], [], none⟩
  | b, s :: ss =>
    if offset ≤ s.site then truncatePass offset b ss else
    let cut := match s.dest with
      | .inside d => offset ≤ d
      | .outside _ => false
    if !cut then (truncatePass offset b ss).keep s else
    match b.patch s.site (List.replicate s.kind.size 0) with
    | .ok b => (truncatePass offset b ss).change s.reopened
    | .error f => ⟨b, [], [], some (.fault f)⟩

/-- Writes the sites that depend on the base again. -/
def rebasePass : CodeBuffer → List Patched → CodeBuffer × Option Fault
  | b, [] => (b, none)
  | b, s :: ss =>
    if !s.dependsOnBase then rebasePass b ss else
    match b.link s with
    | .ok b => rebasePass b ss
    | .error (.unreachable e) => (b, some (.jumpRange e))
    | .error (.fault f) => (b, some f)

end HostCode
