import HostCode.Relocation

/-! # Code segments

A buffer and the jump sites in it. Bytes are added through the segment, so that a move of the
buffer is followed at once by new bytes for the sites that depend on its base.
-/

namespace HostCode

/-- A computation that a fault may break off. The state reached by then is kept. -/
abbrev Attempt (σ α : Type) := EStateM Fault σ α

structure Segment where
  buffer : CodeBuffer
  table : RelocationTable := {}
  /-- The moves that left every site intact, the latest first. -/
  moves : List Move := []

namespace Segment

def length (s : Segment) : Nat := s.buffer.length

/-- Adds bytes: all of them, or none if there is no room or the move for it goes wrong. -/
def append (chunk : List UInt8) : Attempt Segment Unit := fun s =>
  match s.buffer.reserve chunk.length with
  | (.error f, b) => .error f { s with buffer := b }
  | (.ok none, b) => .ok () { s with buffer := b.push chunk }
  | (.ok (some move), b) =>
    match rebasePass b s.table.patched with
    | (b, some f) => .error f { s with buffer := b }
    | (b, none) => .ok () { s with buffer := b.push chunk, moves := move :: s.moves }

def patch (offset : Int) (chunk : List UInt8) : Attempt Segment Unit := fun s =>
  match s.buffer.patch offset chunk with
  | .ok b => .ok () { s with buffer := b }
  | .error f => .error f s

/-- Records the zero field at `site` as a jump to `target`. -/
def record (site : Int) (target : GuestAddress) (kind : SiteKind) : Attempt Segment Unit := fun s =>
  let stop (f : Fault) := EStateM.Result.error f s
  if 0 ≤ site ∧ site + kind.size ≤ s.length then
    if (s.buffer.slice site.toNat kind.size).all (· == 0) then
      let t := s.table
      .ok () { s with table := { t with
        pending := t.pending ++ [⟨site.toNat, target, kind⟩], recorded := t.recorded + 1 } }
    else stop (.misuse (.siteNotZero kind site))
  else if site + kind.size < offsetLimit then stop (.misuse (.siteOutside kind site s.length))
  else stop .outOfRange

/-- Leads the sites that wait for `target` to `dest`, and tells how many were patched and
which one cannot reach it. -/
def resolveTo (target : GuestAddress) (dest : Destination) :
    Attempt Segment (Nat × Option JumpRange) := fun s =>
  let t := s.table
  let pass := resolvePass target dest s.buffer t.pending
  let count := pass.changed.length
  let after : RelocationTable := { t with
    pending := pass.remaining t.pending, patched := t.patched ++ pass.changed }
  let done := { s with
    buffer := pass.buffer, table := { after with resolved := t.resolved + count } }
  match pass.stop with
  | some (.fault f) => .error f { s with buffer := pass.buffer, table := after }
  | some (.unreachable e) => .ok (count, some e) done
  | none => .ok (count, none) done

def resolve (target : GuestAddress) (host : HostAddress) :
    Attempt Segment (Nat × Option JumpRange) :=
  resolveTo target (.outside host)

def resolveOffset (target : GuestAddress) (offset : Int) :
    Attempt Segment (Nat × Option JumpRange) := do
  let s ← get
  if 0 ≤ offset ∧ offset ≤ s.length then resolveTo target (.inside offset.toNat)
  else throw (.misuse (.offsetOutside offset s.length))

/-- Resolves those of `targets` that `lookup` knows, up to the first that cannot be reached. -/
def resolveEach (lookup : GuestAddress → Option Int) :
    (targets : List GuestAddress) → Attempt Segment (Nat × Option JumpRange)
  | [] => return (0, none)
  | target :: rest => do
    match lookup target with
    | none => resolveEach lookup rest
    | some offset =>
      match ← resolveOffset target offset with
      | (n, some e) => return (n, some e)
      | (n, none) =>
        let (m, e) ← resolveEach lookup rest
        return (n + m, e)

def resolveKnown (lookup : GuestAddress → Option Int) :
    Attempt Segment (Nat × Option JumpRange) := do
  resolveEach lookup (← get).table.targets

/-- Forgets the sites from `offset` on. Earlier sites that lead there wait again. -/
def truncateSites (offset : Int) : Attempt Segment Unit := fun s =>
  let t := s.table
  let early := t.pending.filter fun p => p.site < offset
  let pass := truncatePass offset s.buffer t.patched
  let pending := early ++ pass.changed
  let patched := pass.remaining t.patched
  match pass.stop with
  | some (.fault f) =>
    .error f { s with buffer := pass.buffer, table := { t with pending, patched } }
  | _ =>
    .ok () { s with
      buffer := pass.buffer
      table := { t with
        pending := pending.mergeSort fun p q => p.site ≤ q.site
        patched } }

def truncateBuffer (offset : Int) : Attempt Segment Unit := fun s =>
  match s.buffer.truncate offset with
  | .ok b => .ok () { s with buffer := b }
  | .error f => .error f s

def resetBuffer (s : Segment) : Segment := { s with buffer := s.buffer.reset }

def resetSites (s : Segment) : Segment := { s with table := s.table.reset }

end Segment

end HostCode
