import HostCode.Config
import HostCode.Metrics

/-! # Sessions

A session translates guest blocks into one code segment. It knows where the host code of each
block starts, and leads the jumps between blocks there as soon as both ends are known. A block
that fails is taken back.
-/

namespace HostCode

open Log

structure Session where
  config : Config
  asm : Assembler
  /-- Where the host code of each guest block starts. -/
  blocks : List (GuestAddress × Nat) := []
  /-- The jump that a move of the code has put out of range. -/
  failed : Option JumpRange := none
  meter : Option Meter := none
  /-- The records logged so far. -/
  journal : List Record := []

structure Shared where
  session : Session
  registry : Registry

/-- Code that writes a block. It may keep notes of its own, which outlive a fault. -/
abbrev Emitter (ω : Type) := Attempt (Assembler × ω) (Except Error Unit)

namespace Session

/-- A new session. A registry keeps the metrics it has taken in when a later one is refused. -/
def new (c : Config) (r : Registry) : Except SetupError Session × Registry :=
  match c.addressing with
  | .error e => (.error e, r)
  | .ok mode =>
    let s : Session := { config := c, asm := .new c.buffer mode }
    if !c.metrics then (.ok s, r) else
    match Meter.new r with
    | (some m, r) => (.ok { s with meter := some m }, r)
    | (none, r) => (.error .metrics, r)

def lookup (s : Session) (guest : GuestAddress) : Option Nat := s.blocks.lookup guest

def hostAddress (s : Session) (guest : GuestAddress) : Option HostAddress :=
  (s.lookup guest).map fun offset => s.asm.segment.buffer.address + UInt64.ofNat offset

def stateField (s : Session) (offset : UInt64) : HostAddress := s.config.stateBase + offset

def pending (s : Session) : List Pending := s.asm.segment.table.pending

def stats (s : Session) : Stats where
  blocks := s.blocks.length
  grows := s.asm.segment.buffer.grows
  recorded := s.asm.segment.table.recorded
  patched := s.asm.segment.table.resolved
  pending := s.pending.length
  bytes := s.asm.offset
  capacity := s.asm.segment.buffer.capacity

def log (scope : Scopes) (level : Int) (message : String) (attrs : List Attr) (s : Session) :
    Session :=
  { s with journal := s.journal ++ (s.config.logger.record? scope level message attrs).toList }

/-- Goes on with an assembler that has written more, and logs how its code moved. -/
def adopt (a : Assembler) (s : Session) : Session :=
  let fresh := a.segment.moves.take (a.segment.moves.length - s.asm.segment.moves.length)
  fresh.reverse.foldl (fun s m => s.log .buffer Level.debug "code buffer moved"
    [.text "from" (Numeral.hex m.source.toNat), .text "to" (Numeral.hex m.target.toNat),
      .size m.capacity]) { s with asm := a }

/-- Runs code on the assembler. That memory ran out, or that a jump went out of range when
the code moved, is an error. After the latter the session cannot go on. -/
def run {ω α : Type} (x : Attempt (Assembler × ω) (Except Error α)) (notes : ω) (s : Session) :
    Session × ω × Except Fault (Except Error α) :=
  match x (s.asm, notes) with
  | .ok r (a, notes) => (s.adopt a, notes, .ok r)
  | .error (.allocation e) (a, notes) => (s.adopt a, notes, .ok (.error (.allocation e)))
  | .error (.jumpRange e) (a, notes) =>
    ({ s.adopt a with failed := some e }, notes, .ok (.error (.jumpRange e)))
  | .error f (a, notes) => (s.adopt a, notes, .error f)

def plain {α : Type} (x : Attempt Assembler α) : Attempt (Assembler × Unit) α := fun (a, _) =>
  match x a with
  | .ok v a => .ok v (a, ())
  | .error f a => .error f (a, ())

def patchKnown (s : Session) : Attempt (Assembler × Unit) (Except Error Nat) :=
  plain do
    match ← Assembler.onSegment (Segment.resolveKnown fun g => (s.lookup g).map Int.ofNat) with
    | (n, none) => return .ok n
    | (_, some e) => return .error (.jumpRange e)

/-- Takes a block back: its code from `offset` on, its jumps, and its address. -/
def rollback (guest : GuestAddress) (offset : Nat) (s : Session) : Session × Option Fault :=
  let s := { s with blocks := s.blocks.filter fun b => b.1 ≠ guest }
  match Assembler.truncate offset s.asm with
  | .error f a => ({ s with asm := a }, some f)
  | .ok () a =>
    let s := { s with asm := a }
    (s.log .block Level.debug "block rolled back"
      [.guest guest, .offset offset, .number "pending" s.pending.length], none)

/-- Logs a block that was translated: whether the memory grew, the extent of the block, the
jumps that were patched, and its listing. -/
def report (guest : GuestAddress) (offset grows patched : Nat) (s : Session) :
    Session × Option Fault :=
  let b := s.asm.segment.buffer
  let s := if b.grows = grows then s else
    s.log .buffer Level.info "code buffer grew" [.guest guest, .host b.address, .size b.capacity]
  let s := s.log .block Level.debug "block end"
    [.guest guest, .offset offset, .size (s.asm.offset - offset)]
  let s := if patched = 0 then s else
    s.log .reloc Level.debug "jumps patched"
      [.guest guest, .number "count" patched, .number "pending" s.pending.length]
  if s.config.logger.enabled .block Level.trace then
    match s.asm.listing offset with
    | .ok ls =>
      (s.log .block Level.trace "block code" [.guest guest, ⟨"disassembly", .listing ls⟩], none)
    | .error f => (s, some f)
  else (s, none)

/-- Emits a block and patches the jumps that this makes possible. -/
def translate {ω : Type} (guest : GuestAddress) (emit : Emitter ω) (notes : ω) (s : Session) :
    Session × ω × Except Fault (Except Error Nat) :=
  match s.run emit notes with
  | (s, notes, .error f) => (s, notes, .error f)
  | (s, notes, .ok (.error e)) => (s, notes, .ok (.error (.translating guest e)))
  | (s, notes, .ok (.ok ())) =>
    match s.run s.patchKnown () with
    | (s, _, .ok (.error e)) => (s, notes, .ok (.error (.patching guest e)))
    | (s, _, r) => (s, notes, r)

end Session

namespace Shared

def onSession (f : Session → Session) (x : Shared) : Shared := { x with session := f x.session }

def observe (x : Shared) : Shared :=
  match x.session.meter with
  | none => x
  | some m =>
    let (m, r) := m.observe x.session.stats x.registry
    { session := { x.session with meter := some m }, registry := r }

/-- Translates the block of a guest address. A block that fails in any way is taken back. -/
def block {ω : Type} (guest : GuestAddress) (emit : Emitter ω) :
    Attempt (Shared × ω) (Except Error Unit) := fun (x, notes) =>
  match x.session.failed with
  | some e => .ok (.error (.needsReset e)) (x, notes)
  | none =>
    if (x.session.lookup guest).isSome then .ok (.error (.blockExists guest)) (x, notes) else
    let offset := x.session.asm.offset
    let grows := x.session.asm.segment.buffer.grows
    let opened := x.session.log .block Level.debug "block start" [.guest guest, .offset offset]
    let opened := { opened with blocks := (guest, offset) :: opened.blocks }
    match opened.translate guest emit notes with
    | (s, notes, .ok (.ok patched)) =>
      match s.report guest offset grows patched with
      | (s, none) => .ok (.ok ()) ({ x with session := s }.observe, notes)
      | (s, some f) => .error f ({ x with session := s }.observe, notes)
    | (s, notes, .ok (.error e)) =>
      match s.rollback guest offset with
      | (s, some f) => .error f ({ x with session := s }, notes)
      | (s, none) =>
        let s := s.log .block Level.error "block failed" [.guest guest, .text "err" e.message]
        .ok (.error e) ({ x with session := s }.observe, notes)
    | (s, notes, .error f) =>
      match s.rollback guest offset with
      | (s, some f) => .error f ({ x with session := s }, notes)
      | (s, none) => .error f ({ x with session := s }.observe, notes)

/-- Writes the instruction that loads the state base, and tells where it starts. -/
def prologue : Attempt Shared (Nat × Except Error Unit) := fun x =>
  let offset := x.session.asm.offset
  match x.session.run (Session.plain Assembler.loadStateBase) () with
  | (s, _, .ok r) => .ok (offset, r) { x with session := s }.observe
  | (s, _, .error f) => .error f { x with session := s }

def resolve (guest : GuestAddress) (host : HostAddress) :
    Attempt Shared (Nat × Except Error Unit) := fun x =>
  match Assembler.onSegment (Segment.resolve guest host) x.session.asm with
  | .error f a => .error f (x.onSession fun s => { s with asm := a })
  | .ok (n, e) a =>
    let s := { x.session with asm := a }
    let s := if n = 0 then s else
      s.log .reloc Level.debug "jumps patched"
        [.guest guest, .host host, .number "count" n, .number "pending" s.pending.length]
    let r : Except Error Unit := match e with
      | some e => .error (.jumpRange e)
      | none => .ok ()
    .ok (n, r) { x with session := s }.observe

def reset (x : Shared) : Shared :=
  x.onSession fun s =>
    let asm := { s.asm.reset with segment := s.asm.segment.resetBuffer.resetSites }
    let s := { s with asm, blocks := [], failed := none }
    s.log .buffer Level.debug "session reset" [.size asm.segment.buffer.capacity]

/-- Takes the session out of the gauges and gives its memory back. -/
def close (x : Shared) : Except Error Unit × Shared :=
  let x := match x.session.meter with
    | none => x
    | some m =>
      let (m, r) := m.close x.registry
      { session := { x.session with meter := some m }, registry := r }
  let (r, a) := x.session.asm.release
  (r, x.onSession fun s => { s with asm := a })

end Shared

end HostCode
