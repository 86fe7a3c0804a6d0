import HostCode.Proofs.Buffer.Growth
import HostCode.Proofs.Emission.Basic

/-! # Calls on a session

The calls that translate, link and discard code, and the sessions that a sequence of them
reaches. What is logged and measured on the way has no part in the code.
-/

namespace HostCode

open Log

/-- A call on a session. -/
inductive Action
  | block (guest : GuestAddress) (e : Emission)
  | prologue
  | resolve (guest : GuestAddress) (host : HostAddress)
  | reset

def Action.isReset : Action → Bool
  | reset => true
  | _ => false

inductive Verdict
  | returned
  | failed (e : Error)
  | panicked (f : Fault)
  deriving DecidableEq, Repr

def Verdict.ofResult : Except Error Unit → Verdict
  | .ok () => returned
  | .error e => failed e

theorem Verdict.ofResult_ne_panicked (r : Except Error Unit) (f : Fault) :
    ofResult r ≠ panicked f := by
  cases r <;> exact nofun

def verdict {σ α : Type} (value : α → Except Error Unit) (shared : σ → Shared) :
    EStateM.Result Fault σ α → Verdict × Shared
  | .ok v x => (.ofResult (value v), shared x)
  | .error f x => (.panicked f, shared x)

def Action.apply : Action → Shared → Verdict × Shared
  | block guest e, x => verdict id Prod.fst (Shared.block guest e.emitter (x, []))
  | prologue, x => verdict Prod.snd id (Shared.prologue x)
  | resolve guest host, x => verdict Prod.snd id (Shared.resolve guest host x)
  | reset, x => (.returned, x.reset)

/-- The session after a sequence of calls, the latest first. The registry is shared with
others, and can be any at each of them. -/
inductive Reached : List Action → Session → Prop
  | new {c : Config} {r r' : Registry} {s : Session} (unused : c.buffer.Unused)
    (made : Session.new c r = (.ok s, r')) : Reached [] s
  | step {history : List Action} {s : Session} (before : Reached history s) (act : Action)
    (r : Registry) : Reached (act :: history) (act.apply ⟨s, r⟩).2.session

def Config.session (c : Config) : List Action → Option Session
  | [] => (Session.new c {}).1.toOption
  | act :: history => (c.session history).map fun s => (act.apply ⟨s, {}⟩).2.session

theorem Config.reached {c : Config} (hc : c.buffer.Unused) {history : List Action} {s : Session}
    (h : c.session history = some s) : Reached history s := by
  induction history generalizing s with
  | nil =>
    rcases hn : Session.new c {} with ⟨r, registry⟩
    rw [session, hn] at h
    cases r with
    | error e => cases h
    | ok s' =>
      cases h
      exact .new hc hn
  | cons act history ih =>
    obtain ⟨s', hs, rfl⟩ := Option.map_eq_some_iff.mp h
    exact .step (ih hs) act {}

/-- A wide host with memory in two places, of which the first is full after sixteen bytes. -/
def Config.twoPlaces : Config where
  buffer := { supply := .listed [.ok 0x10000, .ok 0x20000], growth := 16 }

theorem Config.twoPlaces_unused : twoPlaces.buffer.Unused :=
  ⟨rfl, rfl, Supply.neverZero_listed (by simp)⟩

def Emission.goto (target : GuestAddress) : Emission := .call (.jumpToGuest target) .done

def Emission.raw (chunk : List UInt8) : Emission := .call (.append chunk) .done

def Emission.giveUp : Emission := .done (.error (.other "no code"))

/-- The part of a session that concerns the code. -/
structure Core where
  config : Config
  asm : Assembler
  blocks : List (GuestAddress × Nat)
  failed : Option JumpRange

namespace Session

variable {s s' : Session} {a : Assembler}

def core (s : Session) : Core := ⟨s.config, s.asm, s.blocks, s.failed⟩

theorem foldl_log_core (f : Move → Session → Session) (hf : ∀ m s, (f m s).core = s.core)
    (ms : List Move) (s : Session) : (ms.foldl (fun s m => f m s) s).core = s.core := by
  induction ms generalizing s with
  | nil => rfl
  | cons m ms ih => rw [List.foldl_cons, ih, hf]

@[simp] theorem core_adopt (a : Assembler) (s : Session) :
    (s.adopt a).core = ⟨s.config, a, s.blocks, s.failed⟩ :=
  foldl_log_core (fun m s => s.log .buffer Level.debug "code buffer moved"
    [.text "from" (Numeral.hex m.source.toNat), .text "to" (Numeral.hex m.target.toNat),
      .size m.capacity]) (fun _ _ => rfl) _ _

@[simp] theorem adopt_config (a : Assembler) (s : Session) : (s.adopt a).config = s.config :=
  congrArg Core.config (core_adopt a s)

@[simp] theorem adopt_asm (a : Assembler) (s : Session) : (s.adopt a).asm = a :=
  congrArg Core.asm (core_adopt a s)

@[simp] theorem adopt_blocks (a : Assembler) (s : Session) : (s.adopt a).blocks = s.blocks :=
  congrArg Core.blocks (core_adopt a s)

@[simp] theorem adopt_failed (a : Assembler) (s : Session) : (s.adopt a).failed = s.failed :=
  congrArg Core.failed (core_adopt a s)

@[simp] theorem adopt_lookup (a : Assembler) (s : Session) : (s.adopt a).lookup = s.lookup := by
  funext guest
  rw [lookup, adopt_blocks, lookup]

theorem core_eq (h : s'.core = ⟨s.config, a, s.blocks, s.failed⟩) :
    s'.asm = a ∧ s'.blocks = s.blocks ∧ s'.failed = s.failed :=
  ⟨congrArg Core.asm h, congrArg Core.blocks h, congrArg Core.failed h⟩

end Session

@[simp] theorem Shared.core_observe (x : Shared) : x.observe.session.core = x.session.core := by
  unfold observe
  cases x.session.meter <;> rfl

end HostCode
