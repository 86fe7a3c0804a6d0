import HostCode.Proofs.Session.Twins

/-! # What a translation does not depend on

The same calls give the same answers and the same code, wherever the memory for it is and
whenever there is more of it. The only difference is in the addresses that are embedded in the
code and lead into it. In particular, what a session has done before a reset does not matter.
-/

namespace HostCode

open CodeBuffer Segment Assembler

namespace Session

def embedded (s : Session) : List Patched :=
  s.asm.segment.table.patched.filter fun q =>
    match q.kind, q.dest with
    | .abs64, .inside _ => true
    | _, _ => false

/-- `t` shows what `s` shows: the same blocks, the same jumps and the same code. Addresses in the
code that lead into it may differ, and are those of the same offsets. -/
structure SameCode (s t : Session) : Prop where
  lookup : ∀ guest, t.lookup guest = s.lookup guest
  pending : t.pending = s.pending
  literals : t.asm.literals = s.asm.literals
  length : t.asm.offset = s.asm.offset
  narrow : s.asm.mode.wide = false → t.asm.code = s.asm.code
  bytes : ∀ i, (∀ q ∈ s.embedded, ¬ q.field.Covers i) →
    t.asm.segment.buffer.bytes[i]? = s.asm.segment.buffer.bytes[i]?
  addresses : ∀ q ∈ s.embedded, ∃ o, q.dest = .inside o ∧
    s.asm.segment.buffer.field q.field =
      littleEndian 8 (s.asm.segment.buffer.address + UInt64.ofNat o).toNat ∧
    t.asm.segment.buffer.field q.field =
      littleEndian 8 (t.asm.segment.buffer.address + UInt64.ofNat o).toNat
  failed : t.failed = s.failed
  stats : { t.stats with
    grows := s.stats.grows, recorded := s.stats.recorded, patched := s.stats.patched
    capacity := s.stats.capacity } = s.stats

variable {s t : Session} {history : List Action}

theorem mem_embedded {q : Patched} (h : q ∈ s.embedded) :
    q ∈ s.asm.segment.table.patched ∧ q.kind = .abs64 ∧ ∃ o, q.dest = .inside o := by
  obtain ⟨hq, hm⟩ := List.mem_filter.mp h
  obtain ⟨site, kind, target, dest⟩ := q
  cases kind <;> cases dest <;> cases hm
  exact ⟨hq, rfl, _, rfl⟩

/-- All sites but those hold the same wherever the code is. -/
theorem mem_embedded_of_dependsOnBase {q : Patched} (hq : q ∈ s.asm.segment.table.patched)
    (hu : q.unfailing = true) (hd : q.dependsOnBase = true) : q ∈ s.embedded := by
  refine List.mem_filter.mpr ⟨hq, ?_⟩
  obtain ⟨site, kind, target, dest⟩ := q
  cases kind <;> cases dest
  · cases hd
  · cases hu
  · rfl
  · cases hd

namespace Twin

theorem bytes (h : Twin s t) {i : Nat} (hi : ∀ q ∈ s.embedded, ¬ q.field.Covers i) :
    t.asm.segment.buffer.bytes[i]? = s.asm.segment.buffer.bytes[i]? := by
  by_cases hcov : ∃ q ∈ s.asm.segment.table.patched, q.field.Covers i
  · obtain ⟨q, hq, hcov⟩ := hcov
    have hd : q.dependsOnBase = false := by
      refine Bool.eq_false_iff.mpr fun hd => hi q ?_ hcov
      exact mem_embedded_of_dependsOnBase hq (h.alike.steady q hq) hd
    have hs : s.asm.segment.buffer.Holds q := h.linked.1 q hq
    have ht : t.asm.segment.buffer.Holds q := h.linked.2 q (h.alike.patched ▸ hq)
    rw [Holds, Patched.content_of_not_dependsOnBase hd _ s.asm.segment.buffer.address, hs] at ht
    exact getElem?_eq_of_field_eq (Except.ok.inj ht).symm hcov
  · exact h.alike.bytes i fun q hq hc => hcov ⟨q, hq, hc⟩

theorem sameCode (h : Twin s t) : s.SameCode t := by
  obtain ⟨⟨_, hs⟩, _, ht⟩ := h.sound
  constructor
  · intro guest
    rw [h.lookup]
  · exact h.alike.pending
  · exact h.alike.literals
  · exact h.alike.offset
  · intro hnarrow
    have hnone : ∀ q, q ∉ s.embedded := by
      intro q hq
      obtain ⟨hq, hk, -⟩ := mem_embedded hq
      rw [hs.settled.tidy.patchedKind q hq, AddressingMode.siteKind, hnarrow] at hk
      cases hk
    refine congrArg Array.toList (Array.ext_getElem? fun i => ?_)
    exact h.bytes fun q hq => absurd hq (hnone q)
  · intro i hi
    exact h.bytes hi
  · intro q hq
    obtain ⟨hq, hk, o, ho⟩ := mem_embedded hq
    obtain ⟨site, kind, target, dest⟩ := q
    obtain rfl : kind = .abs64 := hk
    obtain rfl : dest = .inside o := ho
    have hs : s.asm.segment.buffer.Holds _ := h.linked.1 _ hq
    have ht : t.asm.segment.buffer.Holds _ := h.linked.2 _ (h.alike.patched ▸ hq)
    exact ⟨o, rfl, (Except.ok.inj hs).symm, (Except.ok.inj ht).symm⟩
  · exact h.failed
  · have hp : t.pending = s.pending := h.alike.pending
    simp only [stats, h.blocks, hp, h.alike.offset]

end Twin

theorem Sound.apply_host (hs : s.Sound history) (act : Action) (r : Registry) :
    (act.apply ⟨s, r⟩).2.session.config = s.config ∧
      (act.apply ⟨s, r⟩).2.session.asm.mode = s.asm.mode := by
  cases act with
  | block guest e =>
    have hout := block_outcome (x := ⟨s, r⟩) hs.settled guest e
    generalize ((Action.block guest e).apply ⟨s, r⟩).1 = v at hout
    generalize ((Action.block guest e).apply ⟨s, r⟩).2.session = s' at hout ⊢
    cases hout with
    | refused err h => exact ⟨rfl, rfl⟩
    | translated h =>
      obtain ⟨hem, -, -⟩ := e.run_emitting (w := (s.asm, [])) (.refl hs.settled.tidy)
      refine ⟨h.config, ?_⟩
      rw [h.asm]
      exact hem.mode
    | undone h => exact ⟨h.config, h.discarded.mode⟩
  | prologue =>
    rcases prologue_outcome hs.settled r with ⟨a, x, hx, hcore, hw, -⟩ | ⟨f, a, -, -, hcore, hb⟩
    · simp only [Action.apply, hx, verdict, id]
      exact ⟨congrArg Core.config hcore, (congrArg (·.asm.mode) hcore).trans hw.mode⟩
    · obtain ⟨chunk, hw⟩ := hb.wrote
      exact ⟨congrArg Core.config hcore, (congrArg (·.asm.mode) hcore).trans hw.mode⟩
  | resolve guest host =>
    obtain ⟨n, v, x, seg, new, hx, hcore, -⟩ := resolve_outcome hs.settled guest host r
    simp only [Action.apply, hx, verdict, id]
    exact ⟨congrArg Core.config hcore, congrArg (·.asm.mode) hcore⟩
  | reset => exact ⟨rfl, rfl⟩

end Session

/-! ## Runs of a program -/

def trace : List Action → Shared → List ((Verdict × Option Nat) × Session)
  | [], _ => []
  | act :: acts, x => (act.answer x, (act.apply x).2.session) :: trace acts (act.apply x).2

def fed : List Action → Shared → Bool
  | [], _ => true
  | act :: acts, x => !act.starves x.session && fed acts (act.apply x).2

/-- After each call of a program, two runs have answered the same and show the same. -/
def Agree (program : List Action) (x y : Shared) : Prop :=
  List.Forall₂ (fun p q => q.1 = p.1 ∧ p.2.SameCode q.2) (trace program x) (trace program y)

theorem Session.Twin.agree {x y : Shared} (h : Twin x.session y.session) {program : List Action}
    (hp : ∀ act ∈ program, act.Portable x.session.asm.mode.wide) (hx : fed program x = true)
    (hy : fed program y = true) : Agree program x y := by
  induction program generalizing x y with
  | nil => exact .nil
  | cons act acts ih =>
    obtain ⟨⟨_, hs⟩, -⟩ := h.sound
    simp only [fed, Bool.and_eq_true, Bool.not_eq_true'] at hx hy
    obtain ⟨hact, hacts⟩ := List.forall_mem_cons.mp hp
    obtain ⟨hanswer, htwin⟩ := h.step hact hx.1 hy.1 x.registry y.registry
    refine .cons ⟨hanswer, htwin.sameCode⟩ (ih htwin ?_ hx.2 hy.2)
    rw [(hs.apply_host act x.registry).2]
    exact hacts

theorem Reached.addressing {history : List Action} {s : Session} (h : Reached history s) :
    s.config.addressing = .ok s.asm.mode := by
  induction h with
  | new unused made =>
    obtain ⟨mode, hmode, hcore⟩ := Session.new_core made
    rw [show Session.config _ = _ from congrArg Core.config hcore, hmode]
    exact congrArg Except.ok (congrArg (·.asm.mode) hcore).symm
  | step before act r ih =>
    obtain ⟨hconfig, hmode⟩ := before.sound.apply_host act r
    rw [hconfig, hmode]
    exact ih

/-- The same program on two new sessions, whose memory lies and grows in whatever way, gives the
same answers and the same code. -/
theorem Session.new_agrees {c : Config} {b b' : CodeBuffer} (hb : b.Unused) (hb' : b'.Unused)
    {s t : Session} {r r' r₁ r₁' : Registry}
    (hs : Session.new { c with buffer := b } r = (.ok s, r₁))
    (ht : Session.new { c with buffer := b' } r' = (.ok t, r₁')) (program : List Action)
    (hp : ∀ act ∈ program, act.Portable s.asm.mode.wide) (hfs : fed program ⟨s, r₁⟩ = true)
    (hft : fed program ⟨t, r₁'⟩ = true) :
    Agree program ⟨s, r₁⟩ ⟨t, r₁'⟩ := by
  obtain ⟨mode, hmode, hcore⟩ := Session.new_core hs
  obtain ⟨mode', hmode', hcore'⟩ := Session.new_core ht
  obtain rfl : mode = mode' := Except.ok.inj (hmode.symm.trans hmode')
  have hsame : t.asm.mode = s.asm.mode :=
    (congrArg (·.asm.mode) hcore').trans (congrArg (·.asm.mode) hcore).symm
  have hlogger : t.config.logger = s.config.logger :=
    (congrArg (·.config.logger) hcore').trans (congrArg (·.config.logger) hcore).symm
  have htwin : s.Twin t := .of_empty (Session.new_sound hb hs) (Session.new_sound hb' ht) hsame
    hlogger (Session.new_empty hb hs) (Session.new_empty hb' ht)
  exact htwin.agree hp hfs hft

def twoBlocks : List Action :=
  [.prologue, .block 1 (.ofCalls [.jumpToGuest 2]), .block 2 (.ofCalls [.append [0x90, 0xc3]])]

theorem twoBlocks_portable (wide : Bool) : ∀ act ∈ twoBlocks, act.Portable wide := by
  simp only [twoBlocks, List.forall_mem_cons]
  exact ⟨trivial, Emission.blind_ofCalls _, Emission.blind_ofCalls _, nofun⟩

def CodeBuffer.spacious : CodeBuffer where
  supply := .listed [.ok 0x50000]
  growth := 64

theorem CodeBuffer.spacious_unused : spacious.Unused :=
  ⟨rfl, rfl, Supply.neverZero_listed (by simp)⟩

/-- In one of the sessions the code moves inside of the jump, and in the other it never does. -/
theorem new_agrees_despite_move :
    ∃ s t, Session.new Config.twoPlaces {} = (.ok s, {}) ∧
      Session.new { Config.twoPlaces with buffer := .spacious } {} = (.ok t, {}) ∧
      fed twoBlocks ⟨s, {}⟩ = true ∧ fed twoBlocks ⟨t, {}⟩ = true ∧
      (trace twoBlocks ⟨s, {}⟩).map (·.2.asm.segment.buffer.address) =
        [0x10000, 0x20000, 0x20000] ∧
      (trace twoBlocks ⟨t, {}⟩).map (·.2.asm.segment.buffer.address) =
        [0x50000, 0x50000, 0x50000] ∧
      Agree twoBlocks ⟨s, {}⟩ ⟨t, {}⟩ := by
  obtain ⟨s, hs, hfs, has⟩ : ∃ s, Session.new Config.twoPlaces {} = (.ok s, {}) ∧
      fed twoBlocks ⟨s, {}⟩ = true ∧
      (trace twoBlocks ⟨s, {}⟩).map (·.2.asm.segment.buffer.address) =
        [0x10000, 0x20000, 0x20000] := ⟨_, rfl, by decide +kernel, by decide +kernel⟩
  obtain ⟨t, ht, hft, hat⟩ : ∃ t,
      Session.new { Config.twoPlaces with buffer := .spacious } {} = (.ok t, {}) ∧
      fed twoBlocks ⟨t, {}⟩ = true ∧
      (trace twoBlocks ⟨t, {}⟩).map (·.2.asm.segment.buffer.address) =
        [0x50000, 0x50000, 0x50000] := ⟨_, rfl, by decide +kernel, by decide +kernel⟩
  exact ⟨s, t, hs, ht, hfs, hft, has, hat, Session.new_agrees Config.twoPlaces_unused
    CodeBuffer.spacious_unused hs ht twoBlocks (twoBlocks_portable _) hfs hft⟩

/-- After a reset, a session answers a program as a new one with the same configuration does, and
writes the same code, whatever it has done before. -/
theorem Reached.reset_agrees {history : List Action} {s t : Session} (h : Reached history s)
    {b : CodeBuffer} (hb : b.Unused) {r r₁ : Registry}
    (ht : Session.new { s.config with buffer := b } r = (.ok t, r₁)) (r₀ : Registry)
    (program : List Action) (hp : ∀ act ∈ program, act.Portable s.asm.mode.wide)
    (hfs : fed program (Shared.reset ⟨s, r₀⟩) = true) (hft : fed program ⟨t, r₁⟩ = true) :
    (Shared.reset ⟨s, r₀⟩).session.SameCode t ∧ Agree program (Shared.reset ⟨s, r₀⟩) ⟨t, r₁⟩ := by
  obtain ⟨mode, hmode, hcore⟩ := Session.new_core ht
  have hsame : t.asm.mode = s.asm.mode := by
    refine (congrArg (·.asm.mode) hcore).trans ?_
    exact Except.ok.inj (hmode.symm.trans h.addressing)
  have hlogger : t.config.logger = s.config.logger := congrArg (·.config.logger) hcore
  have htwin : (Shared.reset ⟨s, r₀⟩).session.Twin t :=
    .of_empty (h.sound.step .reset r₀).1 (Session.new_sound hb ht) hsame hlogger
      (Session.reset_empty s r₀) (Session.new_empty hb ht)
  exact ⟨htwin.sameCode, htwin.agree hp hfs hft⟩

/-- A session whose code has moved is reset. What it does then, a new session does as well. -/
theorem reset_agrees_after_move :
    ∃ s t r, Config.twoPlaces.session [.block 2 (.raw [0x90, 0xc3, 0xc3]), .block 1 (.goto 2)] =
        some s ∧
      s.asm.segment.buffer.address = 0x20000 ∧ s.asm.segment.table.patched ≠ [] ∧
      Session.new { s.config with buffer := .spacious } {} = (.ok t, r) ∧
      fed twoBlocks (Shared.reset ⟨s, {}⟩) = true ∧ fed twoBlocks ⟨t, r⟩ = true ∧
      (Shared.reset ⟨s, {}⟩).session.SameCode t ∧
      Agree twoBlocks (Shared.reset ⟨s, {}⟩) ⟨t, r⟩ := by
  have hfacts : (Config.twoPlaces.session
      [.block 2 (.raw [0x90, 0xc3, 0xc3]), .block 1 (.goto 2)]).any
      (fun s => s.asm.segment.buffer.address = 0x20000 ∧ s.asm.segment.table.patched ≠ [] ∧
        fed twoBlocks (Shared.reset ⟨s, {}⟩) = true ∧
        (match Session.new { s.config with buffer := .spacious } {} with
          | (.ok t, r) => fed twoBlocks ⟨t, r⟩
          | (.error _, _) => false) = true) = true := by decide +kernel
  obtain ⟨s, hs, hfact⟩ := (Option.any_eq_true ..).mp hfacts
  obtain ⟨haddr, hpatched, hfs, hnew⟩ := of_decide_eq_true hfact
  split at hnew
  · next t r ht =>
    have hreached := Config.reached Config.twoPlaces_unused hs
    exact ⟨s, t, r, hs, haddr, hpatched, ht, hfs, hnew, hreached.reset_agrees
      CodeBuffer.spacious_unused ht {} twoBlocks (twoBlocks_portable _) hfs hnew⟩
  · cases hnew

end HostCode
