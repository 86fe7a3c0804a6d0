import HostCode.Proofs.Emission.Twins
import HostCode.Proofs.Session.Completion

/-! # Two sessions in step

Two sessions that have translated the same blocks into the same code answer every call in the
same way, and stay alike. Where their code lies, how much memory they have and when they get
more of it has no part in this, as long as they get it.
-/

namespace HostCode

open CodeBuffer Segment Assembler

/-- The call is the same for all sessions: its emission does not look at the assembler, and on
narrow hosts it leads no jump out of the code. -/
def Action.Portable (wide : Bool) : Action → Prop
  | block _ e => e.Blind
  | prologue | reset => True
  | resolve .. => wide = true

/-- The call finds no memory for what it is to write. -/
def Action.starves (s : Session) : Action → Bool
  | block guest e =>
    s.failed.isNone && (s.lookup guest).isNone && (e.run (s.asm, [])).1.starved
  | prologue =>
    match loadStateBase s.asm with
    | .ok _ _ => false
    | .error f _ => f.ofMemory
  | resolve .. | reset => false

def Action.figure (x : Shared) : Action → Option Nat
  | prologue =>
    match Shared.prologue x with
    | .ok v _ => some v.1
    | .error _ _ => none
  | resolve guest host =>
    match Shared.resolve guest host x with
    | .ok v _ => some v.1
    | .error _ _ => none
  | block .. | reset => none

def Action.answer (x : Shared) (act : Action) : Verdict × Option Nat :=
  ((act.apply x).1, act.figure x)

theorem Patched.unfailing_of_inside {q : Patched} {o : Nat} (h : q.dest = .inside o) :
    q.unfailing = true := by
  obtain ⟨site, kind, target, dest⟩ := q
  obtain rfl : dest = .inside o := h
  exact Pending.unfailing_inside ⟨site, target, kind⟩ o

theorem Assembler.Tidy.unfailing {a : Assembler} (h : a.Tidy) (hw : a.mode.wide = true)
    {p : Pending} (hp : p ∈ a.segment.table.pending) (dest : Destination) :
    (p.leadingTo dest).unfailing = true := by
  have hkind : p.kind = .abs64 := by
    rw [h.pendingKind p hp, AddressingMode.siteKind, if_pos hw]
  simp only [Patched.unfailing, Pending.leadingTo, hkind]

theorem Emission.run_linked {start : Assembler} {w : Writing} (e : Emission)
    (h : Emitting start w.2 w.1) (hsteady : ¬ start.segment.Brittle) (hl : w.1.Linked) :
    (e.run w).2.1.Linked := by
  obtain ⟨-, hrun, -⟩ := e.run_emitting h
  refine hrun.resolve_left ?_ hl
  rintro ⟨j, hj⟩
  have hex := e.run_excused h (by rw [hj]; exact nofun)
  rw [hj] at hex
  rcases hex with ⟨m, hm, -⟩ | hm | ⟨-, hb⟩
  · cases hm
  · cases hm
  · exact hsteady hb

namespace Session

variable {s s' t t' : Session} {guest : GuestAddress} {e : Emission} {history : List Action}

theorem complaint_congr (hs : s.asm.Tidy) (ht : t.asm.Tidy)
    (hlogger : t.config.logger = s.config.logger) (hlit : t.asm.literals = s.asm.literals)
    {o : Nat} (ho : o ≤ s.asm.offset) (ho' : o ≤ t.asm.offset) :
    t.complaint o = s.complaint o := by
  have hiff : (∃ f, t.asm.listing o = .error f) ↔ ∃ f, s.asm.listing o = .error f := by
    rw [listing_error_iff hs (fun _ _ => Decoder.length_le) ho,
      listing_error_iff ht (fun _ _ => Decoder.length_le) ho', hlit]
  unfold complaint
  rw [hlogger]
  split
  · cases hl : s.asm.listing o with
    | ok ls =>
      cases hl' : t.asm.listing o with
      | ok ls' => rfl
      | error f =>
        obtain ⟨g, hg⟩ := hiff.mp ⟨f, hl'⟩
        cases hl.symm.trans hg
    | error f =>
      cases hl' : t.asm.listing o with
      | ok ls' =>
        obtain ⟨g, hg⟩ := hiff.mpr ⟨f, hl⟩
        cases hl'.symm.trans hg
      | error g => rw [listing_error hl, listing_error hl']
  · rfl

structure Empty (s : Session) : Prop where
  offset : s.asm.offset = 0
  literals : s.asm.literals = []
  pending : s.pending = []
  patched : s.asm.segment.table.patched = []
  blocks : s.blocks = []
  failed : s.failed = none

theorem reset_empty (s : Session) (r : Registry) : (Shared.reset ⟨s, r⟩).session.Empty :=
  ⟨rfl, rfl, rfl, rfl, rfl, rfl⟩

theorem new_empty {c : Config} {r r' : Registry} (hc : c.buffer.Unused)
    (h : Session.new c r = (.ok s, r')) : s.Empty := by
  obtain ⟨mode, -, hcore⟩ := new_core h
  have ha : s.asm = .new c.buffer mode := congrArg Core.asm hcore
  have hlen : (Assembler.new c.buffer mode).offset = 0 := congrArg Array.size hc.bytes
  exact ⟨ha ▸ hlen, by rw [ha]; rfl, by rw [Session.pending, ha]; rfl, by rw [ha]; rfl,
    congrArg Core.blocks hcore, congrArg Core.failed hcore⟩

/-- `t` has translated what `s` has. -/
structure Twin (s t : Session) : Prop where
  alike : Alike s.asm t.asm
  blocks : t.blocks = s.blocks
  failed : t.failed = s.failed
  logger : t.config.logger = s.config.logger
  sound : (∃ history, s.Sound history) ∧ ∃ history, t.Sound history
  linked : s.asm.Linked ∧ t.asm.Linked

namespace Twin

theorem lookup (h : Twin s t) : t.lookup = s.lookup := by
  funext g
  rw [Session.lookup, h.blocks, Session.lookup]

theorem sound_step (h : Twin s t) (act : Action) (r r' : Registry) :
    (∃ history, (act.apply ⟨s, r⟩).2.session.Sound history) ∧
      ∃ history, (act.apply ⟨t, r'⟩).2.session.Sound history := by
  obtain ⟨⟨history, hs⟩, history', ht⟩ := h.sound
  exact ⟨⟨_, (hs.step act r).1⟩, _, (ht.step act r').1⟩

/-- Both blocks are translated. The same jumps are led to the same blocks. -/
theorem translated (h : Twin s t) {v v' : Verdict} (hs : Translated guest e s v s')
    (ht : Translated guest e t v' t')
    (halike : Alike (e.run (s.asm, [])).2.1 (e.run (t.asm, [])).2.1)
    (hsound : (∃ history, s'.Sound history) ∧ ∃ history, t'.Sound history) :
    v' = v ∧ Twin s' t' := by
  obtain ⟨⟨_, hsound₁⟩, _, hsound₂⟩ := hsound
  have hblocks : t'.blocks = s'.blocks := by rw [hs.blocks, ht.blocks, h.alike.offset, h.blocks]
  have hlookup : t'.lookup = s'.lookup := by
    funext g
    rw [Session.lookup, hblocks, Session.lookup]
  have htargets : (e.run (t.asm, [])).2.1.segment.table.targets =
      (e.run (s.asm, [])).2.1.segment.table.targets := by
    rw [RelocationTable.targets, RelocationTable.targets, halike.pending]
  have hres := ht.resolved
  rw [hlookup, htargets, halike.pending] at hres
  have hpending : t'.asm.segment.table.pending = s'.asm.segment.table.pending := by
    refine ht.pending.trans (Eq.trans ?_ hs.pending.symm)
    rw [hlookup, halike.pending]
  have halike' : Alike s'.asm t'.asm := by
    rw [hs.asm, ht.asm]
    refine halike.resolved hs.resolved hres hpending fun q hq => ?_
    have hled := hs.resolved.led q hq
    rw [leadKnown, Option.map_eq_some_iff] at hled
    obtain ⟨o, -, hd⟩ := hled
    exact Patched.unfailing_of_inside hd.symm
  have hfailed : t'.failed = s'.failed := ht.failed.trans hs.failed.symm
  have hlogger : t'.config.logger = s'.config.logger := by rw [hs.config, ht.config, h.logger]
  refine ⟨?_, ⟨halike', hblocks, hfailed, hlogger, ⟨⟨_, hsound₁⟩, _, hsound₂⟩,
    hsound₁.linked hs.failed, hsound₂.linked ht.failed⟩⟩
  have ho : s.asm.offset ≤ s'.asm.offset :=
    hsound₁.settled.blocks (guest, s.asm.offset) (by rw [hs.blocks]; exact List.mem_cons_self)
  rw [hs.answer, ht.answer, h.alike.offset, complaint_congr hsound₁.settled.tidy
    hsound₂.settled.tidy hlogger halike'.literals ho (halike'.offset ▸ ho)]

theorem undone (h : Twin s t) {v v' : Verdict} (hs : Undone guest e s v s')
    (ht : Undone guest e t v' t') (hend : (e.run (t.asm, [])).1 = (e.run (s.asm, [])).1)
    (hsound : (∃ history, s'.Sound history) ∧ ∃ history, t'.Sound history) :
    v' = v ∧ Twin s' t' := by
  obtain ⟨⟨_, hs₀⟩, _, ht₀⟩ := h.sound
  obtain ⟨hna, hnb⟩ := h.alike.not_brittle
  refine ⟨by rw [hs.verdict, ht.verdict, hend], ?_⟩
  refine ⟨h.alike.discarded hs₀.settled.tidy hs.discarded ht.discarded, ?_, ?_, ?_, hsound,
    hs.linked ?_, ht.linked ?_⟩
  · rw [hs.blocks, ht.blocks, h.blocks]
  · rw [hs.failed, ht.failed, hend]
  · rw [hs.config, ht.config, h.logger]
  · exact e.run_linked (w := (s.asm, [])) (.refl hs₀.settled.tidy) hna h.linked.1
  · exact e.run_linked (w := (t.asm, [])) (.refl ht₀.settled.tidy) hnb h.linked.2

theorem block (h : Twin s t) (he : e.Blind) (r r' : Registry)
    (hs : (Action.block guest e).starves s = false)
    (ht : (Action.block guest e).starves t = false) :
    ((Action.block guest e).apply ⟨t, r'⟩).1 = ((Action.block guest e).apply ⟨s, r⟩).1 ∧
      Twin ((Action.block guest e).apply ⟨s, r⟩).2.session
        ((Action.block guest e).apply ⟨t, r'⟩).2.session := by
  have hsound := h.sound_step (.block guest e) r r'
  obtain ⟨⟨_, hs₀⟩, _, ht₀⟩ := h.sound
  cases hf : s.failed with
  | some err =>
    have hf' : t.failed = some err := h.failed.trans hf
    simp only [Action.apply, Shared.block, hf, hf']
    exact ⟨rfl, h⟩
  | none =>
    have hf' : t.failed = none := h.failed.trans hf
    cases hl : s.lookup guest with
    | some o =>
      have hl' : t.lookup guest = some o := h.lookup ▸ hl
      simp only [Action.apply, Shared.block, hf, hf', hl, hl']
      exact ⟨rfl, h⟩
    | none =>
      have hl' : t.lookup guest = none := h.lookup ▸ hl
      simp only [Action.starves, hf, hl, Option.isNone_none, Bool.true_and] at hs
      simp only [Action.starves, hf', hl', Option.isNone_none, Bool.true_and] at ht
      obtain ⟨hend, halike⟩ := Emission.run_alike he h.alike (.refl hs₀.settled.tidy)
        (.refl ht₀.settled.tidy) hs ht
      by_cases hret : (e.run (s.asm, [])).1 = .returned (.ok ())
      · exact h.translated (block_translated (x := ⟨s, r⟩) hs₀.settled hf hl hret)
          (block_translated (x := ⟨t, r'⟩) ht₀.settled hf' hl' (hend.trans hret)) halike hsound
      · exact h.undone (block_undone (x := ⟨s, r⟩) hs₀.settled hf hl hret)
          (block_undone (x := ⟨t, r'⟩) ht₀.settled hf' hl' (hend ▸ hret)) hend hsound

theorem of_core (h : Twin s t) {a b : Assembler}
    (hs : s'.core = ⟨s.config, a, s.blocks, s.failed⟩)
    (ht : t'.core = ⟨t.config, b, t.blocks, t.failed⟩) (halike : Alike a b)
    (hsound : (∃ history, s'.Sound history) ∧ ∃ history, t'.Sound history)
    (hlinked : a.Linked ∧ b.Linked) : Twin s' t' := by
  obtain ⟨rfl, hblocks, hfailed⟩ := core_eq hs
  obtain ⟨rfl, hblocks', hfailed'⟩ := core_eq ht
  have hconfig : s'.config = s.config := congrArg Core.config hs
  have hconfig' : t'.config = t.config := congrArg Core.config ht
  exact ⟨halike, by rw [hblocks, hblocks', h.blocks], by rw [hfailed, hfailed', h.failed],
    by rw [hconfig, hconfig', h.logger], hsound, hlinked⟩

/-- A prologue that finds memory writes the code that loads the state base. -/
theorem prologue_fed (hs : s.Sound history) (hsteady : ¬ s.asm.segment.Brittle)
    (hfed : Action.prologue.starves s = false) (r : Registry) :
    ∃ a x, Shared.prologue ⟨s, r⟩ = .ok (s.asm.offset, (loading s.asm.mode).2) x ∧
      x.session.core = ⟨s.config, a, s.blocks, s.failed⟩ ∧
      Wrote (loading s.asm.mode).1 s.asm a ∧ (s.asm.Linked → a.Linked) := by
  rcases prologue_outcome hs.settled r with hok | ⟨f, a, hx, -, -, hb⟩
  · exact hok
  · simp only [Action.starves, hx] at hfed
    rcases hb.cause with ⟨hm, -⟩ | ⟨-, hbrittle⟩
    · cases hm.symm.trans hfed
    · exact absurd hbrittle hsteady

theorem prologue (h : Twin s t) (r r' : Registry) (hs : Action.prologue.starves s = false)
    (ht : Action.prologue.starves t = false) :
    Action.prologue.answer ⟨t, r'⟩ = Action.prologue.answer ⟨s, r⟩ ∧
      Twin (Action.prologue.apply ⟨s, r⟩).2.session (Action.prologue.apply ⟨t, r'⟩).2.session := by
  have hsound := h.sound_step .prologue r r'
  obtain ⟨⟨_, hs₀⟩, _, ht₀⟩ := h.sound
  obtain ⟨hna, hnb⟩ := h.alike.not_brittle
  obtain ⟨a, x, hx, hcore, hw, hl⟩ := prologue_fed hs₀ hna hs r
  obtain ⟨b, y, hy, hcore', hw', hl'⟩ := prologue_fed ht₀ hnb ht r'
  rw [h.alike.mode, h.alike.offset] at hy
  rw [h.alike.mode] at hw'
  simp only [Action.apply, hx, hy, verdict, id] at hsound
  simp only [Action.answer, Action.figure, Action.apply, hx, hy, verdict, id]
  exact ⟨trivial, h.of_core hcore hcore' (h.alike.wrote hw hw') hsound
    ⟨hl h.linked.1, hl' h.linked.2⟩⟩

theorem resolve (h : Twin s t) (hw : s.asm.mode.wide = true) (guest : GuestAddress)
    (host : HostAddress) (r r' : Registry) :
    (Action.resolve guest host).answer ⟨t, r'⟩ = (Action.resolve guest host).answer ⟨s, r⟩ ∧
      Twin ((Action.resolve guest host).apply ⟨s, r⟩).2.session
        ((Action.resolve guest host).apply ⟨t, r'⟩).2.session := by
  have hsound := h.sound_step (.resolve guest host) r r'
  obtain ⟨⟨_, hs₀⟩, _, ht₀⟩ := h.sound
  have hreach : ∀ p ∈ s.pending, (p.leadingTo (.outside host)).unfailing = true :=
    fun p hp => hs₀.settled.tidy.unfailing hw hp _
  have hsame : t.pending = s.pending := h.alike.pending
  obtain ⟨n, v, x, seg, new, hx, hcore, hres, hall⟩ := resolve_outcome hs₀.settled guest host r
  obtain ⟨n', v', y, seg', new', hy, hcore', hres', hall'⟩ :=
    resolve_outcome ht₀.settled guest host r'
  rw [hsame] at hall'
  obtain ⟨rfl, rfl, rfl, hp⟩ := hall hreach
  obtain ⟨rfl, rfl, rfl, hp'⟩ := hall' hreach
  simp only [Action.apply, hx, hy, verdict, id] at hsound
  simp only [Action.answer, Action.figure, Action.apply, hx, hy, verdict, id]
  have hled : ∀ q ∈ ledOne guest (.outside host) s.pending, q.unfailing = true := by
    intro q hq
    obtain ⟨p, hp, rfl⟩ := List.mem_map.mp hq
    exact hreach p (List.mem_filter.mp hp).1
  exact ⟨trivial, h.of_core hcore hcore' (h.alike.resolved hres hres' (hp'.trans hp.symm) hled)
    hsound ⟨hres.linked hs₀.settled.tidy.segment h.linked.1,
      hres'.linked ht₀.settled.tidy.segment h.linked.2⟩⟩

theorem of_empty (hs : s.Sound history) {history' : List Action} (ht : t.Sound history')
    (hmode : t.asm.mode = s.asm.mode) (hlogger : t.config.logger = s.config.logger)
    (hs' : s.Empty) (ht' : t.Empty) : Twin s t where
  alike := .of_empty hmode hs'.offset ht'.offset hs'.literals ht'.literals hs'.pending ht'.pending
    hs'.patched ht'.patched
  blocks := ht'.blocks.trans hs'.blocks.symm
  failed := ht'.failed.trans hs'.failed.symm
  logger := hlogger
  sound := ⟨⟨_, hs⟩, _, ht⟩
  linked := ⟨hs.linked hs'.failed, ht.linked ht'.failed⟩

theorem reset (h : Twin s t) (r r' : Registry) :
    Twin (Action.reset.apply ⟨s, r⟩).2.session (Action.reset.apply ⟨t, r'⟩).2.session := by
  obtain ⟨⟨_, hs⟩, _, ht⟩ := h.sound_step .reset r r'
  exact of_empty hs ht h.alike.mode h.logger (reset_empty s r) (reset_empty t r')

/-- One call answers the same on both, and keeps them alike. -/
theorem step (h : Twin s t) {act : Action} (hp : act.Portable s.asm.mode.wide)
    (hs : act.starves s = false) (ht : act.starves t = false) (r r' : Registry) :
    act.answer ⟨t, r'⟩ = act.answer ⟨s, r⟩ ∧
      Twin (act.apply ⟨s, r⟩).2.session (act.apply ⟨t, r'⟩).2.session := by
  cases act with
  | block guest e =>
    obtain ⟨hv, htwin⟩ := h.block hp r r' hs ht
    exact ⟨Prod.ext hv rfl, htwin⟩
  | prologue => exact h.prologue r r' hs ht
  | resolve guest host => exact h.resolve hp guest host r r'
  | reset => exact ⟨rfl, h.reset r r'⟩

end Twin

end Session

end HostCode
