import HostCode.Proofs.Emission.Discard
import HostCode.Proofs.Listing
import HostCode.Proofs.Session.Calls

/-! # Translating a block

A block is refused, or its emission returns and its jumps are led to their targets, or its
emission stops early and is discarded. Nothing else can happen: leading the jumps to their
targets never fails.
-/

namespace HostCode

open Log Segment

def Fault.failure : Fault → Option JumpRange
  | .jumpRange e => some e
  | _ => none

def Fault.result {α : Type} : Fault → Except Fault (Except Error α)
  | .allocation e => .ok (.error (.allocation e))
  | .jumpRange e => .ok (.error (.jumpRange e))
  | f => .error f

def Fault.verdict (f : Fault) : Verdict :=
  match (f.result : Except Fault (Except Error Unit)) with
  | .ok r => .ofResult r
  | .error f => .panicked f

theorem Fault.of_verdict_panicked {f g : Fault} (h : f.verdict = .panicked g) : g = f := by
  cases f <;> cases h <;> rfl

namespace Ending

def failure : Ending → Option JumpRange
  | returned _ => none
  | panicked f | broken f => f.failure

def verdict (guest : GuestAddress) : Ending → Verdict
  | returned (.ok ()) => .returned
  | returned (.error e) => .failed (.translating guest e)
  | panicked f | broken f =>
    match (f.result : Except Fault (Except Error Unit)) with
    | .ok (.error e) => .failed (.translating guest e)
    | _ => .panicked f

theorem of_verdict_returned {ending : Ending} {guest : GuestAddress}
    (h : ending.verdict guest = .returned) : ending = .returned (.ok ()) := by
  cases ending with
  | returned r =>
    cases r with
    | ok u => rfl
    | error e => cases h
  | panicked f => cases f <;> cases h
  | broken f => cases f <;> cases h

theorem of_verdict_panicked {ending : Ending} {guest : GuestAddress} {f : Fault}
    (h : ending.verdict guest = .panicked f) : ending = .panicked f ∨ ending = .broken f := by
  cases ending with
  | returned r => cases r <;> cases h
  | panicked g => cases g <;> cases h <;> exact .inl rfl
  | broken g => cases g <;> cases h <;> exact .inr rfl

end Ending

theorem Emission.emitter_eq (e : Emission) (w : Writing) :
    e.emitter w = match (e.run w).1 with
      | .returned r => .ok r (e.run w).2
      | .panicked f => .error f (e.run w).2
      | .broken f => .error f (e.run w).2 := by
  unfold emitter
  rcases e.run w with ⟨ending, w⟩
  cases ending <;> rfl

namespace Session

variable {s : Session} {guest : GuestAddress} {e : Emission} {x : Shared}

theorem run_ok {ω α : Type} {x : Attempt (Assembler × ω) (Except Error α)} {notes notes' : ω}
    {r : Except Error α} {a : Assembler} (h : x (s.asm, notes) = .ok r (a, notes')) :
    s.run x notes = (s.adopt a, notes', .ok r) := by
  simp only [run, h]

theorem run_error {ω α : Type} {x : Attempt (Assembler × ω) (Except Error α)} {notes notes' : ω}
    {f : Fault} {a : Assembler} (h : x (s.asm, notes) = .error f (a, notes')) :
    ∃ s', s.run x notes = (s', notes', f.result) ∧
      s'.core = ⟨s.config, a, s.blocks, f.failure.or s.failed⟩ := by
  cases f with
  | misuse m => exact ⟨_, by simp only [run, h]; rfl, core_adopt a s⟩
  | allocation e => exact ⟨s.adopt a, by simp only [run, h]; rfl, core_adopt a s⟩
  | outOfRange => exact ⟨_, by simp only [run, h]; rfl, core_adopt a s⟩
  | jumpRange e =>
    refine ⟨{ s.adopt a with failed := some e }, by simp only [run, h]; rfl, ?_⟩
    simp only [core, adopt_config, adopt_asm, adopt_blocks]
    rfl

/-! ## Leading jumps to known blocks -/

/-- What holds of the tables of every session. -/
structure Settled (s : Session) : Prop where
  tidy : s.asm.Tidy
  blocks : ∀ b ∈ s.blocks, b.2 ≤ s.asm.offset

theorem mem_of_lookup {o : Nat} (h : s.lookup guest = some o) : (guest, o) ∈ s.blocks := by
  obtain ⟨l₁, l₂, hl, -⟩ := List.lookup_eq_some_iff.mp h
  rw [hl]
  exact List.mem_append_right _ List.mem_cons_self

theorem mem_targets {t : RelocationTable} {p : Pending} (h : p ∈ t.pending) :
    p.target ∈ t.targets := by
  rw [RelocationTable.targets, List.mem_eraseDups, List.mem_mergeSort]
  exact List.mem_map_of_mem h

theorem run_patchKnown (hs : s.Settled) :
    ∃ seg n, s.run s.patchKnown () = (s.adopt { s.asm with segment := seg }, (), .ok (.ok n)) ∧
      seg.table.pending = s.asm.segment.table.pending.filter (fun p => s.lookup p.target = none) ∧
      Resolved (leadKnown s.lookup)
        (ledKnown s.lookup s.asm.segment.table.targets s.asm.segment.table.pending)
        s.asm.segment seg := by
  have hr := resolveEach_ensures hs.tidy.segment s.lookup
    (fun g o ho => hs.blocks _ (mem_of_lookup ho)) s.asm.segment.table.targets
  unfold Ensures at hr
  cases hx : resolveEach (fun g => (s.lookup g).map Int.ofNat) s.asm.segment.table.targets
      s.asm.segment with
  | error f seg =>
    simp only [hx] at hr
  | ok r seg =>
    simp only [hx] at hr
    obtain ⟨n, stop⟩ := r
    obtain ⟨rfl, hp, hnew⟩ := hr
    refine ⟨seg, n, run_ok ?_, ?_, hnew⟩
    · have hk : resolveKnown (fun g => (s.lookup g).map Int.ofNat) s.asm.segment =
          .ok (n, none) seg := hx
      simp only [patchKnown, plain, bind, EStateM.bind, Assembler.onSegment, hk]
      rfl
    · rw [hp]
      refine List.filter_congr fun p hp => ?_
      have hm := mem_targets hp
      cases s.lookup p.target <;> simp [hm]

/-! ## The ways in which a block ends -/

theorem rollback_eq (guest : GuestAddress) {offset : Nat} {a : Assembler}
    (h : s.asm.truncate offset = .ok () a) :
    ∃ s', s.rollback guest offset = (s', none) ∧
      s'.core = ⟨s.config, a, s.blocks.filter (·.1 ≠ guest), s.failed⟩ := by
  simp only [rollback, h]
  exact ⟨_, rfl, rfl⟩

/-- What is wrong with the report of a block that starts at `offset`. -/
def complaint (offset : Nat) (s : Session) : Option Fault :=
  if s.config.logger.enabled .block Level.trace then
    match s.asm.listing offset with
    | .ok _ => none
    | .error f => some f
  else none

/-- Only code with more bytes than there are offsets cannot be listed. -/
theorem complaint_cases (hs : s.asm.Tidy) {offset : Nat} (ho : offset ≤ s.asm.offset) :
    s.complaint offset = none ∨
      s.complaint offset = some .outOfRange ∧ offsetLimit ≤ s.asm.offset := by
  unfold complaint
  split
  · cases hl : s.asm.listing offset with
    | ok ls => exact .inl rfl
    | error f =>
      obtain rfl := Assembler.listing_error hl
      refine .inr ⟨rfl, Nat.le_of_not_lt fun hlt => ?_⟩
      obtain ⟨ls, hok⟩ := Assembler.listing_ok hs (fun _ _ => Decoder.length_le) hlt ho
      exact absurd (hl.symm.trans hok) nofun
  · exact .inl rfl

theorem report_eq (guest : GuestAddress) (offset grows patched : Nat) :
    ∃ s', s.report guest offset grows patched = (s', s.complaint offset) ∧ s'.core = s.core := by
  unfold report
  extract_lets b s₁ s₂ s₃
  have h₁ : s₁.core = s.core := by unfold s₁; split <;> rfl
  have h₃ : s₃.core = s.core := by
    refine Eq.trans ?_ h₁
    unfold s₃
    split <;> rfl
  clear_value s₃
  have ha : s₃.asm = s.asm := congrArg Core.asm h₃
  have hc : s₃.config = s.config := congrArg Core.config h₃
  rw [complaint, hc, ha]
  split
  · cases s.asm.listing offset with
    | ok ls => exact ⟨_, rfl, h₃⟩
    | error f => exact ⟨_, rfl, h₃⟩
  · exact ⟨_, rfl, h₃⟩

/-- The block is translated. Its code is there, and no jump waits for a known block. -/
structure Translated (guest : GuestAddress) (e : Emission) (s : Session) (v : Verdict)
    (s' : Session) : Prop where
  healthy : s.failed = none
  fresh : s.lookup guest = none
  returned : (e.run (s.asm, [])).1 = .returned (.ok ())
  asm : s'.asm = { (e.run (s.asm, [])).2.1 with segment := s'.asm.segment }
  resolved : Resolved (leadKnown s'.lookup)
    (ledKnown s'.lookup (e.run (s.asm, [])).2.1.segment.table.targets
      (e.run (s.asm, [])).2.1.segment.table.pending)
    (e.run (s.asm, [])).2.1.segment s'.asm.segment
  pending : s'.pending = (e.run (s.asm, [])).2.1.segment.table.pending.filter
    fun p => s'.lookup p.target = none
  blocks : s'.blocks = (guest, s.asm.offset) :: s.blocks
  failed : s'.failed = none
  config : s'.config = s.config
  answer : v = (s'.complaint s.asm.offset).elim .returned .panicked
  verdict : v = .returned ∨ v = .panicked .outOfRange ∧ offsetLimit ≤ s'.asm.offset

structure Undone (guest : GuestAddress) (e : Emission) (s : Session) (v : Verdict)
    (s' : Session) : Prop where
  healthy : s.failed = none
  fresh : s.lookup guest = none
  stopped : (e.run (s.asm, [])).1 ≠ .returned (.ok ())
  discarded : s.asm.Discarded s'.asm
  linked : (e.run (s.asm, [])).2.1.Linked → s'.asm.Linked
  blocks : s'.blocks = s.blocks
  failed : s'.failed = (e.run (s.asm, [])).1.failure
  config : s'.config = s.config
  verdict : v = (e.run (s.asm, [])).1.verdict guest

/-- What comes of a block. -/
inductive Outcome (guest : GuestAddress) (e : Emission) (s : Session) : Verdict → Session → Prop
  | refused (err : Error) (h : s.failed.isSome ∨ (s.lookup guest).isSome) :
    Outcome guest e s (.failed err) s
  | translated {v : Verdict} {s' : Session} (h : Translated guest e s v s') :
    Outcome guest e s v s'
  | undone {v : Verdict} {s' : Session} (h : Undone guest e s v s') : Outcome guest e s v s'

theorem translate_stopped (guest : GuestAddress) (opened : Session)
    (hstop : (e.run (opened.asm, [])).1 ≠ .returned (.ok ())) :
    ∃ s' notes v, opened.translate guest e.emitter [] = (s', notes, v) ∧
      s'.core = ⟨opened.config, (e.run (opened.asm, [])).2.1, opened.blocks,
        (e.run (opened.asm, [])).1.failure.or opened.failed⟩ ∧
      ((∃ err, v = .ok (.error err) ∧ (e.run (opened.asm, [])).1.verdict guest = .failed err) ∨
        ∃ f, v = .error f ∧ (e.run (opened.asm, [])).1.verdict guest = .panicked f) := by
  have he := e.emitter_eq (opened.asm, [])
  rcases hrun : e.run (opened.asm, []) with ⟨ending, a, labels⟩
  rw [hrun] at hstop he
  have hfault : ∀ f, e.emitter (opened.asm, []) = .error f (a, labels) →
      ∃ s' notes v, opened.translate guest e.emitter [] = (s', notes, v) ∧
        s'.core = ⟨opened.config, a, opened.blocks, f.failure.or opened.failed⟩ ∧
        ((∃ err, v = .ok (.error err) ∧ (Ending.broken f).verdict guest = .failed err) ∨
          ∃ g, v = .error g ∧ (Ending.broken f).verdict guest = .panicked g) := by
    intro f hf
    obtain ⟨s', hrun, hcore⟩ := run_error hf
    cases f with
    | allocation e | jumpRange e =>
      exact ⟨s', labels, _, by simp only [translate, hrun]; rfl, hcore, .inl ⟨_, rfl, rfl⟩⟩
    | misuse m =>
      exact ⟨s', labels, _, by simp only [translate, hrun]; rfl, hcore, .inr ⟨_, rfl, rfl⟩⟩
    | outOfRange =>
      exact ⟨s', labels, _, by simp only [translate, hrun]; rfl, hcore, .inr ⟨_, rfl, rfl⟩⟩
  cases ending with
  | returned r =>
    cases r with
    | ok u => exact absurd rfl hstop
    | error err =>
      refine ⟨opened.adopt a, labels, .ok (.error (.translating guest err)), ?_,
        core_adopt a opened, .inl ⟨_, rfl, rfl⟩⟩
      simp only [translate, run_ok he]
  | panicked f => exact hfault f he
  | broken f => exact hfault f he

theorem translate_returned (guest : GuestAddress) (opened : Session)
    (hret : (e.run (opened.asm, [])).1 = .returned (.ok ()))
    (hs : Settled (opened.adopt (e.run (opened.asm, [])).2.1)) :
    ∃ s' notes n, opened.translate guest e.emitter [] = (s', notes, .ok (.ok n)) ∧
      s'.core = ⟨opened.config, { (e.run (opened.asm, [])).2.1 with segment := s'.asm.segment },
        opened.blocks, opened.failed⟩ ∧
      s'.pending = (e.run (opened.asm, [])).2.1.segment.table.pending.filter
        (fun p => s'.lookup p.target = none) ∧
      Resolved (leadKnown s'.lookup)
        (ledKnown s'.lookup (e.run (opened.asm, [])).2.1.segment.table.targets
          (e.run (opened.asm, [])).2.1.segment.table.pending)
        (e.run (opened.asm, [])).2.1.segment s'.asm.segment := by
  have he := e.emitter_eq (opened.asm, [])
  rcases hrun : e.run (opened.asm, []) with ⟨ending, a, labels⟩
  rw [hrun] at hret he hs
  obtain rfl : ending = .returned (.ok ()) := hret
  obtain ⟨seg, n, hpatch, hpending, hres⟩ := run_patchKnown hs
  simp only [adopt_asm, adopt_lookup] at hpatch hpending hres
  refine ⟨(opened.adopt a).adopt { a with segment := seg }, labels, n, ?_, ?_, ?_, ?_⟩
  · simp only [translate, run_ok he, hpatch]
  · simp only [core_adopt, adopt_config, adopt_asm, adopt_blocks, adopt_failed]
  · simp only [pending, adopt_asm, adopt_lookup]
    exact hpending
  · simp only [adopt_asm, adopt_lookup]
    exact hres

theorem filter_blocks (h : s.lookup guest = none) (offset : Nat) :
    ((guest, offset) :: s.blocks).filter (·.1 ≠ guest) = s.blocks := by
  rw [List.filter_cons_of_neg (by simp)]
  refine List.filter_eq_self.mpr fun b hb => decide_eq_true fun he => ?_
  have hne := List.lookup_eq_none_iff.mp h b hb
  rw [he] at hne
  simp at hne

def opened (guest : GuestAddress) (s : Session) : Session :=
  let opened := s.log .block Level.debug "block start" [.guest guest, .offset s.asm.offset]
  { opened with blocks := (guest, s.asm.offset) :: opened.blocks }

theorem settled_opened (hs : s.Settled) (guest : GuestAddress) {a : Assembler} (ha : a.Tidy)
    (hgrown : s.asm.offset ≤ a.offset) : Settled ((s.opened guest).adopt a) := by
  constructor
  · rw [adopt_asm]
    exact ha
  · rw [adopt_asm, adopt_blocks]
    rintro b (_ | ⟨_, hb⟩)
    · exact hgrown
    · exact Nat.le_trans (hs.blocks b hb) hgrown

theorem block_translated (hs : x.session.Settled) (hf : x.session.failed = none)
    (hl : x.session.lookup guest = none)
    (hret : (e.run (x.session.asm, [])).1 = .returned (.ok ())) :
    Translated guest e x.session ((Action.block guest e).apply x).1
      ((Action.block guest e).apply x).2.session := by
  obtain ⟨s, r⟩ := x
  simp only at hs hf hl hret
  obtain ⟨hem, -, -⟩ := e.run_emitting (w := (s.asm, [])) (.refl hs.tidy)
  obtain ⟨s₁, notes, n, ht, hcore, hp, hres⟩ := translate_returned guest
    (s.opened guest) hret (settled_opened hs guest hem.tidy hem.grown)
  have ha : s₁.asm = { (e.run (s.asm, [])).2.1 with segment := s₁.asm.segment } :=
    congrArg Core.asm hcore
  have hlen : s₁.asm.offset = (e.run (s.asm, [])).2.1.offset := hres.length
  have htidy : s₁.asm.Tidy := by
    rw [ha]
    exact hem.tidy.resolved hres
  obtain ⟨s₂, hrep, hcore₂⟩ := report_eq (s := s₁) guest s.asm.offset
    s.asm.segment.buffer.grows n
  have happly : (Action.block guest e).apply ⟨s, r⟩ =
      ((s₁.complaint s.asm.offset).elim .returned .panicked, Shared.observe ⟨s₂, r⟩) := by
    simp only [opened] at ht
    simp only [Action.apply, Shared.block, hf, hl, ht, hrep]
    cases s₁.complaint s.asm.offset <;> rfl
  have hcore' : (Shared.observe ⟨s₂, r⟩).session.core =
      ⟨s₁.config, s₁.asm, s₁.blocks, s₁.failed⟩ := (Shared.core_observe ⟨s₂, r⟩).trans hcore₂
  obtain ⟨ha', hb', hf'⟩ := core_eq hcore'
  have hc' : (Shared.observe ⟨s₂, r⟩).session.config = s₁.config := congrArg Core.config hcore'
  rw [happly]
  have hlookup : (Shared.observe ⟨s₂, r⟩).session.lookup = s₁.lookup := by
    funext g
    rw [lookup, hb', lookup]
  refine ⟨hf, hl, hret, ?_, ?_, ?_, hb'.trans (congrArg Core.blocks hcore),
    hf'.trans ((congrArg Core.failed hcore).trans hf), hc'.trans (congrArg Core.config hcore),
    ?_, ?_⟩
  · rw [ha']
    exact ha
  · rw [hlookup, ha']
    exact hres
  · rw [hlookup, pending, ha']
    exact hp
  · simp only [complaint, hc', ha']
  · rw [ha']
    rcases complaint_cases htidy (hlen ▸ hem.grown) with hc | ⟨hc, hlimit⟩
    · exact .inl (by rw [hc]; rfl)
    · exact .inr ⟨by rw [hc]; rfl, hlimit⟩

theorem block_undone (hs : x.session.Settled) (hf : x.session.failed = none)
    (hl : x.session.lookup guest = none)
    (hstop : (e.run (x.session.asm, [])).1 ≠ .returned (.ok ())) :
    Undone guest e x.session ((Action.block guest e).apply x).1
      ((Action.block guest e).apply x).2.session := by
  obtain ⟨s, r⟩ := x
  simp only at hs hf hl hstop
  obtain ⟨hem, -, -⟩ := e.run_emitting (w := (s.asm, [])) (.refl hs.tidy)
  obtain ⟨s₁, notes, v, ht, hcore₁, hv⟩ := translate_stopped guest (s.opened guest) hstop
  obtain ⟨a, htrunc, hdisc, hlinked⟩ := hem.exists_discarded hs.tidy
  have hroll : s₁.asm.truncate s.asm.offset = .ok () a := by
    rw [show s₁.asm = (e.run (s.asm, [])).2.1 from congrArg Core.asm hcore₁]
    exact htrunc
  obtain ⟨s₂, hback, hcore₂⟩ := rollback_eq guest hroll
  have hblocks : s₁.blocks.filter (·.1 ≠ guest) = s.blocks := by
    rw [show s₁.blocks = (guest, s.asm.offset) :: s.blocks from congrArg Core.blocks hcore₁]
    exact filter_blocks hl _
  obtain ⟨s₃, happly, hcore₃⟩ : ∃ s₃,
      (Action.block guest e).apply ⟨s, r⟩ =
        ((e.run (s.asm, [])).1.verdict guest, Shared.observe ⟨s₃, r⟩) ∧ s₃.core = s₂.core := by
    have hopened : (s.opened guest).asm = s.asm := rfl
    rw [hopened] at hv
    simp only [opened] at ht
    rcases hv with ⟨err, rfl, hend⟩ | ⟨f, rfl, hend⟩
    · refine ⟨s₂.log .block Level.error "block failed" [.guest guest, .text "err" err.message],
        ?_, rfl⟩
      simp only [Action.apply, Shared.block, hf, hl, ht, hback, hend]
      rfl
    · refine ⟨s₂, ?_, rfl⟩
      simp only [Action.apply, Shared.block, hf, hl, ht, hback, hend]
      rfl
  have hfinal : (Shared.observe ⟨s₃, r⟩).session.core =
      ⟨s.config, a, s.blocks, (e.run (s.asm, [])).1.failure⟩ := by
    have hc : s₁.config = s.config := congrArg Core.config hcore₁
    have hfail : s₁.failed = (e.run (s.asm, [])).1.failure.or s.failed :=
      congrArg Core.failed hcore₁
    rw [Shared.core_observe, hcore₃, hcore₂, hblocks, hc, hfail, hf, Option.or_none]
  rw [happly]
  have ha' : (Shared.observe ⟨s₃, r⟩).session.asm = a := congrArg Core.asm hfinal
  refine ⟨hf, hl, hstop, ?_, ?_, congrArg Core.blocks hfinal, congrArg Core.failed hfinal,
    congrArg Core.config hfinal, rfl⟩
  · rw [ha']
    exact hdisc
  · rw [ha']
    exact hlinked

theorem block_outcome (hs : x.session.Settled) (guest : GuestAddress) (e : Emission) :
    Outcome guest e x.session ((Action.block guest e).apply x).1
      ((Action.block guest e).apply x).2.session := by
  cases hf : x.session.failed with
  | some err =>
    simp only [Action.apply, Shared.block, hf]
    exact .refused _ (.inl (by rw [hf]; rfl))
  | none =>
    cases hl : x.session.lookup guest with
    | some o =>
      simp only [Action.apply, Shared.block, hf, hl]
      exact .refused _ (.inr (by rw [hl]; rfl))
    | none =>
      by_cases hret : (e.run (x.session.asm, [])).1 = .returned (.ok ())
      · exact .translated (block_translated hs hf hl hret)
      · exact .undone (block_undone hs hf hl hret)

end Session

end HostCode
