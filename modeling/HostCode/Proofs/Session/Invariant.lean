import HostCode.Proofs.Session.Block

/-! # The invariant of a session

Every call keeps the tables of a session in order, and the destinations of its jumps as they
were resolved. As long as no jump has gone out of range, the code agrees with the tables.
-/

namespace HostCode

open Segment

def currentCalls (history : List Action) : List Action := history.takeWhile fun act => !act.isReset

theorem mem_currentCalls_cons {act act' : Action} {history : List Action}
    (ha : act.isReset = false) (h : act' ∈ currentCalls history) :
    act' ∈ currentCalls (act :: history) := by
  rw [currentCalls, List.takeWhile_cons_of_pos (by simp [ha])]
  exact List.mem_cons_of_mem _ h

namespace Session

variable {s s' : Session} {history : List Action}

/-- The site was led to the code of a block, or to where a call has sent it. -/
def Leads (history : List Action) (s : Session) (q : Patched) : Prop :=
  match q.dest with
  | .inside offset => s.lookup q.target = some offset
  | .outside host => .resolve q.target host ∈ currentCalls history

structure Sound (history : List Action) (s : Session) : Prop where
  settled : s.Settled
  leads : ∀ q ∈ s.asm.segment.table.patched, s.Leads history q
  linked : s.failed = none → s.asm.Linked

theorem Leads.imp {act : Action} {q : Patched} (h : s.Leads history q) (ha : act.isReset = false)
    (hl : ∀ o, s.lookup q.target = some o → s'.lookup q.target = some o) :
    s'.Leads (act :: history) q := by
  unfold Leads at h ⊢
  split <;> rename_i hd <;> simp only [hd] at h
  · exact hl _ h
  · exact mem_currentCalls_cons ha h

/-! ## Blocks -/

theorem Translated.sound {guest : GuestAddress} {e : Emission} {v : Verdict}
    (h : Translated guest e s v s') (hs : s.Sound history) :
    s'.Sound (.block guest e :: history) := by
  obtain ⟨hem, hrun, -⟩ := e.run_emitting (w := (s.asm, [])) (.refl hs.settled.tidy)
  have hres := h.resolved
  have hlen : s'.asm.offset = (e.run (s.asm, [])).2.1.offset := hres.length
  have hknown : ∀ g o, s.lookup g = some o → s'.lookup g = some o := by
    intro g o ho
    rw [lookup, h.blocks, List.lookup_cons]
    split
    · next he =>
      rw [beq_iff_eq.mp he, h.fresh] at ho
      cases ho
    · exact ho
  refine ⟨⟨?_, ?_⟩, ?_, ?_⟩
  · rw [h.asm]
    exact hem.tidy.resolved hres
  · rw [h.blocks, hlen]
    rintro b (_ | ⟨_, hb⟩)
    · exact hem.grown
    · exact Nat.le_trans (hs.settled.blocks b hb) hem.grown
  · intro q hq
    rw [hres.patched] at hq
    rcases List.mem_append.mp hq with hq | hq
    · rw [hem.patched] at hq
      exact (hs.leads q hq).imp rfl (hknown q.target)
    · have hled := hres.led q hq
      rw [leadKnown, Option.map_eq_some_iff] at hled
      obtain ⟨o, ho, hd⟩ := hled
      rw [Leads, ← hd]
      exact ho
  · intro _
    have hl : (e.run (s.asm, [])).2.1.Linked := by
      rcases hrun with ⟨j, hj⟩ | hl
      · rw [h.returned] at hj
        cases hj
      · exact hl (hs.linked h.healthy)
    exact hres.linked hem.tidy.segment hl

theorem Undone.sound {guest : GuestAddress} {e : Emission} {v : Verdict}
    (h : Undone guest e s v s') (hs : s.Sound history) : s'.Sound (.block guest e :: history) := by
  obtain ⟨-, hrun, -⟩ := e.run_emitting (w := (s.asm, [])) (.refl hs.settled.tidy)
  refine ⟨⟨h.discarded.tidy, ?_⟩, ?_, fun hf => h.linked ?_⟩
  · rw [h.blocks, h.discarded.offset]
    exact hs.settled.blocks
  · intro q hq
    rw [h.discarded.patched] at hq
    refine (hs.leads q (List.mem_filter.mp hq).1).imp rfl fun o ho => ?_
    rw [lookup, h.blocks]
    exact ho
  · rcases hrun with ⟨j, hj⟩ | hl
    · rw [h.failed, hj] at hf
      cases hf
    · exact hl (hs.linked h.healthy)

/-! ## Other calls -/

/-- The code that loads the state base on a host, and whether it can be loaded. -/
def loading (m : AddressingMode) : List UInt8 × Except Error Unit :=
  match m with
  | .absolute => ([], .ok ())
  | .baseRelative base value =>
    Request.output m {
      op := .mov, width := 64
      dst := .reg (.gpr base.val), src := .imm value.toInt64 64 }

theorem loadStateBase_ensures {a : Assembler} (ha : a.Tidy) :
    Ensures Assembler.loadStateBase a
      (fun v a' => v = (loading a.mode).2 ∧ Assembler.Wrote (loading a.mode).1 a a' ∧
        (a.Linked → a'.Linked))
      (fun f a' => Assembler.Broke f a a') := by
  refine .bind (.get ?_)
  cases hm : a.mode with
  | absolute => exact .pure ⟨rfl, .refl ha, id⟩
  | baseRelative base value =>
    have he := Assembler.encode_ensures ha {
      op := .mov, width := 64
      dst := .reg (.gpr base.val), src := .imm value.toInt64 64 }
    rw [hm] at he
    exact he

theorem prologue_outcome (hs : s.Settled) (r : Registry) :
    (∃ a x, Shared.prologue ⟨s, r⟩ = .ok (s.asm.offset, (loading s.asm.mode).2) x ∧
      x.session.core = ⟨s.config, a, s.blocks, s.failed⟩ ∧
      Assembler.Wrote (loading s.asm.mode).1 s.asm a ∧ (s.asm.Linked → a.Linked)) ∨
    ∃ f a, Assembler.loadStateBase s.asm = .error f a ∧
      (Action.prologue.apply ⟨s, r⟩).1 = f.verdict ∧
      (Action.prologue.apply ⟨s, r⟩).2.session.core =
        ⟨s.config, a, s.blocks, f.failure.or s.failed⟩ ∧ Assembler.Broke f s.asm a := by
  have hx := loadStateBase_ensures hs.tidy
  unfold Ensures at hx
  cases hr : Assembler.loadStateBase s.asm with
  | ok v a =>
    simp only [hr] at hx
    obtain ⟨rfl, hw, hl⟩ := hx
    have hplain : plain Assembler.loadStateBase (s.asm, ()) =
        .ok (loading s.asm.mode).2 (a, ()) := by
      simp only [plain, hr]
    refine .inl ⟨a, _, by simp only [Shared.prologue, run_ok hplain]; rfl, ?_, hw, hl⟩
    rw [Shared.core_observe, core_adopt]
  | error f a =>
    simp only [hr] at hx
    have hplain : plain Assembler.loadStateBase (s.asm, ()) = .error f (a, ()) := by
      simp only [plain, hr]
    obtain ⟨s', hrun, hcore⟩ := run_error hplain
    have happly : ∃ x, Action.prologue.apply ⟨s, r⟩ = (f.verdict, x) ∧
        x.session.core = s'.core := by
      simp only [Action.apply, Shared.prologue, hrun]
      cases f with
      | allocation e | jumpRange e => exact ⟨_, rfl, Shared.core_observe _⟩
      | misuse m => exact ⟨_, rfl, rfl⟩
      | outOfRange => exact ⟨_, rfl, rfl⟩
    obtain ⟨x, happly, hcore'⟩ := happly
    rw [happly]
    exact .inr ⟨f, a, rfl, rfl, hcore'.trans hcore, hx⟩

/-- A resolution moves sites between the tables, and never breaks off. If every site is in
reach of the destination, all that wait for it are moved. -/
theorem resolve_outcome (hs : s.Settled) (guest : GuestAddress) (host : HostAddress)
    (r : Registry) :
    ∃ n v x seg new, Shared.resolve guest host ⟨s, r⟩ = .ok (n, v) x ∧
      x.session.core = ⟨s.config, { s.asm with segment := seg }, s.blocks, s.failed⟩ ∧
      Resolved (leadOne guest (.outside host)) new s.asm.segment seg ∧
      ((∀ p ∈ s.pending, (p.leadingTo (.outside host)).unfailing = true) →
        new = ledOne guest (.outside host) s.pending ∧ n = new.length ∧ v = .ok () ∧
        seg.table.pending = s.pending.filter (·.target ≠ guest)) := by
  have hx := resolveTo_ensures hs.tidy.segment guest (.outside host)
  unfold Ensures at hx
  cases hr : resolveTo guest (.outside host) s.asm.segment with
  | error f seg => simp only [hr] at hx
  | ok v seg =>
    simp only [hr] at hx
    obtain ⟨new, hres, -, hall⟩ := hx
    obtain ⟨n, stop⟩ := v
    have hseg : Assembler.onSegment (Segment.resolve guest host) s.asm =
        .ok (n, stop) { s.asm with segment := seg } := by
      simp only [Assembler.onSegment, Segment.resolve, hr]
    refine ⟨_, _, _, seg, new, by simp only [Shared.resolve, hseg]; rfl, ?_, hres, fun hu => ?_⟩
    · rw [Shared.core_observe]
      split <;> rfl
    · obtain ⟨hnew, hret, hp⟩ := hall hu
      cases hret
      exact ⟨hnew, rfl, rfl, hp⟩

theorem tidy_empty {a : Assembler} (hb : a.segment.buffer.Sane) (hp : a.segment.table.pending = [])
    (hq : a.segment.table.patched = []) (hl : a.literals = []) : a.Tidy := by
  have hfields : a.segment.table.fields = [] := by rw [RelocationTable.fields, hp, hq]; rfl
  refine ⟨⟨⟨?_, ?_⟩, hb, ?_, ?_⟩, ?_, ?_, ?_, ?_⟩
  · rw [hfields]; exact .nil
  · simp [hfields]
  · rw [hp]; exact .nil
  · simp [hp]
  · simp [hp]
  · simp [hq]
  · rw [hl]; exact .nil
  · simp [hl, hfields]

theorem sound_empty (hb : s.asm.segment.buffer.Sane) (hp : s.pending = [])
    (hq : s.asm.segment.table.patched = []) (hl : s.asm.literals = []) (hblocks : s.blocks = []) :
    s.Sound history := by
  refine ⟨⟨tidy_empty hb hp hq hl, ?_⟩, ?_, fun _ => ?_⟩
  · simp [hblocks]
  · simp [hq]
  · simp [Assembler.Linked, Segment.Linked, hq]

theorem new_core {c : Config} {r r' : Registry} (h : Session.new c r = (.ok s, r')) :
    ∃ mode, c.addressing = .ok mode ∧ s.core = ⟨c, .new c.buffer mode, [], none⟩ := by
  unfold Session.new at h
  split at h
  · cases h
  · next mode hmode =>
    refine ⟨mode, hmode, ?_⟩
    split at h
    · cases h
      rfl
    · split at h <;> cases h
      rfl

theorem new_sound {c : Config} {r r' : Registry} (hc : c.buffer.Unused)
    (h : Session.new c r = (.ok s, r')) : s.Sound [] := by
  obtain ⟨mode, -, hcore⟩ := new_core h
  have ha : s.asm = .new c.buffer mode := congrArg Core.asm hcore
  refine sound_empty ?_ ?_ ?_ ?_ (congrArg Core.blocks hcore)
  · rw [ha]
    exact hc.sane
  · rw [pending, ha]
    rfl
  · rw [ha]
    rfl
  · rw [ha]
    rfl

theorem Sound.wrote {act : Action} {a : Assembler} {chunk : List UInt8}
    {failed : Option JumpRange} (hs : s.Sound history) (ha : act.isReset = false)
    (hcore : s'.core = ⟨s.config, a, s.blocks, failed⟩) (hw : Assembler.Wrote chunk s.asm a)
    (hfailed : failed = none → s.failed = none ∧ (s.asm.Linked → a.Linked)) :
    s'.Sound (act :: history) := by
  have hasm : s'.asm = a := congrArg Core.asm hcore
  have hblocks : s'.blocks = s.blocks := congrArg Core.blocks hcore
  refine ⟨⟨?_, ?_⟩, ?_, fun hf => ?_⟩
  · rw [hasm]
    exact hw.tidy hs.settled.tidy
  · rw [hasm, hblocks, hw.offset]
    intro b hb
    exact Nat.le_add_right_of_le (hs.settled.blocks b hb)
  · rw [hasm, hw.table]
    intro q hq
    refine (hs.leads q hq).imp ha fun o ho => ?_
    rw [lookup, hblocks]
    exact ho
  · rw [show s'.failed = failed from congrArg Core.failed hcore] at hf
    obtain ⟨hf, hl⟩ := hfailed hf
    rw [hasm]
    exact hl (hs.linked hf)

theorem Sound.resolved {guest : GuestAddress} {host : HostAddress} {seg : Segment}
    {new : List Patched} (hs : s.Sound history)
    (hcore : s'.core = ⟨s.config, { s.asm with segment := seg }, s.blocks, s.failed⟩)
    (hres : Resolved (leadOne guest (.outside host)) new s.asm.segment seg) :
    s'.Sound (.resolve guest host :: history) := by
  obtain ⟨hasm, hblocks, hfailed⟩ := core_eq hcore
  refine ⟨⟨?_, ?_⟩, ?_, fun hf => ?_⟩
  · rw [hasm]
    exact hs.settled.tidy.resolved hres
  · rw [hasm, hblocks]
    intro b hb
    exact Nat.le_trans (hs.settled.blocks b hb) (Nat.le_of_eq hres.length.symm)
  · rw [hasm]
    intro q hq
    rcases List.mem_append.mp (hres.patched ▸ hq) with hq | hq
    · refine (hs.leads q hq).imp rfl fun o ho => ?_
      rw [lookup, hblocks]
      exact ho
    · have hled := hres.led q hq
      unfold leadOne at hled
      split at hled
      · next htarget =>
        rw [Leads, ← Option.some.inj hled, htarget]
        exact List.mem_cons_self
      · cases hled
  · rw [hasm]
    exact hres.linked hs.settled.tidy.segment (hs.linked (hfailed ▸ hf))

/-! ## Runs -/

/-- One call keeps the invariant. Only the emission of a block can complain of a site, and
only as a panic of its own. -/
theorem Sound.step (hs : s.Sound history) (act : Action) (r : Registry) :
    Sound (act :: history) (act.apply ⟨s, r⟩).2.session ∧
      ∀ f, (act.apply ⟨s, r⟩).1 = .panicked f → f.blamesSites = true →
        ∃ guest e, act = .block guest e ∧ (e.run (s.asm, [])).1 = .panicked f := by
  cases act with
  | block guest e =>
    have hout := block_outcome (x := ⟨s, r⟩) hs.settled guest e
    generalize ((Action.block guest e).apply ⟨s, r⟩).1 = v at hout ⊢
    generalize ((Action.block guest e).apply ⟨s, r⟩).2.session = s' at hout ⊢
    cases hout with
    | refused err h =>
      refine ⟨⟨hs.settled, fun q hq => (hs.leads q hq).imp rfl fun _ => id, hs.linked⟩, ?_⟩
      intro f hf
      cases hf
    | translated h =>
      refine ⟨h.sound hs, fun f hf hb => ?_⟩
      rcases h.verdict with rfl | ⟨rfl, -⟩
      · cases hf
      · cases hf
        cases hb
    | undone h =>
      refine ⟨h.sound hs, fun f hf hb => ?_⟩
      rw [h.verdict] at hf
      rcases Ending.of_verdict_panicked hf with hend | hend
      · exact ⟨guest, e, rfl, hend⟩
      · obtain ⟨-, -, hblame⟩ := e.run_emitting (w := (s.asm, [])) (.refl hs.settled.tidy)
        rw [hblame f hend] at hb
        cases hb
  | prologue =>
    rcases prologue_outcome hs.settled r with
      ⟨a, x, hx, hcore, hw, hl⟩ | ⟨f, a, -, hv, hcore, hb⟩
    · simp only [Action.apply, hx, verdict, id]
      exact ⟨hs.wrote rfl hcore hw fun hf => ⟨hf, hl⟩,
        fun f hf => absurd hf (Verdict.ofResult_ne_panicked _ f)⟩
    · obtain ⟨chunk, hw⟩ := hb.wrote
      refine ⟨hs.wrote rfl hcore hw fun hf => ?_, fun g hg hblame => ?_⟩
      · refine ⟨(Option.or_eq_none_iff.mp hf).2, hb.linked.resolve_left ?_⟩
        rintro ⟨j, rfl⟩
        cases hf
      · rw [Fault.of_verdict_panicked (hv.symm.trans hg), hb.blame] at hblame
        cases hblame
  | resolve guest host =>
    obtain ⟨n, v, x, seg, new, hx, hcore, hres, -⟩ := resolve_outcome hs.settled guest host r
    simp only [Action.apply, hx, verdict, id]
    exact ⟨hs.resolved hcore hres, fun f hf => absurd hf (Verdict.ofResult_ne_panicked v f)⟩
  | reset =>
    have hsane := hs.settled.tidy.segment.sane
    refine ⟨sound_empty ⟨Nat.zero_le _, hsane.based, hsane.supply⟩ rfl rfl rfl rfl, ?_⟩
    intro f hf
    cases hf

end Session

/-- Every call of a run keeps the invariant that a new session has. -/
theorem Reached.sound {history : List Action} {s : Session} (h : Reached history s) :
    s.Sound history := by
  induction h with
  | new unused made => exact Session.new_sound unused made
  | step _ act r ih => exact (ih.step act r).1

end HostCode
