import HostCode.Proofs.Session.Completion

/-! # The figures of a session

How often memory was replaced, how many sites were recorded and how many were patched: no call
takes any of it back, and each call adds what has happened in it. Only the number of blocks
starts over with a reset.
-/

namespace HostCode

open CodeBuffer Assembler

/-! ## Replaced memory -/

theorem CodeBuffer.patch_grows {b b' : CodeBuffer} {offset : Int} {chunk : List UInt8}
    (h : b.patch offset chunk = .ok b') : b'.grows = b.grows := by
  unfold patch at h
  split at h
  · cases h
    rfl
  · cases h

theorem CodeBuffer.reserve_grows (b : CodeBuffer) (n : Nat) :
    b.grows ≤ (b.reserve n).2.grows := by
  unfold reserve
  split
  · exact Nat.le_refl _
  · extract_lets size
    rcases b.supply.take size with ⟨_ | base, supply⟩
    · exact Nat.le_refl _
    · dsimp only
      split <;> exact Nat.le_succ _

theorem rebasePass_grows (ss : List Patched) (b : CodeBuffer) :
    (rebasePass b ss).1.grows = b.grows := by
  induction ss generalizing b with
  | nil => rfl
  | cons s ss ih =>
    unfold rebasePass
    split
    · exact ih b
    · unfold link
      split
      · next h =>
        split at h
        · cases h
        · split at h
          · next hp =>
            cases h
            rw [ih, patch_grows hp]
          · cases h
      · rfl
      · rfl

def Assembler.grows (a : Assembler) : Nat := a.segment.buffer.grows

/-- Whatever comes of the attempt, it counts on from where the count was. -/
def CountsOn {α : Type} (x : Attempt Assembler α) : Prop :=
  ∀ a, Ensures x a (fun _ a' => a.grows ≤ a'.grows) (fun _ a' => a.grows ≤ a'.grows)

namespace CountsOn

variable {α β : Type} {x : Attempt Assembler α}

theorem pure (v : α) : CountsOn (Pure.pure v : Attempt Assembler α) := fun _ => Nat.le_refl _

theorem throw (f : Fault) : CountsOn (throw f : Attempt Assembler α) := fun _ => Nat.le_refl _

theorem get : CountsOn (MonadState.get : Attempt Assembler Assembler) := fun _ => Nat.le_refl _

theorem modify {t : Assembler → Assembler} (h : ∀ a, (t a).grows = a.grows) :
    CountsOn (modify t : Attempt Assembler PUnit) := fun a => Nat.le_of_eq (h a).symm

theorem bind {k : α → Attempt Assembler β} (hx : CountsOn x) (hk : ∀ v, CountsOn (k v)) :
    CountsOn (x >>= k) := by
  intro a
  have ha := hx a
  refine .bind ?_
  unfold Ensures at ha ⊢
  cases h : x a with
  | error f a' =>
    simp only [h] at ha ⊢
    exact ha
  | ok v a' =>
    simp only [h] at ha ⊢
    exact (hk v a').imp (fun _ _ => Nat.le_trans ha) fun _ _ => Nat.le_trans ha

theorem append (chunk : List UInt8) : CountsOn (Assembler.append chunk) := by
  intro a
  have hr := a.segment.buffer.reserve_grows chunk.length
  unfold Ensures Assembler.append onSegment Segment.append
  generalize a.segment.buffer.reserve chunk.length = out at hr ⊢
  rcases out with ⟨_ | _ | m, b⟩
  · exact hr
  · exact hr
  · have hp := rebasePass_grows a.segment.table.patched b
    dsimp only
    generalize rebasePass b a.segment.table.patched = pass at hp ⊢
    rcases pass with ⟨b', _ | f⟩
    · exact Nat.le_trans hr (Nat.le_of_eq hp.symm)
    · exact Nat.le_trans hr (Nat.le_of_eq hp.symm)

theorem patch (offset : Int) (chunk : List UInt8) :
    CountsOn (onSegment (Segment.patch offset chunk)) := by
  intro a
  unfold Ensures onSegment Segment.patch
  cases hp : a.segment.buffer.patch offset chunk with
  | error f => exact Nat.le_refl _
  | ok b => exact Nat.le_of_eq (patch_grows hp).symm

theorem record (site : Int) (target : GuestAddress) (kind : SiteKind) :
    CountsOn (onSegment (Segment.record site target kind)) := by
  intro a
  unfold Ensures onSegment Segment.record
  by_cases hin : 0 ≤ site ∧ site + kind.size ≤ a.segment.length
  · by_cases hzero : (a.segment.buffer.slice site.toNat kind.size).all (· == 0)
    · simp only [if_pos hin, if_pos hzero]
      exact Nat.le_refl _
    · simp only [if_pos hin, if_neg hzero]
      exact Nat.le_refl _
  · by_cases hlimit : site + kind.size < offsetLimit
    · simp only [if_neg hin, if_pos hlimit]
      exact Nat.le_refl _
    · simp only [if_neg hin, if_neg hlimit]
      exact Nat.le_refl _

theorem check {r : Except Misuse α} : CountsOn (Assembler.check r) := by
  cases r with
  | ok v => exact .pure v
  | error m => exact .throw _

theorem forM_append (chunks : List (List UInt8)) : CountsOn (chunks.forM Assembler.append) := by
  induction chunks with
  | nil => exact .pure _
  | cons c cs ih => exact .bind (.append c) fun _ => ih

theorem encode (r : Request) : CountsOn (Assembler.encode r) := by
  refine .bind .get fun a => ?_
  split
  · exact .pure _
  · exact .pure _
  · exact .bind (.forM_append _) fun _ => .pure _

theorem jumpShort (c : Cond) (rel : Int8) : CountsOn (Assembler.jumpShort c rel) :=
  .bind .check fun _ => .bind (.append _) fun _ => .append _

theorem jumpNear (c : Cond) (rel : Int32) : CountsOn (Assembler.jumpNear c rel) :=
  .bind .check fun _ => .bind (.append _) fun _ => .append _

theorem jumpForward (c : Cond) (short : Bool) : CountsOn (Assembler.jumpForward c short) := by
  unfold Assembler.jumpForward
  split
  · exact .bind (.jumpShort c 0) fun _ => .bind .get fun _ => .pure _
  · exact .bind (.jumpNear c 0) fun _ => .bind .get fun _ => .pure _

theorem setJumpTarget (j : Jump) : CountsOn (Assembler.setJumpTarget j) := by
  refine .bind .get fun a => ?_
  dsimp only
  split
  · split
    · exact .bind (.patch _ _) fun _ => .pure _
    · exact .pure _
  · exact .bind (.patch _ _) fun _ => .pure _

theorem jumpBackward (c : Cond) (offset : Int) : CountsOn (Assembler.jumpBackward c offset) := by
  refine .bind .get fun a => ?_
  have hjump : CountsOn (if fitsByte (offset - (a.offset + 2)) then
      Assembler.jumpShort c (.ofInt (offset - (a.offset + 2)))
    else Assembler.jumpNear c
      (.ofInt (offset - (a.offset + (if c = .always then 5 else 6 : Nat))))) := by
    split
    · exact .jumpShort c _
    · exact .jumpNear c _
  dsimp only
  split
  · exact .bind (.throw _) fun _ => hjump
  · exact hjump

theorem jumpToGuest (target : GuestAddress) : CountsOn (Assembler.jumpToGuest target) := by
  have hlast : ∀ kind, CountsOn (recordLast target kind) := fun kind =>
    .bind .get fun _ => .record _ _ _
  refine .bind .get fun a => ?_
  split
  · exact .bind (.append _) fun _ => .bind .get fun _ => .bind (.append _) fun _ =>
      .bind (.modify fun _ => rfl) fun _ => hlast _
  · exact .bind (.jumpNear _ _) fun _ => hlast _

theorem branchToGuest (c : Cond) (target : GuestAddress) :
    CountsOn (Assembler.branchToGuest c target) := by
  cases c with
  | always => exact .jumpToGuest target
  | unnamed code => exact .throw _
  | flag f =>
    refine .bind .get fun a => ?_
    split
    · exact .bind (.jumpShort _ _) fun _ => .jumpToGuest target
    · exact .bind (.jumpNear _ _) fun _ => .bind .get fun _ => .record _ _ _

theorem loadStateBase : CountsOn Assembler.loadStateBase := by
  refine .bind .get fun a => ?_
  split
  · exact .pure _
  · exact .encode _

end CountsOn

theorem Call.plain_grows {x : Attempt Assembler (Except Error Unit)} (h : CountsOn x)
    (w : Writing) : Ensures (Call.plain x) w (fun _ w' => w.1.grows ≤ w'.1.grows)
      (fun _ w' => w.1.grows ≤ w'.1.grows) := by
  obtain ⟨a, labels⟩ := w
  have ha := h a
  unfold Ensures at ha
  unfold Ensures plain
  cases hx : x a <;> simp only [hx] at ha ⊢ <;> exact ha

theorem Call.run_grows (c : Call) (w : Writing) :
    Ensures c.run w (fun _ w' => w.1.grows ≤ w'.1.grows) (fun _ w' => w.1.grows ≤ w'.1.grows) := by
  cases c with
  | encode r => exact plain_grows (.encode r) w
  | append chunk => exact plain_grows (.bind (.append chunk) fun _ => .pure _) w
  | jumpShort c rel => exact plain_grows (.bind (.jumpShort c rel) fun _ => .pure _) w
  | jumpNear c rel => exact plain_grows (.bind (.jumpNear c rel) fun _ => .pure _) w
  | jumpBackward c offset => exact plain_grows (.bind (.jumpBackward c offset) fun _ => .pure _) w
  | jumpForward c short =>
    obtain ⟨a, labels⟩ := w
    have ha := CountsOn.jumpForward c short a
    unfold Ensures at ha
    unfold Ensures run
    cases hx : Assembler.jumpForward c short a <;> simp only [hx] at ha ⊢ <;> exact ha
  | setJumpTarget label =>
    obtain ⟨a, labels⟩ := w
    cases hj : labels[label]? with
    | none =>
      simp only [Ensures, run, hj]
      exact Nat.le_refl _
    | some j =>
      have hset := plain_grows (.setJumpTarget j) (a, labels)
      simp only [Ensures, run, hj] at hset ⊢
      exact hset
  | jumpToGuest target => exact plain_grows (.bind (.jumpToGuest target) fun _ => .pure _) w
  | branchToGuest c target => exact plain_grows (.bind (.branchToGuest c target) fun _ => .pure _) w

theorem Emission.run_grows (e : Emission) (w : Writing) : w.1.grows ≤ (e.run w).2.1.grows := by
  induction e generalizing w with
  | done r => exact Nat.le_refl _
  | panic f => exact Nat.le_refl _
  | look next ih => exact ih w.1 w
  | call c next ih =>
    have hc := c.run_grows w
    unfold Ensures at hc
    rw [run]
    cases hx : c.run w with
    | ok r w' =>
      simp only [hx] at hc ⊢
      exact Nat.le_trans hc (ih r w')
    | error f w' =>
      simp only [hx] at hc ⊢
      exact hc

theorem Assembler.Emitting.truncate_figures {start a a' : Assembler} {labels : List Jump}
    (h : Emitting start labels a) (hs : start.Tidy)
    (ht : truncate start.offset a = .ok () a') :
    a'.grows = a.grows ∧ a'.segment.table.recorded = a.segment.table.recorded ∧
      a'.segment.table.resolved = a.segment.table.resolved := by
  obtain ⟨s₁, s', h₁, h₂, htrunc⟩ :=
    Segment.exists_truncated h.tidy.segment h.grown (h.boundary hs)
  rw [truncate_eq h₁ h₂] at ht
  cases ht
  have hgrows : s'.buffer.grows = a.segment.buffer.grows := by rw [htrunc.rest]
  refine ⟨hgrows, ?_⟩
  have htable : s'.table = s₁.table := by
    unfold Segment.truncateBuffer at h₂
    split at h₂ <;> cases h₂
    rfl
  unfold Segment.truncateSites at h₁
  dsimp only at h₁ ⊢
  rw [htable]
  split at h₁ <;> cases h₁
  exact ⟨rfl, rfl⟩

/-! ## The meter is the session's own -/

namespace Session

variable {s s' : Session} {history : List Action} {guest : GuestAddress} {e : Emission}

theorem adopt_meter (a : Assembler) (s : Session) : (s.adopt a).meter = s.meter := by
  have hlog : ∀ (ms : List Move) (t : Session),
      (ms.foldl (fun s m => s.log .buffer Log.Level.debug "code buffer moved"
        [.text "from" (Numeral.hex m.source.toNat), .text "to" (Numeral.hex m.target.toNat),
          .size m.capacity]) t).meter = t.meter := by
    intro ms
    induction ms with
    | nil => exact fun _ => rfl
    | cons m ms ih => exact fun t => ih _
  exact hlog _ _

theorem run_meter {ω α : Type} (x : Attempt (Assembler × ω) (Except Error α)) (notes : ω) :
    (s.run x notes).1.meter = s.meter := by
  unfold run
  split <;> exact adopt_meter _ _

theorem translate_meter {ω : Type} (guest : GuestAddress) (emit : Emitter ω) (notes : ω) :
    (s.translate guest emit notes).1.meter = s.meter := by
  have hrun := s.run_meter emit notes
  unfold translate
  split
  · next h => rwa [h] at hrun
  · next h => rwa [h] at hrun
  · next s₁ _ h =>
    rw [h] at hrun
    have hpatch := s₁.run_meter s₁.patchKnown ()
    split
    · next h' => rw [h'] at hpatch; exact hpatch.trans hrun
    · next h' => rw [h'] at hpatch; exact hpatch.trans hrun

theorem rollback_meter (guest : GuestAddress) (offset : Nat) :
    (s.rollback guest offset).1.meter = s.meter := by
  unfold rollback
  dsimp only
  split <;> rfl

theorem report_meter (guest : GuestAddress) (offset grows patched : Nat) :
    (s.report guest offset grows patched).1.meter = s.meter := by
  unfold report
  extract_lets b s₁ s₂ s₃
  have h₁ : s₁.meter = s.meter := by unfold s₁; split <;> rfl
  have h₃ : s₃.meter = s.meter := by
    refine Eq.trans ?_ h₁
    unfold s₃
    split <;> rfl
  clear_value s₃
  split
  · split <;> exact h₃
  · exact h₃

/-- The metrics are brought up to date at the end of a block. One that was taken back has left
its assembler cut off where it began. -/
theorem block_observed (hs : s.Settled) (hf : s.failed = none) (hl : s.lookup guest = none)
    (r : Registry) :
    ∃ s₂, s₂.meter = s.meter ∧
      ((Action.block guest e).apply ⟨s, r⟩).2 = Shared.observe ⟨s₂, r⟩ ∧
      ((e.run (s.asm, [])).1 ≠ .returned (.ok ()) →
        truncate s.asm.offset (e.run (s.asm, [])).2.1 = .ok () s₂.asm) := by
  obtain ⟨hem, -, -⟩ := e.run_emitting (w := (s.asm, [])) (.refl hs.tidy)
  have hmeter := (s.opened guest).translate_meter guest e.emitter []
  by_cases hret : (e.run (s.asm, [])).1 = .returned (.ok ())
  · obtain ⟨s₁, notes, n, ht, -⟩ := translate_returned guest (s.opened guest) hret
      (settled_opened hs guest hem.tidy hem.grown)
    rw [ht] at hmeter
    have hreport := s₁.report_meter guest s.asm.offset s.asm.segment.buffer.grows n
    rcases hrep : s₁.report guest s.asm.offset s.asm.segment.buffer.grows n with ⟨s₂, complaint⟩
    rw [hrep] at hreport
    refine ⟨s₂, hreport.trans hmeter, ?_, fun hne => absurd hret hne⟩
    simp only [opened] at ht
    simp only [Action.apply, Shared.block, hf, hl, ht, hrep]
    cases complaint <;> rfl
  · obtain ⟨s₁, notes, v, ht, hcore, hv⟩ := translate_stopped guest (s.opened guest) hret
    obtain ⟨a, htrunc, -⟩ := hem.exists_discarded hs.tidy
    have hroll : s₁.asm.truncate s.asm.offset = .ok () a := by
      rw [show s₁.asm = (e.run (s.asm, [])).2.1 from congrArg Core.asm hcore]
      exact htrunc
    obtain ⟨s₂, hback, hcore₂⟩ := rollback_eq guest hroll
    have hasm : s₂.asm = a := congrArg Core.asm hcore₂
    have hrollback := s₁.rollback_meter guest s.asm.offset
    rw [ht] at hmeter
    rw [hback] at hrollback
    simp only [opened] at ht
    rcases hv with ⟨err, rfl, -⟩ | ⟨f, rfl, -⟩
    · refine ⟨s₂.log .block Log.Level.error "block failed" [.guest guest, .text "err" err.message],
        hrollback.trans hmeter, ?_, fun _ => ?_⟩
      · simp only [Action.apply, Shared.block, hf, hl, ht, hback]
        rfl
      · exact htrunc.trans (congrArg _ hasm.symm)
    · refine ⟨s₂, hrollback.trans hmeter, ?_, fun _ => ?_⟩
      · simp only [Action.apply, Shared.block, hf, hl, ht, hback]
        rfl
      · exact htrunc.trans (congrArg _ hasm.symm)

theorem prologue_observed (r : Registry)
    (h : ∀ f, (Action.prologue.apply ⟨s, r⟩).1 ≠ .panicked f) :
    ∃ s₂, s₂.meter = s.meter ∧ (Action.prologue.apply ⟨s, r⟩).2 = Shared.observe ⟨s₂, r⟩ := by
  have hmeter := s.run_meter (plain Assembler.loadStateBase) ()
  simp only [Action.apply, Shared.prologue] at h ⊢
  rcases hrun : s.run (plain Assembler.loadStateBase) () with ⟨s₂, notes, f | v⟩
  · rw [hrun] at h
    exact absurd rfl (h f)
  · rw [hrun] at hmeter
    exact ⟨s₂, hmeter, rfl⟩

theorem resolve_observed (hs : s.Settled) (guest : GuestAddress) (host : HostAddress)
    (r : Registry) :
    ∃ s₂, s₂.meter = s.meter ∧
      ((Action.resolve guest host).apply ⟨s, r⟩).2 = Shared.observe ⟨s₂, r⟩ := by
  obtain ⟨n, v, x, -, -, hx, -⟩ := resolve_outcome hs guest host r
  simp only [Action.apply, hx, verdict, id]
  unfold Shared.resolve at hx
  split at hx
  · cases hx
  · cases hx
    refine ⟨_, ?_, rfl⟩
    split <;> rfl

/-! ## What a call adds -/

end Session

def Action.isBlock : Action → Bool
  | block .. => true
  | _ => false

/-- A block is refused without a look at its code. -/
def Session.Refuses (s : Session) (guest : GuestAddress) : Prop :=
  s.failed.isSome ∨ (s.lookup guest).isSome

instance (s : Session) (guest : GuestAddress) : Decidable (s.Refuses guest) :=
  inferInstanceAs (Decidable (_ ∨ _))

def Action.branches (s : Session) : Action → List Branch
  | block guest e => if s.Refuses guest then [] else e.branches (s.asm, [])
  | _ => []

@[ext] structure Tally where
  /-- Blocks that were translated. -/
  translated : Nat := 0
  /-- Memory that was replaced. -/
  grown : Nat := 0
  /-- Jump sites that were recorded, and those that were patched. -/
  recorded : Nat := 0
  patched : Nat := 0
  deriving DecidableEq, Repr

/-- What happens in a call that takes `s` to `s'`: a block that returns was translated, each
jump to a guest address was recorded, and the sites that are new in the table were patched. -/
def Action.tally (act : Action) (s : Session) (v : Verdict) (s' : Session) : Tally where
  translated := if act.isBlock ∧ v = .returned then 1 else 0
  grown := s'.asm.grows - s.asm.grows
  recorded := (act.branches s).length
  patched := s'.asm.segment.table.patched.length - s.asm.segment.table.patched.length

structure Session.Advances (s s' : Session) (t : Tally) : Prop where
  grown : s'.asm.grows = s.asm.grows + t.grown
  recorded : s'.asm.segment.table.recorded = s.asm.segment.table.recorded + t.recorded
  patched : s'.asm.segment.table.resolved = s.asm.segment.table.resolved + t.patched

namespace Session

variable {s s' : Session} {history : List Action} {guest : GuestAddress} {e : Emission}
  {v : Verdict}

theorem advances_of {act : Action} (hgrown : s.asm.grows ≤ s'.asm.grows)
    (hrecorded : s'.asm.segment.table.recorded =
      s.asm.segment.table.recorded + (act.branches s).length)
    (hpatched : s'.asm.segment.table.resolved = s.asm.segment.table.resolved +
      (s'.asm.segment.table.patched.length - s.asm.segment.table.patched.length)) :
    s.Advances s' (act.tally s v s') :=
  ⟨(Nat.add_sub_of_le hgrown).symm, hrecorded, hpatched⟩

theorem branches_of_fresh (hf : s.failed = none) (hl : s.lookup guest = none) :
    (Action.block guest e).branches s = e.branches (s.asm, []) := by
  rw [Action.branches, if_neg]
  rintro (h | h)
  · rw [hf] at h
    cases h
  · rw [hl] at h
    cases h

theorem Translated.advances (h : Translated guest e s v s') (hs : s.Settled) :
    s.Advances s' ((Action.block guest e).tally s v s') := by
  have htable := e.run_table (w := (s.asm, [])) (.refl hs.tidy)
  have hres := h.resolved
  have hgrows : s'.asm.grows = (e.run (s.asm, [])).2.1.grows := by
    rw [Assembler.grows, hres.rewrites.rest]
    rfl
  refine advances_of ?_ ?_ ?_
  · rw [hgrows]
    exact e.run_grows (s.asm, [])
  · rw [hres.recorded, htable, branches_of_fresh h.healthy h.fresh]
    simp only [RelocationTable.adding, List.length_map]
  · rw [hres.resolved, hres.patched, htable]
    simp only [RelocationTable.adding, List.length_append, Nat.add_sub_cancel_left]

theorem Undone.advances (h : Undone guest e s v s') (hs : s.Settled)
    (ht : truncate s.asm.offset (e.run (s.asm, [])).2.1 = .ok () s'.asm) :
    s.Advances s' ((Action.block guest e).tally s v s') := by
  obtain ⟨hem, -, -⟩ := e.run_emitting (w := (s.asm, [])) (.refl hs.tidy)
  have htable := e.run_table (w := (s.asm, [])) (.refl hs.tidy)
  obtain ⟨hgrows, hrecorded, hresolved⟩ := hem.truncate_figures hs.tidy ht
  have hfewer : s'.asm.segment.table.patched.length ≤ s.asm.segment.table.patched.length := by
    rw [h.discarded.patched]
    exact List.length_filter_le _ _
  refine advances_of ?_ ?_ ?_
  · rw [hgrows]
    exact e.run_grows (s.asm, [])
  · rw [hrecorded, htable, branches_of_fresh h.healthy h.fresh]
    simp only [RelocationTable.adding, List.length_map]
  · rw [hresolved, htable, Nat.sub_eq_zero_of_le hfewer]
    rfl

theorem prologue_advances (hs : s.Settled) (r : Registry) :
    s.Advances (Action.prologue.apply ⟨s, r⟩).2.session (Action.prologue.tally s
      (Action.prologue.apply ⟨s, r⟩).1 (Action.prologue.apply ⟨s, r⟩).2.session) := by
  have hgrows := CountsOn.loadStateBase s.asm
  have hload := loadStateBase_ensures hs.tidy
  have hasm : ∀ {v : Verdict} {a : Assembler} {s' : Session}, s'.asm = a → s.asm.grows ≤ a.grows →
      a.segment.table = s.asm.segment.table → s.Advances s' (Action.prologue.tally s v s') := by
    rintro v a s' rfl hle htable
    exact advances_of hle (by rw [htable]; rfl) (by rw [htable, Nat.sub_self]; rfl)
  unfold Ensures at hgrows hload
  cases hr : Assembler.loadStateBase s.asm with
  | ok v a =>
    simp only [hr] at hgrows hload
    have hplain : plain Assembler.loadStateBase (s.asm, ()) = .ok v (a, ()) := by
      simp only [plain, hr]
    simp only [Action.apply, Shared.prologue, run_ok hplain, verdict, id]
    refine hasm ?_ hgrows hload.2.1.table
    exact congrArg Core.asm ((Shared.core_observe ⟨s.adopt a, r⟩).trans (core_adopt a s))
  | error f a =>
    simp only [hr] at hgrows hload
    obtain ⟨chunk, hw⟩ := hload.wrote
    have hplain : plain Assembler.loadStateBase (s.asm, ()) = .error f (a, ()) := by
      simp only [plain, hr]
    obtain ⟨s', hrun, hcore⟩ := run_error hplain
    simp only [Action.apply, Shared.prologue, hrun]
    refine hasm ?_ hgrows hw.table
    cases f with
    | allocation e | jumpRange e =>
      exact congrArg Core.asm ((Shared.core_observe ⟨s', r⟩).trans hcore)
    | misuse m | outOfRange => exact congrArg Core.asm hcore

theorem Sound.advances (hs : s.Sound history) (act : Action) (r : Registry) :
    s.Advances (act.apply ⟨s, r⟩).2.session
      (act.tally s (act.apply ⟨s, r⟩).1 (act.apply ⟨s, r⟩).2.session) := by
  cases act with
  | block guest e =>
    have hout := block_outcome (x := ⟨s, r⟩) hs.settled guest e
    have hcut : ∀ (hf : s.failed = none) (hl : s.lookup guest = none),
        (e.run (s.asm, [])).1 ≠ .returned (.ok ()) →
          truncate s.asm.offset (e.run (s.asm, [])).2.1 =
            .ok () ((Action.block guest e).apply ⟨s, r⟩).2.session.asm := by
      intro hf hl hstop
      obtain ⟨s₂, -, hobs, hcut⟩ := block_observed (e := e) hs.settled hf hl r
      have hasm : (Shared.observe ⟨s₂, r⟩).session.asm = s₂.asm :=
        congrArg Core.asm (Shared.core_observe ⟨s₂, r⟩)
      rw [hobs, hasm]
      exact hcut hstop
    generalize ((Action.block guest e).apply ⟨s, r⟩).1 = v at hout ⊢
    generalize ((Action.block guest e).apply ⟨s, r⟩).2.session = s' at hout hcut ⊢
    cases hout with
    | refused err h =>
      refine advances_of (Nat.le_refl _) ?_ ?_
      · rw [Action.branches, if_pos (show s.Refuses guest from h)]
        rfl
      · rw [Nat.sub_self]
        rfl
    | translated h => exact h.advances hs.settled
    | undone h => exact h.advances hs.settled (hcut h.healthy h.fresh h.stopped)
  | prologue => exact prologue_advances hs.settled r
  | resolve guest host =>
    obtain ⟨n, v, x, seg, new, hx, hcore, hres, -⟩ := resolve_outcome hs.settled guest host r
    obtain ⟨hasm, -, -⟩ := core_eq hcore
    simp only [Action.apply, hx, verdict, id]
    refine advances_of (Nat.le_of_eq ?_) ?_ ?_
    · rw [hasm, Assembler.grows, Assembler.grows, hres.rewrites.rest]
    · rw [hasm, hres.recorded]
      rfl
    · rw [hasm, hres.resolved, hres.patched, List.length_append, Nat.add_sub_cancel_left]
  | reset =>
    have hnone : (Action.reset.apply ⟨s, r⟩).2.session.asm.segment.table.patched = [] := rfl
    refine advances_of (Nat.le_refl _) rfl ?_
    rw [hnone, List.length_nil, Nat.zero_sub]
    rfl

/-- A block that returns is there afterwards. Nothing else adds a block, and only a reset
forgets any. -/
theorem Sound.step_blocks (hs : s.Sound history) (act : Action) (r : Registry)
    (hfits : (act.apply ⟨s, r⟩).2.session.asm.offset < offsetLimit) :
    (act.apply ⟨s, r⟩).2.session.blocks.length =
      if act.isReset then 0 else s.blocks.length +
        (act.tally s (act.apply ⟨s, r⟩).1 (act.apply ⟨s, r⟩).2.session).translated := by
  cases act with
  | block guest e =>
    have hout := block_outcome (x := ⟨s, r⟩) hs.settled guest e
    generalize ((Action.block guest e).apply ⟨s, r⟩).1 = v at hout ⊢
    generalize ((Action.block guest e).apply ⟨s, r⟩).2.session = s' at hout hfits ⊢
    cases hout with
    | refused err h => simp [Action.isReset, Action.tally]
    | translated h =>
      obtain rfl | ⟨-, hlimit⟩ := h.verdict
      · rw [h.blocks]
        simp [Action.isReset, Action.tally, Action.isBlock]
      · exact absurd hfits (Nat.not_lt_of_le hlimit)
    | undone h =>
      have hne : v ≠ .returned := by
        rw [h.verdict]
        exact fun he => h.stopped (Ending.of_verdict_returned he)
      rw [h.blocks]
      simp [Action.isReset, Action.tally, hne]
  | prologue =>
    have hblocks : (Action.prologue.apply ⟨s, r⟩).2.session.blocks = s.blocks := by
      rcases prologue_outcome hs.settled r with ⟨a, x, hx, hcore, -⟩ | ⟨f, a, -, -, hcore, -⟩
      · simp only [Action.apply, hx, verdict, id]
        exact congrArg Core.blocks hcore
      · exact congrArg Core.blocks hcore
    rw [hblocks]
    simp [Action.isReset, Action.tally, Action.isBlock]
  | resolve guest host =>
    obtain ⟨n, v, x, seg, new, hx, hcore, -⟩ := resolve_outcome hs.settled guest host r
    obtain ⟨-, hblocks, -⟩ := core_eq hcore
    simp only [Action.apply, hx, verdict, id]
    rw [hblocks]
    simp [Action.isReset, Action.tally, Action.isBlock]
  | reset => rfl

end Session

end HostCode
