import HostCode.Proofs.Session.Invariant

/-! # Blocks that fail

A block that fails is taken back. What is left is the session from before it, with one
exception: a jump to a block without code that ends where the failed block began. Its
destination cannot be told from the start of the failed block, and it waits again.
-/

namespace HostCode

open CodeBuffer Segment

/-- `s'` translates as `s` does: it has the same blocks, jumps and code. Only fields that
depend on the base may differ, and they lead to where they led. -/
structure Session.Untouched (s s' : Session) : Prop where
  lookup : ∀ guest, s'.lookup guest = s.lookup guest
  pending : s'.pending = s.pending
  patched : s'.asm.segment.table.patched = s.asm.segment.table.patched
  literals : s'.asm.literals = s.asm.literals
  length : s'.asm.offset = s.asm.offset
  bytes : ∀ i, (∀ f ∈ dependents s.asm.segment.table.patched, ¬ f.Covers i) →
    s'.asm.segment.buffer.bytes[i]? = s.asm.segment.buffer.bytes[i]?
  linked : s'.asm.Linked

namespace Session

variable {s s' : Session} {history : List Action} {guest : GuestAddress} {e : Emission}
  {v : Verdict}

theorem Untouched.refl (h : s.asm.Linked) : s.Untouched s :=
  ⟨fun _ => rfl, rfl, rfl, rfl, rfl, fun _ _ => rfl, h⟩

theorem Sound.patched_lt (h : s.Sound history) {q : Patched}
    (hq : q ∈ s.asm.segment.table.patched) : q.site < s.asm.offset :=
  Nat.lt_of_lt_of_le (Nat.lt_add_of_pos_right q.kind.size_pos)
    (h.settled.tidy.segment.patched_inside hq)

/-- No destination lies behind the end of the code, so a site leads past it only to it. -/
theorem Sound.leadsPast_iff (h : s.Sound history) {q : Patched}
    (hq : q ∈ s.asm.segment.table.patched) :
    q.leadsPast s.asm.offset = true ↔ q.dest = .inside s.asm.offset := by
  have hlead := h.leads q hq
  unfold Leads at hlead
  unfold Patched.leadsPast
  cases hd : q.dest with
  | outside host => simp
  | inside o =>
    simp only [hd] at hlead
    have hle : o ≤ s.asm.offset := h.settled.blocks _ (mem_of_lookup hlead)
    simp only [decide_eq_true_eq, Destination.inside.injEq]
    omega

theorem Sound.cleared_eq_nil (h : s.Sound history)
    (hnone : ∀ q ∈ s.asm.segment.table.patched, q.dest ≠ .inside s.asm.offset) :
    cleared s.asm.offset s.asm.segment.table.patched = [] := by
  apply List.filter_eq_nil_iff.mpr
  intro q hq hc
  simp only [Bool.and_eq_true] at hc
  exact hnone q hq ((h.leadsPast_iff hq).mp hc.2)

theorem Sound.retained_eq_iff (h : s.Sound history) :
    retained s.asm.offset s.asm.segment.table.patched = s.asm.segment.table.patched ↔
      ∀ q ∈ s.asm.segment.table.patched, q.dest ≠ .inside s.asm.offset := by
  rw [retained, List.filter_eq_self]
  constructor
  · intro hall q hq hd
    have hr := hall q hq
    rw [(h.leadsPast_iff hq).mpr hd] at hr
    simp at hr
  · intro hnone q hq
    have hpast : q.leadsPast s.asm.offset = false :=
      Bool.eq_false_iff.mpr fun hl => hnone q hq ((h.leadsPast_iff hq).mp hl)
    simp [hpast, h.patched_lt hq]

theorem Undone.restores_iff (h : Undone guest e s v s') (hs : s.Sound history)
    (hmove : ∀ j, (e.run (s.asm, [])).1 ≠ .broken (.jumpRange j)) :
    s.Untouched s' ↔ ∀ q ∈ s.asm.segment.table.patched, q.dest ≠ .inside s.asm.offset := by
  have hd := h.discarded
  constructor
  · intro hu
    rw [← hs.retained_eq_iff, ← hd.patched]
    exact hu.patched
  · intro hnone
    have hc := hs.cleared_eq_nil hnone
    refine ⟨fun g => ?_, ?_, ?_, hd.literals, hd.offset, fun i hi => ?_, h.linked ?_⟩
    · rw [lookup, lookup, h.blocks]
    · rw [pending, hd.pending]
      refine (reopenedAt_of_cleared_nil hs.settled.tidy.segment hc).trans ?_
      exact List.filter_eq_self.mpr fun p hp => decide_eq_true (hs.settled.tidy.pending_lt hp)
    · rw [hd.patched]
      exact hs.retained_eq_iff.mpr hnone
    · rcases Nat.lt_or_ge i s.asm.offset with hlt | hge
      · refine hd.old i hlt hi ?_
        simp [hc]
      · rw [Array.getElem?_eq_none hge, Array.getElem?_eq_none (Nat.le_trans ?_ hge)]
        exact Nat.le_of_eq hd.offset
    · obtain ⟨-, hrun, -⟩ := e.run_emitting (w := (s.asm, [])) (.refl hs.settled.tidy)
      rcases hrun with ⟨j, hj⟩ | hl
      · exact absurd hj (hmove j)
      · exact hl (hs.linked h.healthy)

end Session

/-- A block that returns an error or panics leaves no trace exactly if no jump leads to the
place where it began, which is that of an empty block there. A block that is there already is
refused, and leaves no trace either. A jump that a move put out of range is another matter, and
so is code with more bytes than there are offsets. -/
theorem Reached.untouched_iff {history : List Action} {s s' : Session} (h : Reached history s)
    (hf : s.failed = none) (guest : GuestAddress) (e : Emission) (r r' : Registry) {v : Verdict}
    (happly : (Action.block guest e).apply ⟨s, r⟩ = (v, ⟨s', r'⟩)) (hfail : v ≠ .returned)
    (hlen : s'.asm.offset < offsetLimit)
    (hmove : s.lookup guest = none → ∀ j, (e.run (s.asm, [])).1 ≠ .broken (.jumpRange j)) :
    s.Untouched s' ↔ (s.lookup guest).isSome ∨
      ∀ q ∈ s.asm.segment.table.patched, q.dest ≠ .inside s.asm.offset := by
  have hs := h.sound
  have hout := Session.block_outcome (x := ⟨s, r⟩) hs.settled guest e
  rw [happly] at hout
  cases hout with
  | refused err hwhy =>
    have hsome : (s.lookup guest).isSome = true := by
      rcases hwhy with hwhy | hwhy
      · rw [hf] at hwhy
        cases hwhy
      · exact hwhy
    exact iff_of_true (.refl (hs.linked hf)) (.inl hsome)
  | translated ht =>
    rcases ht.verdict with hv | ⟨-, hlimit⟩
    · exact absurd hv hfail
    · exact absurd hlen (Nat.not_lt_of_le hlimit)
  | undone hu =>
    rw [hu.restores_iff hs (hmove hu.fresh), hu.fresh]
    simp

/-- A jump leads to a block without code. When the next block fails, the jump waits again. -/
theorem touched_by_failed_block :
    ∃ s s' r', Config.twoPlaces.session [.block 2 (.done (.ok ())), .block 1 (.goto 2)] = some s ∧
      s.failed = none ∧
      (Action.block 3 .giveUp).apply ⟨s, {}⟩ =
        (.failed (.translating 3 (.other "no code")), ⟨s', r'⟩) ∧
      s.pending = [] ∧ s'.pending = [⟨6, 2, .abs64⟩] ∧ ¬ s.Untouched s' := by
  have hfacts : (Config.twoPlaces.session [.block 2 (.done (.ok ())), .block 1 (.goto 2)]).any
      (fun s => s.failed = none ∧
        ((Action.block 3 .giveUp).apply ⟨s, {}⟩).1 =
          .failed (.translating 3 (.other "no code")) ∧
        s.pending = [] ∧
        ((Action.block 3 .giveUp).apply ⟨s, {}⟩).2.session.pending = [⟨6, 2, .abs64⟩]) = true := by
    decide +kernel
  obtain ⟨s, hs, hfact⟩ := (Option.any_eq_true ..).mp hfacts
  obtain ⟨hf, hv, hp, hp'⟩ := of_decide_eq_true hfact
  refine ⟨s, _, _, hs, hf, Prod.ext hv rfl, hp, hp', fun hu => ?_⟩
  have hsame := hp'.symm.trans (hu.pending.trans hp)
  cases hsame

/-- The same blocks, with code in the second: the failure of the third leaves no trace. -/
theorem untouched_by_failed_block :
    ∃ s s' r', Config.twoPlaces.session [.block 2 (.raw [0xc3]), .block 1 (.goto 2)] = some s ∧
      s.failed = none ∧
      (Action.block 3 .giveUp).apply ⟨s, {}⟩ =
        (.failed (.translating 3 (.other "no code")), ⟨s', r'⟩) ∧
      s'.asm.offset < offsetLimit ∧
      (s.Untouched s' ↔ (s.lookup 3).isSome ∨
        ∀ q ∈ s.asm.segment.table.patched, q.dest ≠ .inside s.asm.offset) ∧
      s.asm.segment.table.patched ≠ [] ∧ s.Untouched s' := by
  have hfacts : (Config.twoPlaces.session [.block 2 (.raw [0xc3]), .block 1 (.goto 2)]).any
      (fun s => s.failed = none ∧
        ((Action.block 3 .giveUp).apply ⟨s, {}⟩).1 =
          .failed (.translating 3 (.other "no code")) ∧
        ((Action.block 3 .giveUp).apply ⟨s, {}⟩).2.session.asm.offset < offsetLimit ∧
        s.asm.segment.table.patched ≠ [] ∧
        ∀ q ∈ s.asm.segment.table.patched, q.dest ≠ .inside s.asm.offset) = true := by
    decide +kernel
  obtain ⟨s, hs, hfact⟩ := (Option.any_eq_true ..).mp hfacts
  obtain ⟨hf, hv, hlen, hpatched, hnone⟩ := of_decide_eq_true hfact
  have hiff := (Config.reached Config.twoPlaces_unused hs).untouched_iff hf 3
    .giveUp {} _ (Prod.ext hv rfl) nofun hlen (fun _ _ => nofun)
  exact ⟨s, _, _, hs, hf, Prod.ext hv rfl, hlen, hiff, hpatched, hiff.mpr (.inr hnone)⟩

end HostCode
