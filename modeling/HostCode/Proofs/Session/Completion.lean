import HostCode.Proofs.Session.Invariant

/-! # Blocks that are translated

When a block returns, every jump that has waited for it or for an earlier block leads there,
those of the block itself included, and the others wait in the order in which they were
written. Leading the jumps to their targets cannot fail, so a block fails only if its emission
does.
-/

namespace HostCode

open CodeBuffer Segment Assembler

/-! ## The jumps of an emission -/

def Emission.branches : Emission → Writing → List Branch
  | done _, _ | panic _, _ => []
  | look next, w => (next w.1).branches w
  | call c next, w =>
    match c.run w with
    | .ok r w' => c.branches w.1.offset ++ (next r).branches w'
    | .error _ _ => []

variable {start : Assembler} {w : Writing}

theorem Emission.run_table (e : Emission) (h : Emitting start w.2 w.1) :
    (e.run w).2.1.segment.table =
      w.1.segment.table.adding ((e.branches w).map (Branch.pending start.mode)) := by
  induction e generalizing w with
  | done r => exact (RelocationTable.adding_nil _).symm
  | panic f => exact (RelocationTable.adding_nil _).symm
  | look next ih => exact ih w.1 h
  | call c next ih =>
    rw [run, branches]
    rcases (c.run_does_of_emitting h).cases with
      ⟨eff, w', he, hx, happ⟩ | ⟨m, he, hx⟩ | ⟨f, a, hx, hb⟩ <;> simp only [hx]
    · have hfits := Call.effect_fits he
      rw [ih _ (h.applied hfits happ).1, happ.table hfits, RelocationTable.adding_adding,
        Call.effect_branches he, h.mode, List.map_append]
    · exact (RelocationTable.adding_nil _).symm
    · obtain ⟨chunk, hw⟩ := hb.wrote
      exact hw.table.trans (RelocationTable.adding_nil _).symm

/-- Why an emission from `start` has not come to its end: it did not want to, it broke a rule,
there was no memory, or a move put a jump out of range. -/
def Ending.Excused (start : Assembler) : Ending → Prop
  | returned r => ∃ err, r = .error err
  | panicked _ => True
  | broken f => (∃ m, f = .misuse m ∧ m.blamesSites = false) ∨ f.ofMemory = true ∨
      (∃ e, f = .jumpRange e) ∧ start.segment.Brittle

theorem Emission.run_excused (e : Emission) (h : Emitting start w.2 w.1)
    (hstop : (e.run w).1 ≠ .returned (.ok ())) : (e.run w).1.Excused start := by
  induction e generalizing w with
  | done r =>
    cases r with
    | ok u => exact absurd rfl hstop
    | error err => exact ⟨err, rfl⟩
  | panic f => trivial
  | look next ih => exact ih w.1 h hstop
  | call c next ih =>
    rw [run] at hstop ⊢
    rcases (c.run_does_of_emitting h).cases with
      ⟨eff, w', he, hx, happ⟩ | ⟨m, he, hx⟩ | ⟨f, a, hx, hb⟩ <;> simp only [hx] at hstop ⊢
    · exact ih _ (h.applied (Call.effect_fits he) happ).1 hstop
    · exact .inl ⟨m, rfl, Call.effect_error he⟩
    · rcases hb.cause with ⟨hm, -⟩ | ⟨he, hbrittle⟩
      · exact .inr (.inl hm)
      · rw [Brittle, h.patched] at hbrittle
        exact .inr (.inr ⟨he, hbrittle⟩)

/-! ## The block as a whole -/

namespace Session

variable {s s' : Session} {history : List Action} {guest : GuestAddress} {e : Emission}
  {v : Verdict} {sites : List Pending}

/-- The jumps that were waiting or were added, and whose targets are known afterwards. -/
def arrived (sites : List Pending) (s s' : Session) : List Pending :=
  (s.pending ++ sites).filter fun p => (s'.lookup p.target).isSome

/-- `s'` is `s` with the block of `guest` translated, in which `sites` are the jumps. -/
structure Completed (guest : GuestAddress) (sites : List Pending) (s s' : Session) : Prop where
  found : s'.lookup guest = some s.asm.offset
  others : ∀ g, g ≠ guest → s'.lookup g = s.lookup g
  pending : s'.pending = (s.pending ++ sites).filter fun p => s'.lookup p.target = none
  waiting : ∀ p ∈ s'.pending, s'.lookup p.target = none
  /-- Each jump that has arrived is patched once, to the block of its target. -/
  patched : ∃ new, s'.asm.segment.table.patched = s.asm.segment.table.patched ++ new ∧
    (new.map Patched.reopened).Perm (arrived sites s s') ∧ (new.map (·.site)).Nodup ∧
    ∀ q ∈ new, ∃ o, s'.lookup q.target = some o ∧ q.dest = .inside o ∧
      s'.asm.segment.buffer.Holds q
  counted : s'.stats.patched = s.stats.patched + (arrived sites s s').length
  /-- A move writes the fields that depend on the base, and nothing else does. -/
  bytes : ∀ i < s.asm.offset, (∀ p ∈ arrived sites s s', ¬ p.field.Covers i) →
    (s'.asm.segment.buffer.address = s.asm.segment.buffer.address ∨
      ∀ f ∈ dependents s.asm.segment.table.patched, ¬ f.Covers i) →
    s'.asm.segment.buffer.bytes[i]? = s.asm.segment.buffer.bytes[i]?
  linked : s'.asm.Linked

theorem Translated.lookup_guest (h : Translated guest e s v s') :
    s'.lookup guest = some s.asm.offset := by
  rw [lookup, h.blocks, List.lookup_cons_self]

theorem Translated.lookup_ne (h : Translated guest e s v s') {g : GuestAddress} (hg : g ≠ guest) :
    s'.lookup g = s.lookup g := by
  rw [lookup, h.blocks, List.lookup_cons, beq_false_of_ne hg, lookup]

theorem Translated.perm (h : Translated guest e s v s')
    (htable : (e.run (s.asm, [])).2.1.segment.table.pending = s.pending ++ sites) :
    ((ledKnown s'.lookup (e.run (s.asm, [])).2.1.segment.table.targets
      (e.run (s.asm, [])).2.1.segment.table.pending).map Patched.reopened).Perm
      (arrived sites s s') := by
  have hperm := h.resolved.perm
  rw [show s'.asm.segment.table.pending = _ from h.pending, htable] at hperm
  have hsplit : (arrived sites s s' ++
      (s.pending ++ sites).filter fun p => s'.lookup p.target = none).Perm
        (s.pending ++ sites) := by
    have hfilter := List.filter_append_perm (fun p : Pending => (s'.lookup p.target).isSome)
      (s.pending ++ sites)
    refine .trans (.of_eq ?_) hfilter
    rw [arrived]
    congr 1
    refine List.filter_congr fun p _ => ?_
    cases s'.lookup p.target <;> rfl
  rw [htable]
  exact (List.perm_append_right_iff _).mp (hperm.trans hsplit.symm)

theorem Translated.bytes (h : Translated guest e s v s') (hs : s.Sound history)
    (hperm : ((ledKnown s'.lookup (e.run (s.asm, [])).2.1.segment.table.targets
      (e.run (s.asm, [])).2.1.segment.table.pending).map Patched.reopened).Perm
        (arrived sites s s')) {i : Nat} (hi : i < s.asm.offset)
    (harrived : ∀ p ∈ arrived sites s s', ¬ p.field.Covers i)
    (hold : s'.asm.segment.buffer.address = s.asm.segment.buffer.address ∨
      ∀ f ∈ dependents s.asm.segment.table.patched, ¬ f.Covers i) :
    s'.asm.segment.buffer.bytes[i]? = s.asm.segment.buffer.bytes[i]? := by
  obtain ⟨hem, -, -⟩ := e.run_emitting (w := (s.asm, [])) (.refl hs.settled.tidy)
  have hres := h.resolved
  by_cases hdep : ∃ f ∈ dependents s.asm.segment.table.patched, f.Covers i
  · -- both sessions hold what leads to the same place from the same base
    obtain ⟨f, hf, hcov⟩ := hdep
    have haddr := hold.resolve_right fun hno => hno f hf hcov
    obtain ⟨q, hq, rfl⟩ := List.mem_map.mp (dependents_subset _ hf)
    have hq' : q ∈ s'.asm.segment.table.patched := by
      rw [hres.patched, hem.patched]
      exact List.mem_append_left _ hq
    have hnow : s'.asm.segment.buffer.Holds q := (h.sound hs).linked h.failed q hq'
    have hthen : s.asm.segment.buffer.Holds q := hs.linked h.healthy q hq
    rw [Holds, haddr, hthen] at hnow
    exact getElem?_eq_of_field_eq (Except.ok.inj hnow).symm hcov
  · refine Eq.trans (hres.rewrites.outside i fun f hf hcov => ?_)
      (hem.old i hi fun f hf hcov => hdep ⟨f, hf, hcov⟩)
    obtain ⟨q, hq, rfl⟩ := List.mem_map.mp hf
    exact harrived _ (hperm.mem_iff.mp (List.mem_map_of_mem hq)) hcov

theorem Translated.completed (h : Translated guest e s v s') (hs : s.Sound history) :
    Completed guest ((e.branches (s.asm, [])).map (Branch.pending s.asm.mode)) s s' := by
  have hstart : Emitting s.asm [] s.asm := .refl hs.settled.tidy
  have htable := e.run_table (w := (s.asm, [])) hstart
  obtain ⟨hem, -, -⟩ := e.run_emitting (w := (s.asm, [])) hstart
  generalize hsites : (e.branches (s.asm, [])).map (Branch.pending s.asm.mode) = sites at htable ⊢
  have hall : (e.run (s.asm, [])).2.1.segment.table.pending = s.pending ++ sites := by
    rw [htable]
    rfl
  have hperm := h.perm hall
  have hres := h.resolved
  have hpending := h.pending
  rw [hall] at hpending
  constructor
  · exact h.lookup_guest
  · intro g hg
    exact h.lookup_ne hg
  · exact hpending
  · intro p hp
    rw [hpending] at hp
    exact of_decide_eq_true (List.mem_filter.mp hp).2
  · refine ⟨_, by rw [hres.patched, hem.patched], hperm, ?_, ?_⟩
    · have hsite := hperm.map Pending.site
      rw [List.map_map] at hsite
      refine hsite.nodup_iff.mpr ?_
      refine (List.pairwise_map.mpr ?_).imp (R := (· < ·)) Nat.ne_of_lt
      have hasc := hem.tidy.segment.ascending
      rw [hall] at hasc
      exact hasc.sublist List.filter_sublist
    · intro q hq
      have hled := hres.led q hq
      rw [leadKnown, Option.map_eq_some_iff] at hled
      obtain ⟨o, ho, hd⟩ := hled
      exact ⟨o, ho, hd.symm, hres.holds q hq⟩
  · have hcount := hperm.length_eq
    rw [List.length_map] at hcount
    have hbefore : (e.run (s.asm, [])).2.1.segment.table.resolved =
        s.asm.segment.table.resolved := by
      rw [htable]
      rfl
    have hresolved := hres.resolved
    rw [hbefore, hcount] at hresolved
    simp only [stats, hresolved, Int.natCast_add]
  · intro i hi harrived hold
    exact h.bytes hs hperm hi harrived hold
  · exact (h.sound hs).linked h.failed

end Session

/-- A block that returns is complete. Leading the jumps to their targets never fails, so all
that can keep a block from returning is its emission, or that the code has more bytes than
there are offsets and is to be listed. -/
theorem Reached.block_completes {history : List Action} {s s' : Session} (h : Reached history s)
    (hf : s.failed = none) (guest : GuestAddress) (hl : s.lookup guest = none) (e : Emission)
    (r r' : Registry) {v : Verdict}
    (happly : (Action.block guest e).apply ⟨s, r⟩ = (v, ⟨s', r'⟩)) :
    (v = .returned →
      s.Completed guest ((e.branches (s.asm, [])).map (Branch.pending s.asm.mode)) s') ∧
    (∀ a labels, e.run (s.asm, []) = (.returned (.ok ()), a, labels) →
      ∃ t n, ((s.opened guest).adopt a).run ((s.opened guest).adopt a).patchKnown () =
        (t, (), .ok (.ok n))) ∧
    (v = .returned ∨
      v = (e.run (s.asm, [])).1.verdict guest ∧ (e.run (s.asm, [])).1.Excused s.asm ∨
      v = .panicked .outOfRange ∧ offsetLimit ≤ s'.asm.offset) := by
  have hs := h.sound
  have hstart : Emitting s.asm [] s.asm := .refl hs.settled.tidy
  obtain ⟨hem, -, -⟩ := e.run_emitting (w := (s.asm, [])) hstart
  have hout := Session.block_outcome (x := ⟨s, r⟩) hs.settled guest e
  rw [happly] at hout
  have hpatch : ∀ a labels, e.run (s.asm, []) = (.returned (.ok ()), a, labels) →
      ∃ t n, ((s.opened guest).adopt a).run ((s.opened guest).adopt a).patchKnown () =
        (t, (), .ok (.ok n)) := by
    intro a labels hrun
    rw [hrun] at hem
    obtain ⟨seg, n, hp, -⟩ :=
      Session.run_patchKnown (Session.settled_opened hs.settled guest hem.tidy hem.grown)
    exact ⟨_, n, hp⟩
  refine ⟨?_, hpatch, ?_⟩
  · rintro rfl
    generalize hv : Verdict.returned = v at hout
    cases hout with
    | refused err _ => cases hv
    | translated ht => exact ht.completed hs
    | undone hu =>
      have hverdict := hv.trans hu.verdict
      have hstop := hu.stopped
      revert hverdict hstop
      generalize (e.run (s.asm, [])).1 = ending
      intro hverdict hstop
      exact absurd (Ending.of_verdict_returned hverdict.symm) hstop
  · cases hout with
    | refused err hwhy =>
      rw [hf, hl] at hwhy
      rcases hwhy with hwhy | hwhy <;> cases hwhy
    | translated ht => exact ht.verdict.imp_right .inr
    | undone hu =>
      exact .inr (.inl ⟨hu.verdict, e.run_excused (w := (s.asm, [])) hstart hu.stopped⟩)

/-- A wide host like `Config.twoPlaces`, with more memory in each place. -/
def Config.twoPages : Config where
  buffer := { supply := .listed [.ok 0x10000, .ok 0x20000], growth := 32 }

theorem Config.twoPages_unused : twoPages.buffer.Unused :=
  ⟨rfl, rfl, Supply.neverZero_listed (by simp)⟩

def Emission.threeWays : Emission :=
  .call (.jumpToGuest 2) fun _ => .call (.branchToGuest (.flag .e) 1) fun _ => .goto 4

/-- Block 1 has jumped to block 2. The new block 2 moves the code inside of a jump, and three of
the four jumps arrive. -/
theorem block_completes_with_move :
    ∃ s s' r', Config.twoPages.session [.block 1 (.goto 2)] = some s ∧
      s.failed = none ∧ s.lookup 2 = none ∧
      (Action.block 2 .threeWays).apply ⟨s, {}⟩ = (.returned, ⟨s', r'⟩) ∧
      s.asm.segment.buffer.address = 0x10000 ∧ s'.asm.segment.buffer.address = 0x20000 ∧
      s.pending = [⟨6, 2, .abs64⟩] ∧ s'.pending = [⟨50, 4, .abs64⟩] ∧
      s.Completed 2 ((Emission.threeWays.branches (s.asm, [])).map (Branch.pending s.asm.mode))
        s' := by
  have hfacts : (Config.twoPages.session [.block 1 (.goto 2)]).any
      (fun s => s.failed = none ∧ s.blocks = [(1, 0)] ∧ s.pending = [⟨6, 2, .abs64⟩] ∧
        s.config.logger.enabled .block Log.Level.trace = false ∧
        s.asm.segment.buffer.address = 0x10000 ∧
        (Emission.threeWays.run (s.asm, [])).1.verdict 2 = .returned ∧
        (Emission.threeWays.run (s.asm, [])).2.1.segment.buffer.address = 0x20000 ∧
        (Emission.threeWays.branches (s.asm, [])).map (Branch.pending s.asm.mode) =
          [⟨20, 2, .abs64⟩, ⟨36, 1, .abs64⟩, ⟨50, 4, .abs64⟩]) = true := by decide +kernel
  obtain ⟨s, hs, hfact⟩ := (Option.any_eq_true ..).mp hfacts
  obtain ⟨hf, hblocks, hp, hlog, haddr, hret, haddr', hsites⟩ := of_decide_eq_true hfact
  have hlookup : ∀ g, s.lookup g = [(1, 0)].lookup g := by
    intro g
    rw [Session.lookup, hblocks]
  have hreached := Config.reached Config.twoPages_unused hs
  have ht : Session.Translated 2 .threeWays s _ _ := Session.block_translated (x := ⟨s, {}⟩)
    hreached.sound.settled hf (hlookup 2) (Ending.of_verdict_returned hret)
  have hv : ((Action.block 2 .threeWays).apply ⟨s, {}⟩).1 = .returned := by
    rw [ht.answer, Session.complaint, ht.config, hlog]
    rfl
  have hdone := (hreached.block_completes hf 2 (hlookup 2) .threeWays {} _ (Prod.ext hv rfl)).1 rfl
  refine ⟨s, _, _, hs, hf, hlookup 2, Prod.ext hv rfl, haddr,
    ht.resolved.rewrites.address.trans haddr', hp, ?_, hdone⟩
  have hone := (hdone.others 1 (by decide)).trans (hlookup 1)
  have hfour := (hdone.others 4 (by decide)).trans (hlookup 4)
  rw [hdone.pending, hp, hsites]
  simp [List.filter, hdone.found, hone, hfour]

end HostCode
