import HostCode.Proofs.Session.Branches

/-! # Taking back what was written

Cutting the code off where it ended once takes back all that was written since, with its jumps.
Of the jumps from before, those that were led to the code behind the cut wait again. The others
that were resolved meanwhile stay resolved, and what waited before and was not resolved waits
still.
-/

namespace HostCode

open CodeBuffer Segment Assembler

/-! ## Assemblers whose code is cut off -/

/-- The assemblers that come about when code is also cut off again, each with the offsets in its
code where a use has begun. -/
inductive Driven : List Nat → Writing → Prop
  | start {w : Writing} (h : Assembled w) : Driven [] w
  | use {cuts : List Nat} {t : Option GuestAddress} {w w' : Writing} (h : Driven cuts w)
    (hu : Use t w w') : Driven (w.1.offset :: cuts) w'
  /-- The forward jumps that are cut off cannot be given a target any more. -/
  | truncate {cuts : List Nat} {n : Nat} {w : Writing} {a : Assembler} (h : Driven cuts w)
    (hn : n ∈ w.1.offset :: cuts) (hx : Assembler.truncate n w.1 = .ok () a) :
    Driven (cuts.filter (· ≤ n)) (a, w.2.filter (·.site < n))

/-- The code can be cut off at `n`: nothing that can be written again reaches across. -/
structure CutAt (n : Nat) (w : Writing) : Prop where
  inside : n ≤ w.1.offset
  sites : Boundary n w.1.segment
  labels : ∀ j ∈ w.2, j.site < n → j.field.stop ≤ n

variable {w w' : Writing} {t : Option GuestAddress} {n : Nat} {cuts : List Nat}
  {breaks : Fault → Prop}

theorem Ready.cutAt_end (h : Ready w) : CutAt w.1.offset w where
  inside := Nat.le_refl _
  sites f hf _ := h.tidy.segment.inside f hf
  labels j hj _ := (h.labels j hj).1

theorem Used.behind (hu : Used breaks w t w') :
    (∀ f ∈ w'.1.segment.table.fields, f ∈ w.1.segment.table.fields ∨ w.1.offset ≤ f.start) ∧
    ∀ j ∈ w'.2, j ∈ w.2 ∨ w.1.offset ≤ j.site := by
  cases hu with
  | applied hf happ =>
    cases happ with
    | write hw hl =>
      refine ⟨fun f hf => .inl (hw.table ▸ hf), fun j hj => ?_⟩
      exact (List.mem_append.mp hj).imp_right fun hj => (hf j hj).1
    | fill hr hchunk => exact ⟨fun f hf => .inl hf, fun j hj => .inl hj⟩
    | branch hr =>
      obtain ⟨a₁, hw, -, rfl⟩ := hr
      refine ⟨fun f hf => ?_, fun j hj => .inl hj⟩
      rcases List.mem_cons.mp ((recorded_fields_perm a₁ _).mem_iff.mp hf) with rfl | hf
      · have hoff := hw.offset
        rw [List.length_append, List.length_replicate, ← hw.mode] at hoff
        exact .inr (by simp only []; omega)
      · exact .inl (hw.table ▸ hf)
  | wrote hw _ _ => exact ⟨fun f hf => .inl (hw.table ▸ hf), fun j hj => .inl hj⟩
  | resolved hres => exact ⟨fun f hf => .inl (hres.fields_perm.mem_iff.mp hf), fun j hj => .inl hj⟩

theorem CutAt.used (h : CutAt n w) (hu : Used breaks w t w') : CutAt n w' where
  inside := Nat.le_trans h.inside hu.offset_le
  sites f hf hlt := by
    rcases hu.behind.1 f hf with hf | hle
    · exact h.sites f hf hlt
    · exact absurd hlt (Nat.not_lt_of_le (Nat.le_trans h.inside hle))
  labels j hj hlt := by
    rcases hu.behind.2 j hj with hj | hle
    · exact h.labels j hj hlt
    · exact absurd hlt (Nat.not_lt_of_le (Nat.le_trans h.inside hle))

theorem Driven.invariant (h : Driven cuts w) : Ready w ∧ ∀ n ∈ cuts, CutAt n w := by
  induction h with
  | start h => exact ⟨h.ready, by intro n hn; cases hn⟩
  | use _ hu ih =>
    obtain ⟨hready, hcuts⟩ := ih
    have hused := hu.used hready.toKempt
    refine ⟨hused.ready hready, List.forall_mem_cons.mpr ⟨hready.cutAt_end.used hused, ?_⟩⟩
    intro n hn
    exact (hcuts n hn).used hused
  | @truncate cuts n w a _ hn hx ih =>
    obtain ⟨hready, hcuts⟩ := ih
    have hall : ∀ m ∈ w.1.offset :: cuts, CutAt m w :=
      List.forall_mem_cons.mpr ⟨hready.cutAt_end, hcuts⟩
    have hcut := hall n hn
    obtain ⟨s, hx', ht, hready'⟩ := hready.truncated hcut.inside hcut.sites hcut.labels
    cases hx.symm.trans hx'
    refine ⟨hready', fun m hm => ?_⟩
    obtain ⟨hm, hle⟩ := List.mem_filter.mp hm
    refine ⟨?_, fun f hf => ?_, fun j hj => ?_⟩
    · exact Nat.le_trans (of_decide_eq_true hle) (Nat.le_of_eq ht.length.symm)
    · exact (hcuts m hm).sites f (ht.mem_fields.mp hf).1
    · exact (hcuts m hm).labels j (List.mem_filter.mp hj).1

/-! ## What happens before an offset -/

/-- The part of an assembler before the offset `n`, with all of its patched sites. -/
def Assembler.upTo (n : Nat) (a : Assembler) : Assembler :=
  { a with
    literals := a.literals.filter (· < n)
    segment := { a.segment with
      buffer := { a.segment.buffer with bytes := a.segment.buffer.bytes.take n }
      table := { a.segment.table with
        pending := a.segment.table.pending.filter (·.site < n) } } }

theorem Assembler.offset_upTo {a : Assembler} (h : n ≤ a.offset) : (a.upTo n).offset = n := by
  have hmin : (a.segment.buffer.bytes.take n).size = min n a.segment.buffer.bytes.size := by
    rw [Array.take_eq_extract, Array.size_extract, Nat.sub_zero]
  exact hmin.trans (Nat.min_eq_left h)

theorem filter_append_filter_of_ascending {ps : List Pending}
    (h : ps.Pairwise fun p q => p.site < q.site) (n : Nat) :
    ps.filter (·.site < n) ++ ps.filter (n ≤ ·.site) = ps := by
  induction ps with
  | nil => rfl
  | cons p ps ih =>
    obtain ⟨hp, hps⟩ := List.pairwise_cons.mp h
    by_cases hlt : p.site < n
    · rw [List.filter_cons_of_pos (by simpa using hlt), List.filter_cons_of_neg (by simpa using hlt),
        List.cons_append, ih hps]
    · have hall : ∀ q ∈ p :: ps, n ≤ q.site := by
        rintro q (_ | ⟨_, hq⟩)
        · exact Nat.le_of_not_lt hlt
        · exact Nat.le_trans (Nat.le_of_not_lt hlt) (Nat.le_of_lt (hp q hq))
      rw [List.filter_eq_nil_iff.mpr, List.filter_eq_self.mpr, List.nil_append]
      · intro q hq
        exact decide_eq_true (hall q hq)
      · intro q hq hlt
        exact Nat.not_lt_of_le (hall q hq) (of_decide_eq_true hlt)

theorem Ready.emitting_upTo (h : Ready w) (hn : n ≤ w.1.offset) (hl : ∀ j ∈ w.2, n ≤ j.site) :
    Emitting (w.1.upTo n) w.2 w.1 where
  tidy := h.tidy
  mode := rfl
  grown := by rw [offset_upTo hn]; exact hn
  patched := rfl
  pending := by
    refine ⟨w.1.segment.table.pending.filter (n ≤ ·.site), ?_, fun p hp => ?_⟩
    · exact (filter_append_filter_of_ascending h.tidy.segment.ascending n).symm
    · rw [offset_upTo hn]
      exact of_decide_eq_true (List.mem_filter.mp hp).2
  literals := by rw [offset_upTo hn]; rfl
  old i hi _ := by
    rw [offset_upTo hn] at hi
    exact (getElem?_take ..).trans (if_pos hi) |>.symm
  labels j hj := by
    rw [offset_upTo hn]
    exact ⟨hl j hj, h.labels j hj⟩

/-! ## What is kept since a state -/

variable {start : Assembler} {new new' : List Patched}

/-- `w` comes from `start` by uses, with `new` for the sites that were patched since. Those of
them that lie in the code of `start` are the ones that waited there and wait no more. -/
structure Continued (start : Assembler) (new : List Patched) (w : Writing) : Prop where
  mode : w.1.mode = start.mode
  grown : start.offset ≤ w.1.offset
  labels : ∀ j ∈ w.2, start.offset ≤ j.site
  patched : w.1.segment.table.patched = start.segment.table.patched ++ new
  pending : (w.1.segment.table.pending.filter (·.site < start.offset) ++
    (new.filter (·.site < start.offset)).map Patched.reopened).Perm start.segment.table.pending
  literals : w.1.literals.filter (· < start.offset) = start.literals
  old : ∀ i < start.offset, (∀ f ∈ dependents start.segment.table.patched, ¬ f.Covers i) →
    (∀ q ∈ new, ¬ q.field.Covers i) →
    w.1.segment.buffer.bytes[i]? = start.segment.buffer.bytes[i]?

namespace Continued

theorem refl (h : start.Tidy) : Continued start [] (start, []) where
  mode := rfl
  grown := Nat.le_refl _
  labels j hj := by cases hj
  patched := (List.append_nil _).symm
  pending := by
    rw [List.filter_nil, List.map_nil, List.append_nil, List.filter_eq_self.mpr]
    intro p hp
    exact decide_eq_true (h.pending_lt hp)
  literals := (Emitting.refl h).literals
  old _ _ _ _ := rfl

theorem emitted (h : Continued start new w) (hem : Emitting (w.1.upTo start.offset) w'.2 w'.1) :
    Continued start new w' := by
  have hoff := offset_upTo h.grown
  obtain ⟨-, hmode, hgrown, hpatched, ⟨later, hpending, hlater⟩, hliterals, hold, hlabels⟩ := hem
  rw [hoff] at hgrown hlater hliterals hold hlabels
  refine ⟨hmode.trans h.mode, hgrown, fun j hj => (hlabels j hj).1, hpatched.trans h.patched,
    ?_, hliterals.trans h.literals, fun i hi hd hnew => ?_⟩
  · -- the new sites lie behind `start`, so they are none of the earlier ones
    have hnone : later.filter (·.site < start.offset) = [] := by
      refine List.filter_eq_nil_iff.mpr fun p hp hlt => ?_
      exact Nat.not_lt_of_le (hlater p hp) (of_decide_eq_true hlt)
    have hearly : w'.1.segment.table.pending.filter (·.site < start.offset) =
        w.1.segment.table.pending.filter (·.site < start.offset) := by
      rw [hpending, List.filter_append, hnone, List.append_nil]
      exact List.filter_filter.trans (by simp only [Bool.and_self])
    rw [hearly]
    exact h.pending
  · have hsame : (w.1.upTo start.offset).segment.buffer.bytes[i]? =
        w.1.segment.buffer.bytes[i]? := (getElem?_take ..).trans (if_pos hi)
    refine ((hold i hi fun f hf => ?_).trans hsame).trans (h.old i hi hd hnew)
    have hdep : f ∈ dependents w.1.segment.table.patched := hf
    rw [h.patched, dependents, List.filter_append, List.map_append] at hdep
    rcases List.mem_append.mp hdep with hf | hf
    · exact hd f hf
    · obtain ⟨q, hq, rfl⟩ := List.mem_map.mp (dependents_subset new hf)
      exact hnew q hq

theorem resolved (h : Continued start new w) {lead : GuestAddress → Option Destination}
    {s : Segment} (hres : Resolved lead new' w.1.segment s) :
    Continued start (new ++ new') ({ w.1 with segment := s }, w.2) where
  mode := h.mode
  grown := Nat.le_trans h.grown (Nat.le_of_eq hres.length.symm)
  labels := h.labels
  patched := by
    refine hres.patched.trans ?_
    rw [h.patched, List.append_assoc]
  pending := by
    have hperm := hres.perm.filter (·.site < start.offset)
    rw [List.filter_append, List.filter_map] at hperm
    rw [List.filter_append, List.map_append]
    refine .trans ?_ ((hperm.append_right _).trans h.pending)
    rw [← List.append_assoc, List.append_assoc (List.map _ _)]
    exact List.perm_append_comm
  literals := h.literals
  old i hi hd hnew := by
    refine (hres.rewrites.outside i fun f hf => ?_).trans
      (h.old i hi hd fun q hq => hnew q (List.mem_append_left _ hq))
    obtain ⟨q, hq, rfl⟩ := List.mem_map.mp hf
    exact hnew q (List.mem_append_right _ hq)

theorem used (h : Continued start new w) (hw : Ready w) (hu : Used breaks w t w') :
    ∃ new, Continued start new w' := by
  have hem := hw.emitting_upTo h.grown h.labels
  cases hu with
  | applied hf happ => exact ⟨new, h.emitted (hem.applied hf happ).1⟩
  | wrote hw _ _ => exact ⟨new, h.emitted (hem.wrote hw)⟩
  | resolved hres => exact ⟨_, h.resolved hres⟩

theorem of_uses {targets : GuestAddress → Prop} (hs : Ready (start, []))
    (hu : Uses targets (start, []) w) : Ready w ∧ ∃ new, Continued start new w := by
  refine hu.preserves (P := fun w => ∃ new, Continued start new w) hs ?_ ⟨[], refl hs.tidy⟩
  rintro t w w' hw - hused ⟨new, h⟩
  exact h.used hw hused

end Continued

/-! ## Sites that were resolved meanwhile -/

variable {targets : GuestAddress → Prop} {p : Pending} {dest : Destination}

/-- On the way from `w` to `w'`, a resolution of its target to `dest` has ended the waiting of
the site. -/
def Pending.LedTo (p : Pending) (dest : Destination) (w w' : Writing) : Prop :=
  ∃ before v a, Uses (fun _ => True) w before ∧ p ∈ before.1.segment.table.pending ∧
    onSegment (dest.resolve p.target) before.1 = .ok v a ∧ p ∉ a.segment.table.pending ∧
    Uses (fun _ => True) (a, before.2) w'

theorem Pending.LedTo.step {w'' : Writing} (h : p.LedTo dest w w') (hu : Use t w' w'') :
    p.LedTo dest w w'' := by
  obtain ⟨before, v, a, hbefore, hp, hx, hdone, hafter⟩ := h
  exact ⟨before, v, a, hbefore, hp, hx, hdone, hafter.step (fun _ _ => trivial) hu⟩

theorem Uses.ready (h : Uses targets w w') (hw : Ready w) : Ready w' :=
  (h.preserves (P := fun _ => True) hw (fun _ _ _ _ _ _ _ => trivial) trivial).1

theorem Uses.patched {q : Patched} (h : Uses targets w w') (hw : Ready w)
    (hq : q ∈ w.1.segment.table.patched) : q ∈ w'.1.segment.table.patched :=
  (h.preserves (P := fun w => q ∈ w.1.segment.table.patched) hw
    (fun _ _ _ _ _ hu hq => hu.patched hq) hq).2

theorem Ready.reopened_not_mem (h : Ready w) {q : Patched}
    (hq : q ∈ w.1.segment.table.patched) : q.reopened ∉ w.1.segment.table.pending := by
  intro hp
  -- a site that is in both lists overlaps with itself
  exact Nat.ne_of_gt q.kind.size_pos (h.tidy.segment.apart_of_mem hp hq).size_eq_zero

theorem Pending.LedTo.patched (h : p.LedTo dest w w') (hw : Ready w) :
    p.leadingTo dest ∈ w'.1.segment.table.patched := by
  obtain ⟨before, v, a, hbefore, hp, hx, hdone, hafter⟩ := h
  have hready := hbefore.ready hw
  have hready' := Use.ready (.resolve hx) hready
  obtain ⟨new, s, rfl, hres, -⟩ := hready.resolved hx
  refine hafter.patched hready' ?_
  change p.leadingTo dest ∈ s.table.patched
  rw [hres.patched]
  exact List.mem_append_right _ (hres.leadingTo_mem hp hdone)

theorem Used.patched_eq (hu : Used breaks w none w') :
    w'.1.segment.table.patched = w.1.segment.table.patched := by
  cases hu with
  | applied hf happ => rw [happ.table hf]; rfl
  | wrote hw _ _ => rw [hw.table]

/-- Every site that is patched was so before, or its waiting was ended meanwhile. -/
theorem Uses.ledTo {q : Patched} (h : Uses (fun _ => True) w w') (hw : Ready w)
    (hq : q ∈ w'.1.segment.table.patched) :
    q ∈ w.1.segment.table.patched ∨ q.reopened.LedTo q.dest w w' := by
  induction h with
  | refl => exact .inl hq
  | step hbefore ht hu ih =>
    have hready := Uses.ready hbefore hw
    have hused := hu.used hready.toKempt
    cases hu with
    | call hx =>
      rw [hused.patched_eq] at hq
      exact (ih hq).imp_right fun hled => hled.step (.call hx)
    | broken hx hf =>
      rw [hused.patched_eq] at hq
      exact (ih hq).imp_right fun hled => hled.step (.broken hx hf)
    | resolve hx =>
      obtain ⟨new, s, rfl, hres, -⟩ := hready.resolved hx
      change q ∈ s.table.patched at hq
      rw [hres.patched] at hq
      rcases List.mem_append.mp hq with hq | hnew
      · exact (ih hq).imp_right fun hled => hled.step (.resolve hx)
      · obtain ⟨rfl, rfl⟩ := hres.led_one hnew
        have hmem : q ∈ s.table.patched := hres.patched ▸ List.mem_append_right _ hnew
        refine .inr ⟨_, _, _, hbefore, hres.reopened_mem hnew, hx, ?_, .refl⟩
        exact (hused.ready hready).reopened_not_mem hmem

/-! ## The cut -/

theorem perm_filter_not_mem {α : Type} [DecidableEq α] {xs ys zs : List α}
    (h : (xs ++ ys).Perm zs) (hn : zs.Nodup) : xs.Perm (zs.filter (· ∉ ys)) := by
  obtain ⟨-, -, hne⟩ := List.nodup_append.mp (h.nodup_iff.mpr hn)
  have hxs : xs.filter (· ∉ ys) = xs :=
    List.filter_eq_self.mpr fun x hx => decide_eq_true fun hy => hne x hx x hy rfl
  have hys : ys.filter (· ∉ ys) = [] := List.filter_eq_nil_iff.mpr (by simp)
  have hf := h.filter (· ∉ ys)
  rwa [List.filter_append, hxs, hys, List.append_nil] at hf

namespace Continued

theorem reopened_mem (h : Continued start new w) {q : Patched} (hq : q ∈ new)
    (hlt : q.site < start.offset) : q.reopened ∈ start.segment.table.pending :=
  h.pending.mem_iff.mp (List.mem_append_right _
    (List.mem_map_of_mem (List.mem_filter.mpr ⟨hq, decide_eq_true hlt⟩)))

/-- Whatever was written since, the code can be cut off where it ended. -/
theorem cutAt (h : Continued start new w) (hs : start.Tidy) : CutAt start.offset w where
  inside := h.grown
  sites f hf hlt := by
    rcases List.mem_append.mp hf with hf | hf
    · obtain ⟨p, hp, rfl⟩ := List.mem_map.mp hf
      have hp' : p ∈ start.segment.table.pending := h.pending.mem_iff.mp
        (List.mem_append_left _ (List.mem_filter.mpr ⟨hp, decide_eq_true hlt⟩))
      exact hs.segment.pending_inside hp'
    · obtain ⟨q, hq, rfl⟩ := List.mem_map.mp hf
      rw [h.patched] at hq
      rcases List.mem_append.mp hq with hq | hq
      · exact hs.segment.patched_inside hq
      · exact hs.segment.pending_inside (h.reopened_mem hq hlt)
  labels j hj hlt := absurd hlt (Nat.not_lt_of_le (h.labels j hj))

/-- What is left of the sites patched since are those that waited at the start and were resolved
meanwhile, to where the cut leaves them. -/
theorem mem_retained_iff (h : Continued start new w) (hs : Ready (start, []))
    (hu : Uses (fun _ => True) (start, []) w) (q : Patched) :
    q ∈ retained start.offset new ↔ q.reopened ∈ start.segment.table.pending ∧
      q.reopened.LedTo q.dest (start, []) w ∧ q.leadsPast start.offset = false := by
  simp only [retained, List.mem_filter, Bool.and_eq_true, decide_eq_true_eq, Bool.not_eq_true']
  constructor
  · rintro ⟨hq, hlt, hl⟩
    have hp := h.reopened_mem hq hlt
    refine ⟨hp, ?_, hl⟩
    have hmem : q ∈ w.1.segment.table.patched := h.patched ▸ List.mem_append_right _ hq
    refine (hu.ledTo hs hmem).resolve_left fun hold => ?_
    exact hs.reopened_not_mem hold hp
  · rintro ⟨hp, hled, hl⟩
    have hmem : q ∈ w.1.segment.table.patched := hled.patched hs
    rw [h.patched] at hmem
    refine ⟨(List.mem_append.mp hmem).resolve_left fun hold => ?_, hs.tidy.pending_lt hp, hl⟩
    exact hs.reopened_not_mem hold hp

variable (hpast : ∀ q ∈ start.segment.table.patched, q.leadsPast start.offset = false)
  {s : Segment}

include hpast

theorem cleared_eq (h : Continued start new w) :
    cleared start.offset w.1.segment.table.patched = cleared start.offset new := by
  rw [h.patched, cleared, cleared, List.filter_append, List.filter_eq_nil_iff.mpr,
    List.nil_append]
  intro q hq
  simp [hpast q hq]

theorem retained_eq (h : Continued start new w) (hs : start.Tidy) :
    retained start.offset w.1.segment.table.patched =
      start.segment.table.patched ++ retained start.offset new := by
  rw [h.patched, retained, retained, List.filter_append, List.filter_eq_self.mpr]
  intro q hq
  have hlt : q.site < start.offset :=
    Nat.lt_of_lt_of_le (Nat.lt_add_of_pos_right q.kind.size_pos) (hs.segment.patched_inside hq)
  simp [hpast q hq, hlt]

/-- What waits after the cut is what waited at the start, in the same order, but for what was
resolved meanwhile and is still so. -/
theorem pending_eq (h : Continued start new w) (hs : start.Tidy)
    (ht : Truncated start.offset w.1.segment s) (hs' : s.Ordered) :
    s.table.pending = start.segment.table.pending.filter
      (· ∉ (retained start.offset new).map Patched.reopened) := by
  have hnodup : start.segment.table.pending.Nodup := by
    refine hs.segment.ascending.imp ?_
    rintro p q hlt rfl
    exact Nat.lt_irrefl _ hlt
  have hall : ((w.1.segment.table.pending.filter (·.site < start.offset) ++
      (cleared start.offset new).map Patched.reopened) ++
      (retained start.offset new).map Patched.reopened).Perm start.segment.table.pending := by
    rw [List.append_assoc, ← List.map_append]
    exact (((Truncated.cleared_append_retained _ _).map _).append_left _).trans h.pending
  have hperm : s.table.pending.Perm (start.segment.table.pending.filter
      (· ∉ (retained start.offset new).map Patched.reopened)) := by
    rw [ht.pending, reopenedAt, h.cleared_eq hpast]
    exact (List.mergeSort_perm ..).trans (perm_filter_not_mem hall hnodup)
  refine hperm.eq_of_pairwise ?_ hs'.ascending
    (hs.segment.ascending.sublist List.filter_sublist)
  intro p q _ _ hpq hqp
  exact absurd hpq (Nat.lt_asymm hqp)

/-- The sites that are taken back are blank, as they were when they waited. All other bytes have
been left alone. -/
theorem bytes_eq (h : Continued start new w) (hs : start.Tidy)
    (ht : Truncated start.offset w.1.segment s) {i : Nat} (hi : i < start.offset)
    (hd : ∀ f ∈ dependents start.segment.table.patched, ¬ f.Covers i)
    (hr : ∀ q ∈ retained start.offset new, ¬ q.field.Covers i) :
    s.buffer.bytes[i]? = start.segment.buffer.bytes[i]? := by
  have hblank := ht.blank
  have hold := ht.old i hi
  rw [h.cleared_eq hpast] at hblank hold
  by_cases hc : ∃ q ∈ cleared start.offset new, q.field.Covers i
  · obtain ⟨q, hq, hcov⟩ := hc
    obtain ⟨hnew, hsite⟩ := List.mem_filter.mp hq
    have hlt := of_decide_eq_true (Bool.and_eq_true_iff.mp hsite).1
    have hwaited := hs.segment.blank _ (h.reopened_mem hnew hlt)
    exact getElem?_eq_of_field_eq ((hblank q hq).trans hwaited.symm) hcov
  · refine (hold fun q hq hcov => hc ⟨q, hq, hcov⟩).trans (h.old i hi hd fun q hq hcov => ?_)
    have hlt : q.site < start.offset := Nat.lt_of_le_of_lt hcov.1 hi
    cases hl : q.leadsPast start.offset with
    | true => exact hc ⟨q, List.mem_filter.mpr ⟨hq, by simp [hlt, hl]⟩, hcov⟩
    | false => exact hr q (List.mem_filter.mpr ⟨hq, by simp [hlt, hl]⟩) hcov

end Continued

/-- Whatever was written, resolved and moved since, cutting the code off where it ended takes it
back. The jumps of then that were resolved meanwhile, to an address outside or to an offset before
the cut, are added to the patched ones, and no others. The rest of those that waited wait as they
did, with blank sites, also if they had been led behind the cut. All other code is what it was,
but for the sites that depend on where the code is, and these lead to where they led. -/
theorem Driven.truncate_undoes (h : Driven cuts w)
    (hpast : ∀ q ∈ w.1.segment.table.patched, q.leadsPast w.1.offset = false)
    (hu : Uses (fun _ => True) (w.1, []) w') :
    ∃ a added, Assembler.truncate w.1.offset w'.1 = .ok () a ∧
      a.offset = w.1.offset ∧ a.mode = w.1.mode ∧ a.literals = w.1.literals ∧
      a.segment.table.patched = w.1.segment.table.patched ++ added ∧ added.Nodup ∧
      (∀ q, q ∈ added ↔ q.reopened ∈ w.1.segment.table.pending ∧
        q.reopened.LedTo q.dest (w.1, []) w' ∧ q.leadsPast w.1.offset = false) ∧
      a.segment.table.pending = w.1.segment.table.pending.filter
        (· ∉ added.map Patched.reopened) ∧
      (∀ p ∈ a.segment.table.pending, a.segment.buffer.Blank p.field) ∧ a.Linked ∧
      ∀ i < w.1.offset, (∀ q ∈ added, ¬ q.field.Covers i) →
        ((∀ f ∈ dependents w.1.segment.table.patched, ¬ f.Covers i) ∨
          a.segment.buffer.address = w.1.segment.buffer.address) →
        a.segment.buffer.bytes[i]? = w.1.segment.buffer.bytes[i]? := by
  obtain ⟨start, labels⟩ := w
  have hw := h.invariant.1
  have hstart : Ready (start, []) := ⟨⟨hw.tidy, by intro j hj; cases hj⟩, hw.linked⟩
  obtain ⟨hw', new, hnew⟩ := Continued.of_uses hstart hu
  have hcut := hnew.cutAt hw.tidy
  obtain ⟨s, hx, ht, hready⟩ := hw'.truncated hcut.inside hcut.sites hcut.labels
  have hpatched := ht.patched.trans (hnew.retained_eq hpast hw.tidy)
  have hnodup : (retained start.offset new).Nodup := by
    have hall := hw'.tidy.segment.patched_nodup
    rw [hnew.patched] at hall
    exact (List.nodup_append.mp hall).2.1.sublist List.filter_sublist
  refine ⟨_, retained start.offset new, hx, ht.length, hnew.mode, hnew.literals, hpatched, hnodup,
    hnew.mem_retained_iff hstart hu, hnew.pending_eq hpast hw.tidy ht hready.tidy.segment,
    hready.tidy.segment.blank, hready.linked, fun i hi hadded hd => ?_⟩
  by_cases hcov : ∃ f ∈ dependents start.segment.table.patched, f.Covers i
  · -- a site that depends on the base holds the same if the base is the same
    obtain ⟨f, hf, hcov⟩ := hcov
    have haddr := hd.resolve_left fun hd => hd f hf hcov
    obtain ⟨q, hq, rfl⟩ := List.mem_map.mp (dependents_subset _ hf)
    have hmem : q ∈ s.table.patched := hpatched ▸ List.mem_append_left _ hq
    exact getElem?_eq_of_field_eq ((hready.linked q hmem).field_eq (hw.linked q hq) haddr) hcov
  · refine hnew.bytes_eq hpast hw.tidy ht hi (fun f hf hc => ?_) hadded
    exact hcov ⟨f, hf, hc⟩

/-- Three jumps, of which the first is led to the start of the code. Then the second is led out of
the code and the third behind it, and more code is written, which moves all of it. -/
theorem truncate_undoes_after_move :
    ∃ (cuts : List Nat) (w w' : Writing) (a : Assembler), Driven cuts w ∧ w.1.offset = 42 ∧
      (∀ q ∈ w.1.segment.table.patched, q.leadsPast w.1.offset = false) ∧
      Uses (fun _ => True) (w.1, []) w' ∧ w.1.segment.buffer.address = 0x10000 ∧
      w'.1.segment.table.pending = [] ∧ Assembler.truncate 42 w'.1 = .ok () a ∧
      a.segment.buffer.address = 0x20000 ∧ a.literals = [6, 20, 34] ∧
      a.segment.table.patched =
        [⟨6, .abs64, 5, .inside 0⟩, ⟨20, .abs64, 7, .outside 0x1234⟩] ∧
      a.segment.table.pending = [⟨34, 9, .abs64⟩] ∧ a.segment.buffer.Blank ⟨34, 8⟩ ∧
      a.segment.buffer.Holds ⟨6, .abs64, 5, .inside 0⟩ := by
  let buffer : CodeBuffer := { Config.twoPlaces.buffer with growth := 48 }
  let w₀ : Writing := (.new buffer (.baseRelative ⟨.bp, by decide⟩ 0), [])
  let jump (target : GuestAddress) : Call := .jumpToGuest target
  let tail : Call := .append (List.replicate 8 0x90)
  have hfacts : returned (fun _ w₁ =>
      returned (fun _ w₂ =>
        returned (fun _ w₃ =>
          returned (fun _ a =>
            returned (fun _ a₁ =>
              returned (fun _ a₂ =>
                returned (fun _ w' =>
                  returned (fun _ a' =>
                    (a.offset = 42 ∧ (∀ q ∈ a.segment.table.patched, q.leadsPast 42 = false) ∧
                      a.segment.buffer.address = 0x10000) ∧
                    w'.1.segment.table.pending = [] ∧
                    a.segment.table.pending = [⟨20, 7, .abs64⟩, ⟨34, 9, .abs64⟩] ∧
                    a.literals = [6, 20, 34] ∧
                    a.segment.table.patched = [⟨6, .abs64, 5, .inside 0⟩] ∧
                    a'.segment.buffer.address = 0x20000 ∧
                    a'.segment.table.patched =
                      [⟨6, .abs64, 5, .inside 0⟩, ⟨20, .abs64, 7, .outside 0x1234⟩])
                  (Assembler.truncate 42 w'.1))
                (tail.run (a₂, [])))
              (onSegment ((Destination.inside 42).resolve 9) a₁))
            (onSegment ((Destination.outside 0x1234).resolve 7) a))
          (onSegment ((Destination.inside 0).resolve 5) w₃.1))
        ((jump 9).run w₂))
      ((jump 7).run w₁))
    ((jump 5).run w₀) = true := by decide +kernel
  obtain ⟨r₁, w₁, hx₁, h₁⟩ := exists_of_returned hfacts
  obtain ⟨r₂, w₂, hx₂, h₂⟩ := exists_of_returned h₁
  obtain ⟨r₃, w₃, hx₃, h₃⟩ := exists_of_returned h₂
  obtain ⟨v, a, hx, h₄⟩ := exists_of_returned h₃
  obtain ⟨v₁, a₁, hy₁, h₅⟩ := exists_of_returned h₄
  obtain ⟨v₂, a₂, hy₂, h₆⟩ := exists_of_returned h₅
  obtain ⟨r', w', hx', h₇⟩ := exists_of_returned h₆
  obtain ⟨⟨⟩, a', hcut, h₈⟩ := exists_of_returned h₇
  obtain ⟨⟨hoff, hpast, haddr⟩, hnone, hpending, hliterals, hpatched, haddr', hpatched'⟩ :=
    of_decide_eq_true h₈
  have hunused : buffer.Unused := ⟨rfl, rfl, Config.twoPlaces_unused.supply⟩
  have hw := (((Driven.start (.new hunused)).use (.call hx₁)).use (.call hx₂)).use (.call hx₃)
  have hdriven := hw.use (.resolve hx)
  have huses : Uses (fun _ => True) (a, []) w' :=
    ((Changes.refl.step (fun _ _ => trivial) (.resolve hy₁)).step (fun _ _ => trivial)
      (.resolve hy₂)).step (fun _ _ => trivial) (.call hx')
  rw [← hoff] at hpast
  obtain ⟨a'', added, hcut', -, -, hlit, hpat, -, -, hpen, hblank, hlinked, -⟩ :=
    hdriven.truncate_undoes hpast huses
  simp only [hoff, hliterals, hpatched, hpending] at hcut' hlit hpat hpen
  cases hcut.symm.trans hcut'
  obtain rfl : added = [⟨20, .abs64, 7, .outside 0x1234⟩] :=
    (List.cons.inj (hpatched'.symm.trans hpat)).2.symm
  have hpen' : a'.segment.table.pending = [⟨34, 9, .abs64⟩] := hpen.trans (by decide)
  refine ⟨_, _, w', a', hdriven, hoff, hpast, huses, haddr, hnone, hcut, haddr', hlit, hpatched',
    hpen', hblank ⟨34, 9, .abs64⟩ ?_, hlinked _ ?_⟩
  · rw [hpen']
    exact List.mem_singleton_self _
  · rw [hpatched']
    exact List.mem_cons_self

end HostCode
