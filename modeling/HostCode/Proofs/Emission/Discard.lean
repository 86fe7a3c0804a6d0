import HostCode.Proofs.Emission.Invariant
import HostCode.Proofs.Relocation.Truncate

/-! # Discarding an emission

Cutting the code off where a block began brings back the tables from before it, but for the
sites that lead to the very place of the cut: those wait again.
-/

namespace HostCode.Assembler

open CodeBuffer Segment

variable {start a a' : Assembler} {labels : List Jump}

/-- `a'` is `start` again, after a block that was begun there and discarded. -/
structure Discarded (start a' : Assembler) : Prop where
  tidy : a'.Tidy
  mode : a'.mode = start.mode
  offset : a'.offset = start.offset
  literals : a'.literals = start.literals
  pending : a'.segment.table.pending = reopenedAt start.offset start.segment.table
  patched : a'.segment.table.patched = retained start.offset start.segment.table.patched
  old : ∀ i < start.offset, (∀ f ∈ dependents start.segment.table.patched, ¬ f.Covers i) →
    (∀ q ∈ cleared start.offset start.segment.table.patched, ¬ q.field.Covers i) →
    a'.segment.buffer.bytes[i]? = start.segment.buffer.bytes[i]?

theorem Tidy.pending_lt (h : a.Tidy) {p : Pending} (hp : p ∈ a.segment.table.pending) :
    p.site < a.offset :=
  Nat.lt_of_lt_of_le (Nat.lt_add_of_pos_right p.kind.size_pos) (h.segment.pending_inside hp)

namespace Emitting

theorem early_pending (h : Emitting start labels a) (hs : start.Tidy) :
    a.segment.table.pending.filter (·.site < start.offset) = start.segment.table.pending := by
  obtain ⟨new, hp, hnew⟩ := h.pending
  rw [hp, List.filter_append, List.filter_eq_self.mpr, List.filter_eq_nil_iff.mpr, List.append_nil]
  · intro p hp
    simpa using hnew p hp
  · intro p hp
    exact decide_eq_true (hs.pending_lt hp)

theorem reopenedAt_eq (h : Emitting start labels a) (hs : start.Tidy) :
    reopenedAt start.offset a.segment.table = reopenedAt start.offset start.segment.table := by
  have hstart : start.segment.table.pending.filter (·.site < start.offset) =
      start.segment.table.pending :=
    List.filter_eq_self.mpr fun p hp => decide_eq_true (hs.pending_lt hp)
  rw [reopenedAt, reopenedAt, h.early_pending hs, h.patched, hstart]

theorem boundary (h : Emitting start labels a) (hs : start.Tidy) :
    Boundary start.offset a.segment := by
  intro f hf hlt
  rcases List.mem_append.mp hf with hf | hf
  · obtain ⟨p, hp, rfl⟩ := List.mem_map.mp hf
    obtain ⟨new, hall, hnew⟩ := h.pending
    rw [hall] at hp
    rcases List.mem_append.mp hp with hp | hp
    · exact hs.segment.pending_inside hp
    · exact absurd hlt (Nat.not_lt_of_le (hnew p hp))
  · obtain ⟨q, hq, rfl⟩ := List.mem_map.mp hf
    rw [h.patched] at hq
    exact hs.segment.patched_inside hq

end Emitting

theorem truncate_eq {n : Nat} {s₁ s' : Segment} (h₁ : truncateSites n a.segment = .ok () s₁)
    (h₂ : truncateBuffer n s₁ = .ok () s') :
    truncate n a = .ok () { a with segment := s', literals := a.literals.filter (· < n) } := by
  simp only [truncate, bind, EStateM.bind, onSegment, h₁, modify_apply, h₂, Int.ofNat_lt]

theorem Tidy.truncated (h : a.Tidy) {n : Nat} (hn : n ≤ a.offset) (hb : Boundary n a.segment)
    {s' : Segment} (ht : Truncated n a.segment s') :
    Tidy { a with segment := s', literals := a.literals.filter (· < n) } where
  segment := ht.ordered h.segment hn hb
  pendingKind p hp := by
    have hp' : p ∈ s'.table.pending := hp
    rw [ht.pending, reopenedAt, List.mem_mergeSort] at hp'
    rcases List.mem_append.mp hp' with hp | hp
    · exact h.pendingKind p (List.mem_filter.mp hp).1
    · obtain ⟨q, hq, rfl⟩ := List.mem_map.mp hp
      exact h.patchedKind q (List.mem_filter.mp hq).1
  patchedKind q hq := by
    have hq' : q ∈ s'.table.patched := hq
    rw [ht.patched] at hq'
    exact h.patchedKind q (List.mem_filter.mp hq').1
  ascending := h.ascending.sublist List.filter_sublist
  literals l := by
    simp only [List.mem_filter, decide_eq_true_eq, ht.mem_fields, h.literals]
    constructor
    · rintro ⟨⟨hw, f, hf, rfl⟩, hlt⟩
      exact ⟨hw, f, ⟨hf, hlt⟩, rfl⟩
    · rintro ⟨hw, f, ⟨hf, hlt⟩, rfl⟩
      exact ⟨⟨hw, f, hf, rfl⟩, hlt⟩

/-- A block can be discarded at any point of its emission. -/
theorem Emitting.exists_discarded (h : Emitting start labels a) (hs : start.Tidy) :
    ∃ a', truncate start.offset a = .ok () a' ∧ Discarded start a' ∧ (a.Linked → a'.Linked) := by
  have hb := h.boundary hs
  obtain ⟨s₁, s', h₁, h₂, ht⟩ := exists_truncated h.tidy.segment h.grown hb
  refine ⟨_, truncate_eq h₁ h₂, ⟨h.tidy.truncated h.grown hb ht, h.mode, ht.length, h.literals,
    ?_, ?_, fun i hi hd hc => ?_⟩, ht.linked h.tidy.segment hb⟩
  · rw [← h.reopenedAt_eq hs]
    exact ht.pending
  · rw [← h.patched]
    exact ht.patched
  · refine (ht.old i hi ?_).trans (h.old i hi hd)
    rw [h.patched]
    exact hc

end HostCode.Assembler
