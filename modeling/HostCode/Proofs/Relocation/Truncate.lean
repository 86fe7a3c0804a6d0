import HostCode.Proofs.Relocation.Layout

/-! # Cutting a segment off

Cutting the code off at an offset that no site reaches across forgets the sites behind it, and
takes back those before it that lead there. If none does, the sites before it stay as they are.
-/

namespace HostCode.Segment

open CodeBuffer

variable {s s' : Segment} {n : Nat}

/-- No site reaches across the offset `n`. -/
def Boundary (n : Nat) (s : Segment) : Prop := ∀ f ∈ s.table.fields, f.start < n → f.stop ≤ n

def reopenedAt (n : Nat) (t : RelocationTable) : List Pending :=
  (t.pending.filter (·.site < n) ++ (cleared n t.patched).map Patched.reopened).mergeSort
    fun p q => p.site ≤ q.site

/-- `s'` is `s` cut off at `n`. -/
structure Truncated (n : Nat) (s s' : Segment) : Prop where
  rest : s'.buffer = { s.buffer with bytes := s'.buffer.bytes }
  length : s'.length = n
  pending : s'.table.pending = reopenedAt n s.table
  patched : s'.table.patched = retained n s.table.patched
  old : ∀ i < n, (∀ q ∈ cleared n s.table.patched, ¬ q.field.Covers i) →
    s'.buffer.bytes[i]? = s.buffer.bytes[i]?
  blank : ∀ q ∈ cleared n s.table.patched, s'.buffer.Blank q.field

/-- Cutting the sites off and then the code never breaks off. -/
theorem exists_truncated (hs : s.Ordered) (hn : n ≤ s.length) (hb : Boundary n s) :
    ∃ s₁ s', truncateSites n s = .ok () s₁ ∧ truncateBuffer n s₁ = .ok () s' ∧
      Truncated n s s' := by
  obtain ⟨hk, hc, hst, hr, hblank⟩ := truncatePass_spec n s.table.patched s.buffer
    (fun p hp => hs.patched_inside hp) hs.patched_apart
  have hlen : n ≤ (truncatePass n s.buffer s.table.patched).buffer.length := hr.length ▸ hn
  have hcleared : ∀ q ∈ cleared n s.table.patched, q.field.stop ≤ n := by
    intro q hq
    obtain ⟨hq, hs⟩ := List.mem_filter.mp hq
    refine hb _ (List.mem_append_right _ (List.mem_map_of_mem hq)) ?_
    simp only [Bool.and_eq_true, decide_eq_true_eq] at hs
    exact hs.1
  let s₁ : Segment := { s with
    buffer := (truncatePass n s.buffer s.table.patched).buffer
    table := { s.table with
      pending := reopenedAt n s.table, patched := retained n s.table.patched } }
  have h₁ : truncateSites n s = .ok () s₁ := by
    simp only [truncateSites, hst, Pass.remaining, hk, hc, Int.ofNat_lt]
    rfl
  have h₂ : truncateBuffer n s₁ =
      .ok () { s₁ with buffer := { s₁.buffer with bytes := s₁.buffer.bytes.take n } } := by
    simp only [truncateBuffer]
    rw [truncate_eq hlen]
  refine ⟨s₁, _, h₁, h₂, ?_, ?_, rfl, rfl, fun i hi hcov => ?_, fun q hq => ?_⟩
  · simp only [s₁]
    rw [hr.rest]
  · simp only [Segment.length, CodeBuffer.length, Array.take_eq_extract, Array.size_extract,
      Nat.sub_zero]
    exact Nat.min_eq_left hlen
  · rw [getElem?_take, if_pos hi]
    refine hr.outside i fun f hf => ?_
    obtain ⟨q, hq, rfl⟩ := List.mem_map.mp hf
    exact hcov q hq
  · rw [Blank, field_take (hcleared q hq)]
    exact hblank q hq

namespace Truncated

theorem cleared_append_retained (n : Nat) (ss : List Patched) :
    (cleared n ss ++ retained n ss).Perm (ss.filter (·.site < n)) := by
  have h := List.filter_append_perm (·.leadsPast n) (ss.filter (·.site < n))
  rw [List.filter_filter, List.filter_filter] at h
  simpa only [cleared, retained, Bool.and_comm] using h

/-- The sites of a cut segment, in the order in which they were before. -/
theorem fields_perm (h : Truncated n s s') :
    s'.table.fields.Perm ((s.table.pending.filter (·.site < n)).map Pending.field ++
      (s.table.patched.filter (·.site < n)).map Patched.field) := by
  have hp := (List.mergeSort_perm (s.table.pending.filter (·.site < n) ++
    (cleared n s.table.patched).map Patched.reopened) fun p q => p.site ≤ q.site).map Pending.field
  rw [List.map_append, List.map_map] at hp
  have hq := (cleared_append_retained n s.table.patched).map Patched.field
  rw [List.map_append] at hq
  unfold RelocationTable.fields
  rw [h.pending, h.patched]
  refine (hp.append_right _).trans ?_
  rw [List.append_assoc]
  exact hq.append_left _

theorem fields_sublist (n : Nat) (t : RelocationTable) :
    ((t.pending.filter (·.site < n)).map Pending.field ++
      (t.patched.filter (·.site < n)).map Patched.field).Sublist t.fields :=
  (List.filter_sublist.map _).append (List.filter_sublist.map _)

theorem fields_apart (h : Truncated n s s') (hs : s.Ordered) :
    s'.table.fields.Pairwise Field.Apart :=
  (h.fields_perm.pairwise_iff Field.Apart.symm).mpr
    (hs.apart.sublist (fields_sublist n s.table))

theorem mem_fields (h : Truncated n s s') {f : Field} :
    f ∈ s'.table.fields ↔ f ∈ s.table.fields ∧ f.start < n := by
  rw [h.fields_perm.mem_iff]
  simp only [RelocationTable.fields, List.mem_append, List.mem_map, List.mem_filter,
    decide_eq_true_eq]
  constructor
  · rintro (⟨p, ⟨hp, hlt⟩, rfl⟩ | ⟨q, ⟨hq, hlt⟩, rfl⟩)
    · exact ⟨.inl ⟨p, hp, rfl⟩, hlt⟩
    · exact ⟨.inr ⟨q, hq, rfl⟩, hlt⟩
  · rintro ⟨⟨p, hp, rfl⟩ | ⟨q, hq, rfl⟩, hlt⟩
    · exact .inl ⟨p, ⟨hp, hlt⟩, rfl⟩
    · exact .inr ⟨q, ⟨hq, hlt⟩, rfl⟩

theorem ordered (h : Truncated n s s') (hs : s.Ordered) (hn : n ≤ s.length)
    (hb : Boundary n s) : s'.Ordered where
  sane := by
    have hsane := hs.sane
    refine ⟨?_, ?_, ?_⟩
    · rw [h.rest]
      exact Nat.le_trans (Nat.le_of_eq h.length) (Nat.le_trans hn hsane.fits)
    · rw [h.rest]; exact hsane.based
    · rw [h.rest]; exact hsane.supply
  apart := h.fields_apart hs
  inside f hf := by
    obtain ⟨hm, hlt⟩ := h.mem_fields.mp hf
    rw [h.length]
    exact hb f hm hlt
  ascending := by
    have hle : s'.table.pending.Pairwise fun p q => p.site ≤ q.site := by
      rw [h.pending]
      have hsort := @List.pairwise_mergeSort Pending (fun p q => decide (p.site ≤ q.site))
        (fun _ _ _ hab hbc => by simp only [decide_eq_true_eq] at *; omega)
        (fun _ _ => by simp only [Bool.or_eq_true, decide_eq_true_eq]; omega)
        (s.table.pending.filter (·.site < n) ++ (cleared n s.table.patched).map Patched.reopened)
      exact hsort.imp of_decide_eq_true
    have hap := List.pairwise_map.mp (List.pairwise_append.mp (h.fields_apart hs)).1
    refine hle.imp₂ (fun p q hpq hne => ?_) hap
    have hp := p.kind.size_pos
    have hq := q.kind.size_pos
    simp only [Field.Apart, Field.stop, Pending.field] at hne
    omega
  blank p hp := by
    rw [h.pending, reopenedAt, List.mem_mergeSort] at hp
    rcases List.mem_append.mp hp with hp | hp
    · obtain ⟨hp, hlt⟩ := List.mem_filter.mp hp
      have hstop := hb _ (List.mem_append_left _ (List.mem_map_of_mem hp)) (of_decide_eq_true hlt)
      rw [Blank, field_congr (c := s.buffer)]
      · exact hs.blank p hp
      · intro i hi
        refine h.old i (Nat.lt_of_lt_of_le hi.2 hstop) fun q hq => ?_
        exact (hs.apart_of_mem hp (List.mem_filter.mp hq).1).not_covers hi
    · obtain ⟨q, hq, rfl⟩ := List.mem_map.mp hp
      exact h.blank q hq

theorem linked (h : Truncated n s s') (hs : s.Ordered) (hb : Boundary n s) (hl : s.Linked) :
    s'.Linked := by
  intro p hp
  rw [h.patched] at hp
  obtain ⟨hp, hlt⟩ := List.mem_filter.mp hp
  simp only [Bool.and_eq_true, decide_eq_true_eq, Bool.not_eq_true'] at hlt
  obtain ⟨hlt, hpast⟩ := hlt
  have hstop := hb _ (List.mem_append_right _ (List.mem_map_of_mem hp)) hlt
  have haddr : s'.buffer.address = s.buffer.address := by rw [h.rest]; rfl
  rw [Holds, haddr, field_congr (c := s.buffer)]
  · exact hl p hp
  · intro i hi
    refine h.old i (Nat.lt_of_lt_of_le hi.2 hstop) fun q hq => ?_
    obtain ⟨hq, hqp⟩ := List.mem_filter.mp hq
    refine (hs.patched_apart_of_ne hp hq ?_).not_covers hi
    rintro rfl
    simp [hpast] at hqp

end Truncated

theorem reopenedAt_of_cleared_nil (hs : s.Ordered) (hc : cleared n s.table.patched = []) :
    reopenedAt n s.table = s.table.pending.filter (·.site < n) := by
  rw [reopenedAt, hc, List.map_nil, List.append_nil]
  apply List.mergeSort_of_pairwise
  refine (hs.ascending.sublist List.filter_sublist).imp fun hlt => ?_
  exact decide_eq_true (Nat.le_of_lt hlt)

end HostCode.Segment
