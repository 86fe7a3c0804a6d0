import HostCode.Proofs.Emission.Discard

/-! # The same code in two places

Two assemblers can have written the same code and have it at different addresses, and they need
not have moved it at the same time. A call has the same effect on both of them as long as there
is memory for it, because no jump goes out of range when its destination is always in reach.
-/

namespace HostCode

open CodeBuffer Segment

namespace Assembler

variable {a a' b b' : Assembler} {chunk : List UInt8}

theorem getElem?_behind {i : Nat} (h : a.offset ≤ i) : a.segment.buffer.bytes[i]? = none :=
  Array.getElem?_eq_none h

/-- `b` has written the code of `a`. Patched sites may hold different addresses. -/
structure Alike (a b : Assembler) : Prop where
  mode : b.mode = a.mode
  literals : b.literals = a.literals
  offset : b.offset = a.offset
  pending : b.segment.table.pending = a.segment.table.pending
  patched : b.segment.table.patched = a.segment.table.patched
  bytes : ∀ i, (∀ q ∈ a.segment.table.patched, ¬ q.field.Covers i) →
    b.segment.buffer.bytes[i]? = a.segment.buffer.bytes[i]?
  steady : ∀ q ∈ a.segment.table.patched, q.unfailing = true

namespace Alike

theorem of_empty (hmode : b.mode = a.mode) (ha : a.offset = 0) (hb : b.offset = 0)
    (hal : a.literals = []) (hbl : b.literals = [])
    (hap : a.segment.table.pending = []) (hbp : b.segment.table.pending = [])
    (haq : a.segment.table.patched = []) (hbq : b.segment.table.patched = []) : Alike a b where
  mode := hmode
  literals := by rw [hal, hbl]
  offset := by rw [ha, hb]
  pending := by rw [hap, hbp]
  patched := by rw [haq, hbq]
  bytes i _ := by
    rw [getElem?_behind (a := a) (by omega), getElem?_behind (a := b) (by omega)]
  steady := by simp [haq]

theorem not_brittle (h : Alike a b) : ¬ a.segment.Brittle ∧ ¬ b.segment.Brittle := by
  constructor
  · rintro ⟨q, hq, hu⟩
    rw [h.steady q hq] at hu
    cases hu
  · rintro ⟨q, hq, hu⟩
    rw [h.patched] at hq
    rw [h.steady q hq] at hu
    cases hu

theorem wrote (h : Alike a b) (ha : Wrote chunk a a') (hb : Wrote chunk b b') : Alike a' b' where
  mode := by rw [ha.mode, hb.mode, h.mode]
  literals := by rw [ha.literals, hb.literals, h.literals]
  offset := by rw [ha.offset, hb.offset, h.offset]
  pending := by rw [ha.table, hb.table, h.pending]
  patched := by rw [ha.table, hb.table, h.patched]
  bytes i hi := by
    rw [ha.table] at hi
    rcases Nat.lt_or_ge i a.offset with hlt | hge
    · have hdep : ∀ f ∈ dependents a.segment.table.patched, ¬ f.Covers i := by
        intro f hf
        obtain ⟨q, hq, rfl⟩ := List.mem_map.mp (dependents_subset _ hf)
        exact hi q hq
      have hlt' : i < b.offset := h.offset ▸ hlt
      rw [ha.segment.old i hlt hdep, hb.segment.old i hlt' (h.patched ▸ hdep)]
      exact h.bytes i hi
    · rcases Nat.lt_or_ge i (a.offset + chunk.length) with hin | hout
      · have hnew : b'.segment.buffer.field ⟨b.offset, chunk.length⟩ = chunk := hb.segment.new
        rw [h.offset] at hnew
        exact getElem?_eq_of_field_eq (hnew.trans ha.segment.new.symm) ⟨hge, hin⟩
      · rw [← ha.offset] at hout
        have hsame : b'.offset = a'.offset := by rw [ha.offset, hb.offset, h.offset]
        rw [getElem?_behind hout, getElem?_behind (hsame ▸ hout)]
  steady := by rw [ha.table]; exact h.steady

theorem filled (h : Alike a b) {f : Field} {c d : CodeBuffer}
    (ha : Rewrites [f] a.segment.buffer c) (hb : Rewrites [f] b.segment.buffer d)
    (hfield : d.field f = c.field f) :
    Alike { a with segment := { a.segment with buffer := c } }
      { b with segment := { b.segment with buffer := d } } where
  mode := h.mode
  literals := h.literals
  offset := by
    have hoff : b.segment.buffer.length = a.segment.buffer.length := h.offset
    change d.length = c.length
    rw [ha.length, hb.length, hoff]
  pending := h.pending
  patched := h.patched
  bytes i hi := by
    by_cases hcov : f.Covers i
    · exact getElem?_eq_of_field_eq hfield hcov
    · have hout : ∀ g ∈ [f], ¬ g.Covers i := by
        intro g hg
        rw [List.mem_singleton.mp hg]
        exact hcov
      rw [ha.outside i hout, hb.outside i hout]
      exact h.bytes i hi
  steady := h.steady

theorem recorded (h : Alike a b) (target : GuestAddress) :
    Alike (a.recorded target) (b.recorded target) := by
  refine ⟨h.mode, ?_, h.offset, ?_, h.patched, h.bytes, h.steady⟩
  · simp only [Assembler.recorded, h.mode, h.literals, h.offset]
  · simp only [Assembler.recorded, h.mode, h.pending, h.offset]

theorem applied {labels : List Jump} {eff : Effect} {w w' : Writing} (h : Alike a b)
    (ha : eff.Applied (a, labels) w) (hb : eff.Applied (b, labels) w') :
    w'.2 = w.2 ∧ Alike w.1 w'.1 := by
  cases ha with
  | write ha _ =>
    cases hb with
    | write hb _ => exact ⟨rfl, h.wrote ha hb⟩
  | fill ha hfa =>
    cases hb with
    | fill hb hfb => exact ⟨rfl, h.filled ha hb (hfb.trans hfa.symm)⟩
  | branch ha =>
    cases hb with
    | branch hb =>
      obtain ⟨a₁, ha, -, rfl⟩ := ha
      obtain ⟨b₁, hb, -, rfl⟩ := hb
      simp only [h.mode] at hb
      exact ⟨rfl, (h.wrote ha hb).recorded _⟩

theorem resolved (h : Alike a b) {lead : GuestAddress → Option Destination} {new : List Patched}
    {s t : Segment} (ha : Resolved lead new a.segment s) (hb : Resolved lead new b.segment t)
    (hpending : t.table.pending = s.table.pending) (hu : ∀ q ∈ new, q.unfailing = true) :
    Alike { a with segment := s } { b with segment := t } where
  mode := h.mode
  literals := h.literals
  offset := by
    have hoff : b.segment.length = a.segment.length := h.offset
    change t.length = s.length
    rw [ha.length, hb.length, hoff]
  pending := hpending
  patched := by
    change t.table.patched = s.table.patched
    rw [ha.patched, hb.patched, h.patched]
  bytes i hi := by
    change ∀ q ∈ s.table.patched, ¬ q.field.Covers i at hi
    rw [ha.patched] at hi
    have hout : ∀ f ∈ new.map Patched.field, ¬ f.Covers i := by
      intro f hf
      obtain ⟨q, hq, rfl⟩ := List.mem_map.mp hf
      exact hi q (List.mem_append_right _ hq)
    change t.buffer.bytes[i]? = s.buffer.bytes[i]?
    rw [ha.rewrites.outside i hout, hb.rewrites.outside i hout]
    exact h.bytes i fun q hq => hi q (List.mem_append_left _ hq)
  steady := by
    change ∀ q ∈ s.table.patched, q.unfailing = true
    rw [ha.patched]
    intro q hq
    rcases List.mem_append.mp hq with hq | hq
    · exact h.steady q hq
    · exact hu q hq

theorem discarded (h : Alike a b) (ht : a.Tidy) (ha : Discarded a a') (hb : Discarded b b') :
    Alike a' b' := by
  have hpending : b'.segment.table.pending = a'.segment.table.pending := by
    rw [ha.pending, hb.pending, h.offset, reopenedAt, reopenedAt, h.pending, h.patched]
  refine ⟨by rw [ha.mode, hb.mode, h.mode], by rw [ha.literals, hb.literals, h.literals],
    by rw [ha.offset, hb.offset, h.offset], hpending,
    by rw [ha.patched, hb.patched, h.offset, h.patched], fun i hi => ?_, fun q hq => ?_⟩
  · by_cases hcov : ∃ p ∈ a'.segment.table.pending, p.field.Covers i
    · -- what waits is blank in both
      obtain ⟨p, hp, hcov⟩ := hcov
      refine getElem?_eq_of_field_eq (f := p.field) ?_ hcov
      exact (hb.tidy.segment.blank p (hpending ▸ hp)).trans (ha.tidy.segment.blank p hp).symm
    · have hold : ∀ q ∈ a.segment.table.patched, ¬ q.field.Covers i := by
        intro q hq hcovers
        have hsite : q.site < a.offset :=
          Nat.lt_of_lt_of_le (Nat.lt_add_of_pos_right q.kind.size_pos)
            (ht.segment.patched_inside hq)
        have hmem : q ∈ cleared a.offset a.segment.table.patched ++
            retained a.offset a.segment.table.patched :=
          (Truncated.cleared_append_retained ..).mem_iff.mpr
            (List.mem_filter.mpr ⟨hq, decide_eq_true hsite⟩)
        rcases List.mem_append.mp hmem with hq | hq
        · refine hcov ⟨q.reopened, ?_, hcovers⟩
          rw [ha.pending, reopenedAt, List.mem_mergeSort]
          exact List.mem_append_right _ (List.mem_map_of_mem hq)
        · rw [← ha.patched] at hq
          exact hi q hq hcovers
      have hdep : ∀ f ∈ dependents a.segment.table.patched, ¬ f.Covers i := by
        intro f hf
        obtain ⟨q, hq, rfl⟩ := List.mem_map.mp (dependents_subset _ hf)
        exact hold q hq
      have hcleared : ∀ q ∈ cleared a.offset a.segment.table.patched, ¬ q.field.Covers i :=
        fun q hq => hold q (List.mem_filter.mp hq).1
      rcases Nat.lt_or_ge i a.offset with hlt | hge
      · rw [ha.old i hlt hdep hcleared, hb.old i (h.offset ▸ hlt) (h.patched ▸ hdep)
          (by rw [h.offset, h.patched]; exact hcleared)]
        exact h.bytes i hold
      · have hoff := ha.offset
        have hoff' := hb.offset.trans h.offset
        rw [getElem?_behind (a := a') (by omega), getElem?_behind (a := b') (by omega)]
  · rw [ha.patched] at hq
    exact h.steady q (List.mem_filter.mp hq).1

end Alike

end Assembler

open Assembler

/-! ## Emissions -/

/-- The emission does not look at the assembler. -/
inductive Emission.Blind : Emission → Prop
  | done (r : Except Error Unit) : Blind (.done r)
  | panic (f : Fault) : Blind (.panic f)
  | call (c : Call) {next : Except Error Unit → Emission} (h : ∀ r, Blind (next r)) :
    Blind (.call c next)

/-- A list of calls, up to the first that returns an error. -/
def Emission.ofCalls : List Call → Emission
  | [] => .done (.ok ())
  | c :: cs => .call c fun r =>
    match r with
    | .ok () => ofCalls cs
    | .error e => .done (.error e)

theorem Emission.blind_ofCalls (cs : List Call) : (ofCalls cs).Blind := by
  induction cs with
  | nil => exact .done _
  | cons c cs ih =>
    refine .call c fun r => ?_
    cases r with
    | ok u => exact ih
    | error e => exact .done _

def Ending.starved : Ending → Bool
  | broken f => f.ofMemory
  | returned _ | panicked _ => false

variable {a b start start' : Assembler} {labels : List Jump}

/-- A call does the same on both, or one of them has no memory for it. -/
theorem Call.run_alike (h : Alike a b) (ha : Emitting start labels a)
    (hb : Emitting start' labels b) (c : Call) :
    (∃ r w w', c.run (a, labels) = .ok r w ∧ c.run (b, labels) = .ok r w' ∧ w'.2 = w.2 ∧
      Alike w.1 w'.1 ∧ Emitting start w.2 w.1 ∧ Emitting start' w'.2 w'.1) ∨
    (∃ m, c.run (a, labels) = .error (.misuse m) (a, labels) ∧
      c.run (b, labels) = .error (.misuse m) (b, labels)) ∨
    ∃ f w, f.ofMemory = true ∧
      (c.run (a, labels) = .error f w ∨ c.run (b, labels) = .error f w) := by
  obtain ⟨hna, hnb⟩ := h.not_brittle
  have hda := (c.run_does_of_emitting (w := (a, labels)) ha).cases
  have hdb := (c.run_does_of_emitting (w := (b, labels)) hb).cases
  simp only [h.mode, h.offset] at hdb
  rcases hda with ⟨eff, w, he, hx, happ⟩ | ⟨m, he, hx⟩ | ⟨f, a₁, hx, hbroke⟩
  · rcases hdb with ⟨eff', w', he', hx', happ'⟩ | ⟨m, he', hx'⟩ | ⟨f, b₁, hx', hbroke⟩
    · obtain rfl : eff = eff' := Except.ok.inj (he.symm.trans he')
      obtain ⟨hlabels, halike⟩ := h.applied happ happ'
      have hfits := Call.effect_fits he
      refine .inl ⟨_, w, w', hx, hx', hlabels, halike, (ha.applied hfits happ).1, ?_⟩
      exact (hb.applied (by rw [← h.offset] at hfits; exact hfits) happ').1
    · cases he.symm.trans he'
    · exact .inr (.inr ⟨f, _, (hbroke.cause.resolve_right fun hc => hnb hc.2).1, .inr hx'⟩)
  · rcases hdb with ⟨eff', w', he', -⟩ | ⟨m', he', hx'⟩ | ⟨f, b₁, hx', hbroke⟩
    · cases he.symm.trans he'
    · obtain rfl : m = m' := Except.error.inj (he.symm.trans he')
      exact .inr (.inl ⟨m, hx, hx'⟩)
    · exact .inr (.inr ⟨f, _, (hbroke.cause.resolve_right fun hc => hnb hc.2).1, .inr hx'⟩)
  · exact .inr (.inr ⟨f, _, (hbroke.cause.resolve_right fun hc => hna hc.2).1, .inl hx⟩)

/-- An emission that does not look ends in the same way on both, if both have the memory. -/
theorem Emission.run_alike {e : Emission} (he : e.Blind) (h : Alike a b)
    (ha : Emitting start labels a) (hb : Emitting start' labels b)
    (hfa : (e.run (a, labels)).1.starved = false) (hfb : (e.run (b, labels)).1.starved = false) :
    (e.run (b, labels)).1 = (e.run (a, labels)).1 ∧
      Alike (e.run (a, labels)).2.1 (e.run (b, labels)).2.1 := by
  induction he generalizing a b labels with
  | done r => exact ⟨rfl, h⟩
  | panic f => exact ⟨rfl, h⟩
  | call c hnext ih =>
    rw [run] at hfa hfb ⊢
    rw [run]
    rcases c.run_alike h ha hb with
      ⟨r, ⟨a₁, ls⟩, ⟨b₁, ls'⟩, hx, hx', hlabels, halike, ha₁, hb₁⟩ | ⟨m, hx, hx'⟩ |
        ⟨f, w, hf, hx | hx⟩
    · obtain rfl : ls' = ls := hlabels
      simp only [hx, hx'] at hfa hfb ⊢
      exact ih r halike ha₁ hb₁ hfa hfb
    · simp only [hx, hx']
      exact ⟨trivial, h⟩
    · simp only [hx, Ending.starved, hf] at hfa
      cases hfa
    · simp only [hx, Ending.starved, hf] at hfb
      cases hfb

end HostCode
