import Mathlib.Data.List.Pairwise
import HostCode.Proofs.Attempt
import HostCode.Proofs.Relocation.Pass

/-! # The layout of a segment

The sites of a segment lie apart, and inside of the code. Adding bytes leaves them there: a
move of the buffer writes the sites that depend on its base again, and nothing else.
-/

namespace HostCode

open CodeBuffer

def RelocationTable.fields (t : RelocationTable) : List Field :=
  t.pending.map Pending.field ++ t.patched.map Patched.field

theorem RelocationTable.size_pos {t : RelocationTable} {f : Field} (hf : f ∈ t.fields) :
    0 < f.size := by
  rcases List.mem_append.mp hf with hf | hf
  · obtain ⟨p, -, rfl⟩ := List.mem_map.mp hf
    exact p.kind.size_pos
  · obtain ⟨q, -, rfl⟩ := List.mem_map.mp hf
    exact q.kind.size_pos

def Fault.ofMemory : Fault → Bool
  | .allocation _ | .outOfRange => true
  | .misuse _ | .jumpRange _ => false

namespace Segment

/-- The sites lie apart, and inside of the code. -/
structure Placed (s : Segment) : Prop where
  apart : s.table.fields.Pairwise Field.Apart
  inside : ∀ f ∈ s.table.fields, f.stop ≤ s.length

/-- The sites that wait are blank and in order, too. -/
structure Ordered (s : Segment) : Prop extends Placed s where
  sane : s.buffer.Sane
  ascending : s.table.pending.Pairwise fun p q => p.site < q.site
  blank : ∀ p ∈ s.table.pending, s.buffer.Blank p.field

/-- Every patched site leads to its destination. -/
def Linked (s : Segment) : Prop := ∀ p ∈ s.table.patched, s.buffer.Holds p

variable {s s' s'' : Segment} {chunk chunk' : List UInt8} {f : Field}

namespace Placed

theorem patched_inside (h : s.Placed) {p : Patched} (hp : p ∈ s.table.patched) :
    p.field.stop ≤ s.length :=
  h.inside _ (List.mem_append_right _ (List.mem_map_of_mem hp))

theorem pending_inside (h : s.Placed) {p : Pending} (hp : p ∈ s.table.pending) :
    p.field.stop ≤ s.length :=
  h.inside _ (List.mem_append_left _ (List.mem_map_of_mem hp))

theorem pending_apart (h : s.Placed) : (s.table.pending.map Pending.field).Pairwise Field.Apart :=
  (List.pairwise_append.mp h.apart).1

theorem patched_apart (h : s.Placed) : (s.table.patched.map Patched.field).Pairwise Field.Apart :=
  (List.pairwise_append.mp h.apart).2.1

theorem patched_apart_of_ne (h : s.Placed) {p q : Patched} (hp : p ∈ s.table.patched)
    (hq : q ∈ s.table.patched) (hne : p ≠ q) : p.field.Apart q.field := by
  have : Std.Symm fun p q : Patched => p.field.Apart q.field := ⟨fun _ _ => Field.Apart.symm⟩
  exact (List.pairwise_map.mp h.patched_apart).forall hp hq hne

-- A site that is listed twice would overlap with itself.

theorem pending_nodup (h : s.Placed) : s.table.pending.Nodup := by
  refine (List.pairwise_map.mp h.pending_apart).imp ?_
  rintro p _ hap rfl
  exact Nat.ne_of_gt p.kind.size_pos hap.size_eq_zero

theorem patched_nodup (h : s.Placed) : s.table.patched.Nodup := by
  refine (List.pairwise_map.mp h.patched_apart).imp ?_
  rintro q _ hap rfl
  exact Nat.ne_of_gt q.kind.size_pos hap.size_eq_zero

theorem apart_of_mem (h : s.Placed) {p : Pending} {q : Patched} (hp : p ∈ s.table.pending)
    (hq : q ∈ s.table.patched) : p.field.Apart q.field :=
  (List.pairwise_append.mp h.apart).2.2 _ (List.mem_map_of_mem hp) _ (List.mem_map_of_mem hq)

theorem dependents_inside (h : s.Placed) (hf : f ∈ dependents s.table.patched) :
    f.stop ≤ s.length :=
  h.inside f (List.mem_append_right _ (dependents_subset _ hf))

theorem pending_apart_dependents (h : s.Placed) {p : Pending} (hp : p ∈ s.table.pending)
    (hf : f ∈ dependents s.table.patched) : p.field.Apart f :=
  (List.pairwise_append.mp h.apart).2.2 _ (List.mem_map_of_mem hp) _ (dependents_subset _ hf)

theorem patched_apart_dependents (h : s.Placed) {p : Patched} (hp : p ∈ s.table.patched)
    (hd : p.dependsOnBase = false) (hf : f ∈ dependents s.table.patched) : p.field.Apart f := by
  obtain ⟨q, hq, rfl⟩ := List.mem_map.mp hf
  obtain ⟨hq, hqd⟩ := List.mem_filter.mp hq
  refine h.patched_apart_of_ne hp hq ?_
  rintro rfl
  cases hd.symm.trans hqd

theorem of_longer (h : s.Placed) (ht : s'.table = s.table) (hl : s.length ≤ s'.length) :
    s'.Placed where
  apart := ht ▸ h.apart
  inside f hf := Nat.le_trans (h.inside f (ht ▸ hf)) hl

/-- Sites in memory that has no address yet would lie outside of the code. -/
theorem patched_eq_nil (h : s.Placed) (hl : s.length = 0) : s.table.patched = [] := by
  apply List.eq_nil_iff_forall_not_mem.mpr
  intro p hp
  have hin := h.patched_inside hp
  have hpos := p.kind.size_pos
  simp only [Field.stop, Patched.field] at hin
  omega

end Placed

/-- `s'` is `s` with `chunk` added, and at most its sites that depend on the base rewritten. -/
structure Extends (chunk : List UInt8) (s s' : Segment) : Prop where
  table : s'.table = s.table
  length : s'.length = s.length + chunk.length
  old : ∀ i < s.length, (∀ f ∈ dependents s.table.patched, ¬ f.Covers i) →
    s'.buffer.bytes[i]? = s.buffer.bytes[i]?
  new : s'.buffer.field ⟨s.length, chunk.length⟩ = chunk

namespace Extends

theorem refl (s : Segment) : Extends [] s s where
  table := rfl
  length := rfl
  old _ _ _ := rfl
  new := List.eq_nil_of_length_eq_zero (length_field (Nat.le_refl _))

theorem field_eq (h : Extends chunk s s') (hf : f.stop ≤ s.length)
    (hap : ∀ g ∈ dependents s.table.patched, f.Apart g) : s'.buffer.field f = s.buffer.field f :=
  field_congr fun i hi => h.old i (Nat.lt_of_lt_of_le hi.2 hf) fun g hg => (hap g hg).not_covers hi

theorem trans (h : Extends chunk s s') (h' : Extends chunk' s' s'')
    (hin : ∀ f ∈ dependents s.table.patched, f.stop ≤ s.length) :
    Extends (chunk ++ chunk') s s'' where
  table := h'.table.trans h.table
  length := by rw [h'.length, h.length, List.length_append, Nat.add_assoc]
  old i hi hd := by
    have hi' : i < s'.length := by rw [h.length]; omega
    rw [h'.old i hi' (by rw [h.table]; exact hd), h.old i hi hd]
  new := by
    -- the bytes of the first part lie behind every site, so the second write keeps them
    have hfirst : s''.buffer.field ⟨s.length, chunk.length⟩ = chunk := by
      rw [h'.field_eq (f := ⟨s.length, chunk.length⟩) (Nat.le_of_eq h.length.symm), h.new]
      intro g hg
      rw [h.table] at hg
      exact .inr (hin g hg)
    have hsecond : s''.buffer.field ⟨s.length + chunk.length, chunk'.length⟩ = chunk' := by
      rw [← h.length]
      exact h'.new
    rw [List.length_append, field_add, hfirst, hsecond]

end Extends

/-- `s'` is `s` with `chunk` added, and in memory that is as it should be. -/
structure Wrote (chunk : List UInt8) (s s' : Segment) : Prop extends Extends chunk s s' where
  sane : s'.buffer.Sane

namespace Wrote

theorem refl (h : s.Ordered) : Wrote [] s s := ⟨.refl s, h.sane⟩

theorem ordered (h : Wrote chunk s s') (hs : s.Ordered) : s'.Ordered where
  toPlaced := hs.of_longer h.table (h.length ▸ Nat.le_add_right ..)
  sane := h.sane
  ascending := by rw [h.table]; exact hs.ascending
  blank p hp := by
    rw [h.table] at hp
    rw [Blank, h.field_eq (hs.pending_inside hp) fun g hg => hs.pending_apart_dependents hp hg]
    exact hs.blank p hp

theorem trans (h : Wrote chunk s s') (h' : Wrote chunk' s' s'') (hs : s.Ordered) :
    Wrote (chunk ++ chunk') s s'' :=
  ⟨h.toExtends.trans h'.toExtends fun _ => hs.dependents_inside, h'.sane⟩

end Wrote

/-- A move of the code can put a site out of reach. -/
def Brittle (s : Segment) : Prop := ∃ q ∈ s.table.patched, q.unfailing = false

/-- How adding bytes can go wrong: the bytes are not there, and if no jump went out of range
then the sites are as good as before. -/
def Stopped (f : Fault) (s s' : Segment) : Prop :=
  Wrote [] s s' ∧
    (f.ofMemory = true ∧ (s.Linked → s'.Linked) ∨ (∃ e, f = .jumpRange e) ∧ s.Brittle)

section Append

variable {b b' : CodeBuffer}

theorem extends_push (hb : b.bytes = s.buffer.bytes)
    (hr : Rewrites (dependents s.table.patched) b b') (m : List Move) :
    Extends chunk s { s with buffer := b'.push chunk, moves := m } := by
  have hlen : b'.length = s.length := by rw [hr.length, CodeBuffer.length, hb]; rfl
  refine ⟨rfl, ?_, fun i hi hd => ?_, ?_⟩
  · exact (length_push ..).trans (by rw [hlen])
  · rw [getElem?_push, if_pos (by omega), hr.outside i hd, hb]
  · rw [← hlen]
    exact field_push_end ..

theorem extends_nothing (hb : b.bytes = s.buffer.bytes)
    (hr : Rewrites (dependents s.table.patched) b b') : Extends [] s { s with buffer := b' } := by
  have hlen : b'.length = s.length := by rw [hr.length, CodeBuffer.length, hb]; rfl
  refine ⟨rfl, hlen, fun i _ hd => ?_, ?_⟩
  · rw [hr.outside i hd, hb]
  · exact List.eq_nil_of_length_eq_zero (length_field (Nat.le_of_eq hlen.symm))

theorem wrote_push (hb : Housed s.buffer b) (hr : Rewrites (dependents s.table.patched) b b')
    (hroom : s.length + chunk.length ≤ b.capacity) (m : List Move) :
    Wrote chunk s { s with buffer := b'.push chunk, moves := m } := by
  have hlen : b'.length = s.length := by rw [hr.length, CodeBuffer.length, hb.bytes]; rfl
  have hsane := hr.sane hb.sane
  refine ⟨extends_push hb.bytes hr m, ?_, hsane.based, hsane.supply⟩
  rw [length_push, hlen]
  exact Nat.le_trans hroom (Nat.le_of_eq hr.capacity.symm)

theorem wrote_nothing (hb : Housed s.buffer b) (hr : Rewrites (dependents s.table.patched) b b') :
    Wrote [] s { s with buffer := b' } :=
  ⟨extends_nothing hb.bytes hr, hr.sane hb.sane⟩

theorem Housed.holds (hb : Housed s.buffer b) (ha : b.address = s.buffer.address) {p : Patched}
    (hp : s.buffer.Holds p) : b.Holds p := by
  rw [Holds, ha, field_congr (c := s.buffer) fun i _ => by rw [hb.bytes]]
  exact hp

theorem holds_push {p : Patched} (hp : b.Holds p) (hin : p.field.stop ≤ b.length)
    (chunk : List UInt8) : (b.push chunk).Holds p := by
  rw [Holds, field_push chunk hin]
  exact hp

/-- After a move, the sites that depend on the base have been written again, and the others
did not need it. -/
theorem holds_rebased (hs : s.Ordered) (hl : s.Linked) (hb : Housed s.buffer b)
    (hr : Rewrites (dependents s.table.patched) b b')
    (hd : ∀ p ∈ s.table.patched, p.dependsOnBase = true → b'.Holds p) {p : Patched}
    (hp : p ∈ s.table.patched) : b'.Holds p := by
  cases hpd : p.dependsOnBase with
  | true => exact hd p hp hpd
  | false =>
    rw [Holds, Patched.content_of_not_dependsOnBase hpd b'.address s.buffer.address,
      hr.field_eq fun _ => hs.patched_apart_dependents hp hpd,
      field_congr (c := s.buffer) fun i _ => by rw [hb.bytes]]
    exact hl p hp

theorem append_ensures (hs : s.Ordered) (chunk : List UInt8) :
    Ensures (append chunk) s (fun _ s' => Wrote chunk s s' ∧ (s.Linked → s'.Linked))
      (fun f s' => Stopped f s s') := by
  rcases reserve_cases hs.sane chunk.length with
    ⟨f, b, hres, hb, ha, hf⟩ | ⟨b, hres, hb, hroom, ha⟩ | ⟨m, b, hres, hb, hroom⟩
  · simp only [Ensures, append, hres]
    refine ⟨wrote_nothing hb (.refl _ _), .inl ⟨?_, fun hl p hp => Housed.holds hb ha (hl p hp)⟩⟩
    rcases hf with ⟨e, rfl⟩ | rfl <;> rfl
  · simp only [Ensures, append, hres]
    refine ⟨wrote_push hb (.refl _ _) hroom s.moves, fun hl p hp => ?_⟩
    rcases ha with ha | hzero
    · refine holds_push (Housed.holds hb ha (hl p hp)) ?_ chunk
      rw [CodeBuffer.length, hb.bytes]
      exact hs.patched_inside hp
    · rw [hs.patched_eq_nil hzero] at hp
      cases hp
  · have hlen : b.length = s.length := by rw [CodeBuffer.length, hb.bytes]; rfl
    obtain ⟨hr, ⟨⟨e, he⟩, hu⟩ | ⟨hn, hd⟩⟩ := rebasePass_spec s.table.patched b
      (fun p hp => hlen ▸ hs.patched_inside hp) hs.patched_apart
    · rcases hpass : rebasePass b s.table.patched with ⟨b', stop⟩
      rw [hpass] at hr he
      obtain rfl : stop = some (.jumpRange e) := he
      simp only [Ensures, append, hres, hpass]
      exact ⟨wrote_nothing hb hr, .inr ⟨⟨e, rfl⟩, hu⟩⟩
    · rcases hpass : rebasePass b s.table.patched with ⟨b', stop⟩
      rw [hpass] at hr hn hd
      obtain rfl : stop = none := hn
      simp only [Ensures, append, hres, hpass]
      refine ⟨wrote_push hb hr hroom _, fun hl p hp => ?_⟩
      refine holds_push (holds_rebased hs hl hb hr hd hp) ?_ chunk
      rw [hr.length, hlen]
      exact hs.patched_inside hp

end Append

end Segment

end HostCode
