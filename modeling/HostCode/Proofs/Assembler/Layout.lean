import HostCode.Jump
import HostCode.Proofs.Relocation.Resolve

/-! # The tables of an assembler

The sites of an assembler have the kind of its host, and the embedded addresses are the wide
sites among them. Writing bytes keeps this, whether all of them are written or not.
-/

namespace HostCode

open CodeBuffer

def AddressingMode.siteKind (m : AddressingMode) : SiteKind := if m.wide then .abs64 else .rel32

/-- The rules for offsets and sites that a call can break. -/
def Misuse.blamesSites : Misuse → Bool
  | access .. | truncation .. | siteKind _ | siteOutside .. | siteNotZero .. | offsetOutside .. =>
    true
  | notEmitted _ | condition _ | invertAlways | stateBase _ => false

def Fault.blamesSites : Fault → Bool
  | .misuse m => m.blamesSites
  | _ => false

def Request.output (m : AddressingMode) (r : Request) : List UInt8 × Except Error Unit :=
  match Encoding.encode m r with
  | .error e => ([], .error (.encode e))
  | .ok none => ([], .ok ())
  | .ok (some i) => (i.bytes, .ok ())

namespace Assembler

structure Tidy (a : Assembler) : Prop where
  segment : a.segment.Ordered
  pendingKind : ∀ p ∈ a.segment.table.pending, p.kind = a.mode.siteKind
  patchedKind : ∀ q ∈ a.segment.table.patched, q.kind = a.mode.siteKind
  ascending : a.literals.Pairwise (· < ·)
  literals : ∀ l, l ∈ a.literals ↔
    a.mode.wide = true ∧ ∃ f ∈ a.segment.table.fields, f.start = l

def Linked (a : Assembler) : Prop := a.segment.Linked

variable {a a' a'' : Assembler} {chunk chunk' : List UInt8} {f : Fault}
  {Q : Unit → Assembler → Prop} {E : Fault → Assembler → Prop}

theorem Tidy.literal_field (h : a.Tidy) {l : Nat} (hl : l ∈ a.literals) :
    ⟨l, 8⟩ ∈ a.segment.table.fields := by
  obtain ⟨hw, f, hf, rfl⟩ := (h.literals l).mp hl
  have hkind : a.mode.siteKind = .abs64 := by simp [AddressingMode.siteKind, hw]
  have hsize : f.size = 8 := by
    rcases List.mem_append.mp hf with hf | hf
    · obtain ⟨p, hp, rfl⟩ := List.mem_map.mp hf
      rw [Pending.field, h.pendingKind p hp, hkind]
      rfl
    · obtain ⟨q, hq, rfl⟩ := List.mem_map.mp hf
      rw [Patched.field, h.patchedKind q hq, hkind]
      rfl
  rw [← hsize]
  exact hf

theorem Tidy.literal_inside (h : a.Tidy) {l : Nat} (hl : l ∈ a.literals) : l + 8 ≤ a.offset :=
  h.segment.inside _ (h.literal_field hl)

theorem Tidy.literals_apart (h : a.Tidy) : a.literals.Pairwise fun l m => l + 8 ≤ m := by
  refine h.ascending.imp_of_mem fun {l m} hl hm hlt => ?_
  have : Std.Symm Field.Apart := ⟨fun _ _ => Field.Apart.symm⟩
  have hap : Field.Apart ⟨l, 8⟩ ⟨m, 8⟩ :=
    h.segment.apart.forall (h.literal_field hl) (h.literal_field hm) (by simp; omega)
  simp only [Field.Apart, Field.stop] at hap
  omega

theorem Tidy.resolved (h : a.Tidy) {lead : GuestAddress → Option Destination} {new : List Patched}
    {s : Segment} (hr : Segment.Resolved lead new a.segment s) : Tidy { a with segment := s } where
  segment := hr.ordered h.segment
  pendingKind p hp := h.pendingKind p (hr.sublist.subset hp)
  patchedKind q hq := by
    have hq' : q ∈ s.table.patched := hq
    rw [hr.patched] at hq'
    rcases List.mem_append.mp hq' with hq | hq
    · exact h.patchedKind q hq
    · exact h.pendingKind _ (hr.reopened_mem hq)
  ascending := h.ascending
  literals l := by
    simp only [hr.fields_perm.mem_iff]
    exact h.literals l

/-- `a'` is `a` with `chunk` added to its code. -/
structure Wrote (chunk : List UInt8) (a a' : Assembler) : Prop where
  rest : a' = { a with segment := a'.segment }
  segment : a.segment.Wrote chunk a'.segment

namespace Wrote

theorem refl (h : a.Tidy) : Wrote [] a a := ⟨rfl, .refl h.segment⟩

theorem trans (h : Wrote chunk a a') (h' : Wrote chunk' a' a'') (ha : a.Tidy) :
    Wrote (chunk ++ chunk') a a'' := by
  refine ⟨?_, h.segment.trans h'.segment ha.segment⟩
  rw [h'.rest, h.rest]

theorem mode (h : Wrote chunk a a') : a'.mode = a.mode := by rw [h.rest]

theorem literals (h : Wrote chunk a a') : a'.literals = a.literals := by rw [h.rest]

theorem table (h : Wrote chunk a a') : a'.segment.table = a.segment.table := h.segment.table

theorem offset (h : Wrote chunk a a') : a'.offset = a.offset + chunk.length := h.segment.length

theorem offset_le (h : Wrote chunk a a') : a.offset ≤ a'.offset := by
  rw [h.offset]
  exact Nat.le_add_right ..

theorem tidy (h : Wrote chunk a a') (ha : a.Tidy) : a'.Tidy where
  segment := h.segment.ordered ha.segment
  pendingKind := by rw [h.table, h.mode]; exact ha.pendingKind
  patchedKind := by rw [h.table, h.mode]; exact ha.patchedKind
  ascending := by rw [h.literals]; exact ha.ascending
  literals := by rw [h.table, h.mode, h.literals]; exact ha.literals

end Wrote

/-- Writing broke off, for want of memory or because the code moved and a jump went out of
range. The destinations were kept in the first case. -/
structure Broke (f : Fault) (a a' : Assembler) : Prop where
  wrote : ∃ chunk, Wrote chunk a a'
  cause : f.ofMemory = true ∧ (a.Linked → a'.Linked) ∨ (∃ e, f = .jumpRange e) ∧ a.segment.Brittle

namespace Broke

theorem of_wrote (h : Broke f a' a'') (hw : Wrote chunk a a') (hl : a.Linked → a'.Linked)
    (ha : a.Tidy) : Broke f a a'' := by
  obtain ⟨chunk', hw'⟩ := h.wrote
  refine ⟨⟨_, hw.trans hw' ha⟩, h.cause.imp (And.imp_right fun hl' => hl' ∘ hl) ?_⟩
  rintro ⟨he, hb⟩
  rw [Segment.Brittle, hw.table] at hb
  exact ⟨he, hb⟩

theorem blame (h : Broke f a a') : f.blamesSites = false := by
  rcases h.cause with ⟨hf, -⟩ | ⟨⟨e, rfl⟩, -⟩
  · cases f with
    | misuse m => cases hf
    | _ => rfl
  · rfl

theorem linked (h : Broke f a a') : (∃ e, f = .jumpRange e) ∨ (a.Linked → a'.Linked) :=
  h.cause.symm.imp And.left And.right

end Broke

theorem ensures_onSegment {α : Type} {x : Attempt Segment α} {Q : α → Assembler → Prop}
    (h : Ensures x a.segment (fun v s => Q v { a with segment := s })
      (fun f s => E f { a with segment := s })) : Ensures (onSegment x) a Q E := by
  unfold Ensures at h ⊢
  unfold onSegment
  split at h <;> rename_i hx <;> simp only [hx] <;> exact h

theorem append_ensures (ha : a.Tidy) (chunk : List UInt8) :
    Ensures (append chunk) a (fun _ a' => Wrote chunk a a' ∧ (a.Linked → a'.Linked))
      (fun f a' => Broke f a a') := by
  refine ensures_onSegment ((Segment.append_ensures ha.segment chunk).imp ?_ ?_)
  · rintro - s ⟨hw, hl⟩
    exact ⟨⟨rfl, hw⟩, hl⟩
  · rintro f s ⟨hw, hf⟩
    exact ⟨⟨[], rfl, hw⟩, hf⟩

theorem append_then {k : Attempt Assembler Unit} (ha : a.Tidy) (chunk : List UInt8)
    (h : ∀ a', Wrote chunk a a' → (a.Linked → a'.Linked) →
      Ensures k a' Q (fun f a'' => Broke f a a'')) :
    Ensures (append chunk >>= fun _ => k) a Q (fun f a'' => Broke f a a'') := by
  refine .bind ((append_ensures ha chunk).imp ?_ fun _ _ => id)
  rintro - a' ⟨hw, hl⟩
  exact h a' hw hl

/-- The fields of an instruction are written one by one, so what breaks off leaves whole
fields. -/
theorem forM_append_ensures (ha : a.Tidy) (fields : List (List UInt8)) :
    Ensures (fields.forM append) a
      (fun _ a' => Wrote fields.flatten a a' ∧ (a.Linked → a'.Linked))
      (fun f a' => Broke f a a') := by
  induction fields generalizing a with
  | nil => exact ⟨.refl ha, id⟩
  | cons chunk fields ih =>
    refine append_then ha chunk fun a' hw hl => (ih (hw.tidy ha)).imp ?_ ?_
    · rintro - a'' ⟨hw', hl'⟩
      exact ⟨hw.trans hw' ha, hl' ∘ hl⟩
    · intro f a'' hb
      exact hb.of_wrote hw hl ha

theorem encode_ensures (ha : a.Tidy) (r : Request) :
    Ensures (encode r) a
      (fun v a' => v = (r.output a.mode).2 ∧ Wrote (r.output a.mode).1 a a' ∧
        (a.Linked → a'.Linked))
      (fun f a' => Broke f a a') := by
  refine .bind (.get ?_)
  unfold Request.output
  cases Encoding.encode a.mode r with
  | error e => exact .pure ⟨rfl, .refl ha, id⟩
  | ok i =>
    cases i with
    | none => exact .pure ⟨rfl, .refl ha, id⟩
    | some i =>
      refine .bind ((forM_append_ensures ha i.fields).imp ?_ fun _ _ => id)
      rintro - a' ⟨hw, hl⟩
      exact .pure ⟨rfl, hw, hl⟩

end Assembler

end HostCode
