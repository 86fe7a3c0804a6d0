import HostCode.Proofs.Assembler.Layout

/-! # Jumps of an assembler

What each kind of jump adds to the code and to the tables. A jump to a guest address ends in
a placeholder, which is recorded as soon as it is written.
-/

namespace HostCode

open CodeBuffer

namespace Jump

def field (j : Jump) : Field := ⟨j.site, if j.short then 1 else 4⟩

def ending (stop : Nat) (short : Bool) : Jump := ⟨stop - if short then 1 else 4, short⟩

/-- The displacement that leads to `here`, or that it is too far. -/
def displacement (here : Nat) (j : Jump) : Except Error (List UInt8) :=
  if j.short then
    if Assembler.fitsByte (here - (j.site + 1)) then
      .ok [(Int8.ofInt (here - (j.site + 1))).toUInt8]
    else .error (.jumpRange ⟨j.site, here - (j.site + 1), 8⟩)
  else .ok (littleEndian 4 (Int32.ofInt (here - (j.site + 4))).toUInt32.toNat)

theorem length_displacement {j : Jump} {here : Nat} {chunk : List UInt8}
    (h : j.displacement here = .ok chunk) : chunk.length = j.field.size := by
  unfold displacement at h
  unfold field
  split at h
  · next hs =>
    rw [if_pos hs]
    split at h <;> cases h
    rfl
  · next hs =>
    rw [if_neg hs]
    cases h
    exact length_littleEndian ..

end Jump

namespace Cond

def shortJump (c : Cond) (rel : Int8) : Except Misuse (List UInt8) :=
  c.shortOpcode.map (· ++ [rel.toUInt8])

def nearJump (c : Cond) (rel : Int32) : Except Misuse (List UInt8) :=
  c.nearOpcode.map (· ++ littleEndian 4 rel.toUInt32.toNat)

def backwardJump (here : Nat) (c : Cond) (offset : Int) : Except Misuse (List UInt8) :=
  if here < offset then .error (.notEmitted offset)
  else if Assembler.fitsByte (offset - (here + 2)) then c.shortJump (.ofInt (offset - (here + 2)))
  else c.nearJump (.ofInt (offset - (here + (if c = .always then 5 else 6 : Nat))))

def forwardJump (c : Cond) (short : Bool) : Except Misuse (List UInt8) :=
  if short then c.shortJump 0 else c.nearJump 0

theorem length_forwardJump {c : Cond} {short : Bool} {chunk : List UInt8}
    (h : c.forwardJump short = .ok chunk) : (if short then 1 else 4) ≤ chunk.length := by
  have hmap : ∀ {op : Except Misuse (List UInt8)} {disp : List UInt8},
      op.map (· ++ disp) = .ok chunk → disp.length ≤ chunk.length := by
    intro op disp h
    cases op with
    | error m => cases h
    | ok op => cases h; simp
  cases short with
  | true => exact hmap h
  | false => exact hmap h

end Cond

namespace Assembler

variable {a a' a'' : Assembler} {chunk : List UInt8} {out : Except Misuse (List UInt8)}

/-- The attempt writes the given bytes. Where there are none to write it is refused. -/
def Writes (x : Attempt Assembler Unit) (a : Assembler) : Except Misuse (List UInt8) → Prop
  | .error m => x a = .error (.misuse m) a
  | .ok chunk => Ensures x a (fun _ a' => Wrote chunk a a' ∧ (a.Linked → a'.Linked))
    (fun f a' => Broke f a a')

theorem Writes.congr {x y : Attempt Assembler Unit} (h : Writes y a out) (he : x a = y a) :
    Writes x a out := by
  cases out with
  | error m => exact he.trans h
  | ok chunk =>
    unfold Writes Ensures at h ⊢
    rwa [he]

theorem opcode_then_writes (ha : a.Tidy) (opcode : Except Misuse (List UInt8))
    (disp : List UInt8) :
    Writes (do append (← check opcode); append disp) a (opcode.map (· ++ disp)) := by
  cases opcode with
  | error m => rfl
  | ok op =>
    refine .bind (.pure (append_then ha op fun a' hw hl => ?_))
    refine (append_ensures (hw.tidy ha) disp).imp ?_ fun f a'' hb => hb.of_wrote hw hl ha
    rintro - a'' ⟨hw', hl'⟩
    exact ⟨hw.trans hw' ha, hl' ∘ hl⟩

theorem jumpShort_writes (ha : a.Tidy) (c : Cond) (rel : Int8) :
    Writes (jumpShort c rel) a (c.shortJump rel) :=
  opcode_then_writes ha _ _

theorem jumpNear_writes (ha : a.Tidy) (c : Cond) (rel : Int32) :
    Writes (jumpNear c rel) a (c.nearJump rel) :=
  opcode_then_writes ha _ _

theorem get_bind {α : Type} (k : Assembler → Attempt Assembler α) (a : Assembler) :
    (get >>= k) a = k a a := rfl

theorem jumpBackward_writes (ha : a.Tidy) (c : Cond) (offset : Int) :
    Writes (jumpBackward c offset) a (c.backwardJump a.offset offset) := by
  unfold Cond.backwardJump
  by_cases hlt : (a.offset : Int) < offset
  · rw [if_pos hlt]
    change jumpBackward c offset a = _
    rw [jumpBackward, get_bind, if_pos hlt]
    rfl
  · rw [if_neg hlt]
    by_cases hfit : fitsByte (offset - (a.offset + 2)) = true
    · rw [if_pos hfit]
      refine (jumpShort_writes ha c _).congr ?_
      simp only [jumpBackward, get_bind, if_neg hlt, if_pos hfit]
    · rw [if_neg hfit]
      refine (jumpNear_writes ha c _).congr ?_
      simp only [jumpBackward, get_bind, if_neg hlt, if_neg hfit]

theorem jumpForward_eq (c : Cond) (short : Bool) :
    jumpForward c short = (if short then jumpShort c 0 else jumpNear c 0) >>= fun _ =>
      get >>= fun a => pure (.ending a.offset short) := by
  cases short <;> rfl

theorem jumpForward_ensures (ha : a.Tidy) (c : Cond) (short : Bool) :
    match c.forwardJump short with
    | .error m => jumpForward c short a = .error (.misuse m) a
    | .ok chunk => Ensures (jumpForward c short) a
        (fun j a' => j = .ending (a.offset + chunk.length) short ∧ Wrote chunk a a' ∧
          (a.Linked → a'.Linked))
        (fun f a' => Broke f a a') := by
  have hw : Writes (if short then jumpShort c 0 else jumpNear c 0) a (c.forwardJump short) := by
    cases short with
    | true => exact jumpShort_writes ha c 0
    | false => exact jumpNear_writes ha c 0
  rw [jumpForward_eq]
  cases hc : c.forwardJump short with
  | error m =>
    rw [hc] at hw
    change (if short then jumpShort c 0 else jumpNear c 0) a = _ at hw
    simp only [bind, EStateM.bind, hw]
  | ok chunk =>
    rw [hc] at hw
    refine .bind (hw.imp ?_ fun _ _ => id)
    rintro - a' ⟨hw, hl⟩
    refine .bind (.get (.pure ⟨?_, hw, hl⟩))
    rw [hw.offset]

theorem setJumpTarget_ensures (j : Jump) (hj : j.field.stop ≤ a.offset) :
    match j.displacement a.offset with
    | .error e => setJumpTarget j a = .ok (.error e) a
    | .ok chunk => ∃ b, Rewrites [j.field] a.segment.buffer b ∧ b.field j.field = chunk ∧
        setJumpTarget j a = .ok (.ok ()) { a with segment := { a.segment with buffer := b } } := by
  have hpatch : ∀ chunk : List UInt8, chunk.length = j.field.size →
      ∃ b, Rewrites [j.field] a.segment.buffer b ∧ b.field j.field = chunk ∧
        onSegment (Segment.patch j.site chunk) a =
          .ok () { a with segment := { a.segment with buffer := b } } := by
    intro chunk hc
    obtain ⟨b, hp, hr, hf⟩ := patch_ok hj hc
    have hp' : a.segment.buffer.patch j.site chunk = .ok b := hp
    exact ⟨b, hr, hf, by simp only [onSegment, Segment.patch, hp']⟩
  have hlen := @Jump.length_displacement j a.offset
  unfold Jump.displacement at hlen ⊢
  simp only [setJumpTarget, get_bind]
  split at hlen
  · next hs =>
    simp only [if_pos hs]
    split at hlen
    · next hfit =>
      simp only [if_pos hfit]
      obtain ⟨b, hr, hf, he⟩ := hpatch _ (hlen rfl)
      exact ⟨b, hr, hf, by simp only [bind, EStateM.bind, he]; rfl⟩
    · next hfit =>
      simp only [if_neg hfit]
      rfl
  · next hs =>
    simp only [if_neg hs]
    obtain ⟨b, hr, hf, he⟩ := hpatch _ (hlen rfl)
    exact ⟨b, hr, hf, by simp only [bind, EStateM.bind, he]; rfl⟩

end Assembler

/-! ## Jumps to guest addresses -/

/-- A jump to a guest address in the code. -/
structure Branch where
  start : Nat
  /-- The condition on which the jump is taken, if it is not always. -/
  flag : Option Flag
  target : GuestAddress
  deriving DecidableEq, Repr

namespace Branch

/-- The bytes up to the site. On wide hosts the opposite condition skips the jump. -/
def code (m : AddressingMode) (b : Branch) : List UInt8 :=
  match m.wide, b.flag with
  | true, none => [0xff, 0x25, 0, 0, 0, 0]
  | true, some f => [0x70 + UInt8.ofNat f.opposite.code.toNat, 14, 0xff, 0x25, 0, 0, 0, 0]
  | false, none => [0xe9]
  | false, some f => [0x0f, 0x80 + UInt8.ofNat f.code.toNat]

def site (m : AddressingMode) (b : Branch) : Nat := b.start + (b.code m).length

def stop (m : AddressingMode) (b : Branch) : Nat := b.site m + m.siteKind.size

def pending (m : AddressingMode) (b : Branch) : Pending := ⟨b.site m, b.target, m.siteKind⟩

end Branch

namespace Assembler

variable {a a' a'' : Assembler} {chunk : List UInt8} {b : Branch}

def recorded (target : GuestAddress) (a : Assembler) : Assembler :=
  let site := a.offset - a.mode.siteKind.size
  let t := a.segment.table
  { a with
    literals := if a.mode.wide then insertLiteral site a.literals else a.literals
    segment := { a.segment with table := { t with
      pending := t.pending ++ [⟨site, target, a.mode.siteKind⟩], recorded := t.recorded + 1 } } }

/-- `a'` is `a` with a jump to a guest address written and recorded. -/
def Recorded (b : Branch) (a a' : Assembler) : Prop :=
  ∃ a₁, Wrote (b.code a.mode ++ List.replicate a.mode.siteKind.size 0) a a₁ ∧
    (a.Linked → a₁.Linked) ∧ a' = a₁.recorded b.target

theorem record_eq {s : Segment} (target : GuestAddress) (kind : SiteKind)
    (hk : kind.size ≤ s.length) (hb : s.buffer.Blank ⟨s.length - kind.size, kind.size⟩) :
    Segment.record (s.length - kind.size) target kind s =
      .ok () { s with table := { s.table with
        pending := s.table.pending ++ [⟨s.length - kind.size, target, kind⟩]
        recorded := s.table.recorded + 1 } } := by
  have hsite : ((s.length : Int) - kind.size).toNat = s.length - kind.size := by omega
  have hzero : (s.buffer.slice (s.length - kind.size) kind.size).all (· == 0) = true := by
    have hb' : s.buffer.slice (s.length - kind.size) kind.size = List.replicate kind.size 0 := hb
    simp [hb']
  rw [Segment.record, if_pos (by omega), hsite, if_pos hzero]

theorem Wrote.blank {op : List UInt8} {n : Nat} (h : Wrote (op ++ List.replicate n 0) a a') :
    n ≤ a'.segment.length ∧ a'.segment.buffer.Blank ⟨a'.segment.length - n, n⟩ := by
  have hlen := h.segment.length
  rw [List.length_append, List.length_replicate] at hlen
  have hnew := h.segment.new
  rw [List.length_append, List.length_replicate, field_add] at hnew
  refine ⟨by omega, ?_⟩
  have hop : (a'.segment.buffer.field ⟨a.segment.length, op.length⟩).length = op.length := by
    refine length_field ?_
    change a.segment.length + op.length ≤ a'.segment.length
    omega
  have hz := (List.append_inj hnew hop).2
  rw [show a'.segment.length - n = a.segment.length + op.length by omega]
  exact hz

theorem recordLast_eq (target : GuestAddress) (kind : SiteKind) (a : Assembler) :
    recordLast target kind a =
      onSegment (Segment.record (a.segment.length - kind.size) target kind) a := rfl

theorem near_recorded_ensures (ha : a.Tidy) (hm : a.mode.wide = false) {c : Cond}
    (hc : c.nearOpcode = .ok (b.code a.mode)) :
    Ensures (do jumpNear c 0; recordLast b.target .rel32) a (fun _ a' => Recorded b a a')
      (fun f a' => Broke f a a') := by
  have hw := jumpNear_writes ha c 0
  rw [Cond.nearJump, hc] at hw
  refine .bind (hw.imp ?_ fun _ _ => id)
  rintro - a₁ ⟨hw, hl⟩
  have hkind : a.mode.siteKind = .rel32 := by simp [AddressingMode.siteKind, hm]
  have hw' : Wrote (b.code a.mode ++ List.replicate 4 0) a a₁ := hw
  obtain ⟨hlen, hb⟩ := hw'.blank
  have hr : recordLast b.target .rel32 a₁ = .ok () (a₁.recorded b.target) := by
    rw [recordLast_eq, onSegment, record_eq b.target .rel32 hlen hb]
    simp only [recorded, hw.mode, hm, hkind]
    rfl
  simp only [Ensures, hr]
  exact ⟨a₁, by rw [hkind]; exact hw', hl, rfl⟩

theorem jumpToGuest_ensures (ha : a.Tidy) (start : Nat) (target : GuestAddress) :
    Ensures (jumpToGuest target) a (fun _ a' => Recorded ⟨start, none, target⟩ a a')
      (fun f a' => Broke f a a') := by
  refine .bind (.get ?_)
  cases hm : a.mode.wide with
  | false =>
    refine near_recorded_ensures (b := ⟨start, none, target⟩) (c := .always) ha hm ?_
    simp only [Branch.code, hm]
    rfl
  | true =>
    have hkind : a.mode.siteKind = .abs64 := by simp [AddressingMode.siteKind, hm]
    refine append_then ha _ fun a₁ hw hl => .bind (.get ?_)
    refine .bind ((append_ensures (hw.tidy ha) _).imp ?_ fun f a' hb => hb.of_wrote hw hl ha)
    rintro - a₂ ⟨hw', hl'⟩
    have hw₂ := hw.trans hw' ha
    obtain ⟨hlen, hb⟩ := hw₂.blank
    have hr : recordLast target .abs64
        { a₂ with literals := insertLiteral a₁.offset a₂.literals } =
          .ok () (a₂.recorded target) := by
      have hsite : a₁.offset = a₂.offset - 8 := by
        have := hw'.offset
        simp only [List.length_replicate] at this
        omega
      rw [recordLast_eq, onSegment, record_eq target .abs64 hlen hb]
      simp only [recorded, hw₂.mode, hm, hkind, if_true, hsite]
      rfl
    refine .bind (.modifying ?_)
    simp only [Ensures, hr]
    refine ⟨a₂, ?_, hl' ∘ hl, rfl⟩
    simp only [Branch.code, hm, hkind]
    exact hw₂

theorem branchToGuest_ensures (ha : a.Tidy) (start : Nat) (f : Flag) (target : GuestAddress) :
    Ensures (branchToGuest (.flag f) target) a
      (fun _ a' => Recorded ⟨start, some f, target⟩ a a') (fun f a' => Broke f a a') := by
  refine .bind (.get ?_)
  cases hm : a.mode.wide with
  | false =>
    refine near_recorded_ensures (b := ⟨start, some f, target⟩) (c := .flag f) ha hm ?_
    simp only [Branch.code, hm]
    rfl
  | true =>
    -- the code is that of a jump which is always taken, with one over it in front
    refine .bind ((jumpShort_writes ha (.flag f.opposite) guestJumpLength).imp ?_ fun _ _ => id)
    rintro - a₁ ⟨hw, hl⟩
    refine (jumpToGuest_ensures (hw.tidy ha) start target).imp ?_ ?_
    · rintro - a' ⟨a₂, hw', hl', he⟩
      refine ⟨a₂, ?_, hl' ∘ hl, he⟩
      have hw₂ := hw.trans hw' ha
      simp only [Branch.code, hw.mode, hm] at hw₂ ⊢
      exact hw₂
    · intro f a' hb
      exact hb.of_wrote hw hl ha

end Assembler

end HostCode
