import HostCode.Proofs.Emission.Discard
import HostCode.Proofs.Listing.Forms
import HostCode.Proofs.Session.Branches

/-! # What calls add to a listing

Each call of an assembler, but for one that writes raw bytes, writes one instruction or a jump to a
guest address. Of such an instruction a part can be written again later: the displacement of a
forward jump, or the site of a jump to a guest address. What is written before it stays.
-/

namespace HostCode

open CodeBuffer Segment Assembler

/-- A line of a listing as a call writes it: the bytes that stay, and how many bytes come behind
them that can be written again. -/
structure Part where
  start : Nat
  stem : List UInt8
  hole : Nat
  content : Listing.Content
  deriving DecidableEq, Repr

namespace Part

def fixed (p : Part) : Field := ⟨p.start, p.stem.length⟩

def gap (p : Part) : Field := ⟨p.start + p.stem.length, p.hole⟩

def stop (p : Part) : Nat := p.start + p.stem.length + p.hole

def line (b : CodeBuffer) (p : Part) : Listing.Line :=
  ⟨p.start, p.stem ++ b.field p.gap, p.content⟩

/-- The part is an instruction whatever is written behind the bytes that stay, or an embedded
address. -/
def Sound (wide : Bool) (p : Part) : Prop :=
  match p.content with
  | .instruction => ∀ disp : List UInt8, disp.length = p.hole → Form wide (p.stem ++ disp)
  | .data => p.stem = [] ∧ p.hole = 8
  | .bad => False

end Part

/-- The lines of a jump to a guest address. On wide hosts the address is a line of its own, and so
is the jump that skips it on the opposite condition. -/
def Branch.parts (m : AddressingMode) (b : Branch) : List Part :=
  match m.wide, b.flag with
  | false, _ => [⟨b.start, b.code m, 4, .instruction⟩]
  | true, none =>
    [⟨b.start, [0xff, 0x25, 0, 0, 0, 0], 0, .instruction⟩, ⟨b.start + 6, [], 8, .data⟩]
  | true, some f =>
    [⟨b.start, [0x70 + UInt8.ofNat f.opposite.code.toNat, 14], 0, .instruction⟩,
      ⟨b.start + 2, [0xff, 0x25, 0, 0, 0, 0], 0, .instruction⟩, ⟨b.start + 8, [], 8, .data⟩]

def Effect.parts (m : AddressingMode) (here : Nat) : Effect → List Part
  | write chunk [] _ => if chunk = [] then [] else [⟨here, chunk, 0, .instruction⟩]
  | write chunk (j :: _) _ =>
    [⟨here, chunk.take (chunk.length - j.field.size), j.field.size, .instruction⟩]
  | fill .. => []
  | branch b => b.parts m

def Call.parts (m : AddressingMode) (here : Nat) (labels : List Jump) (c : Call) : List Part :=
  match c.effect m here labels with
  | .ok eff => eff.parts m here
  | .error _ => []

namespace Part

/-- The parts follow each other from `i` to `j`. -/
def Tiled : Nat → List Part → Nat → Prop
  | i, [], j => i = j
  | i, p :: ps, j => p.start = i ∧ Tiled p.stop ps j

def embedded (ps : List Part) : List Nat := (ps.filter (·.content = .data)).map (·.start)

/-- The first part, if there is one, begins with bytes that stay. -/
def Led (ps : List Part) : Prop := ∀ p ∈ ps.head?, p.stem ≠ []

end Part

/-! ## One call -/

/-- What a call does that does not write raw bytes. -/
inductive Effect.Proper (m : AddressingMode) (here : Nat) : Effect → Prop
  | nothing {r : Except Error Unit} : Proper m here (.write [] [] r)
  | instruction {chunk : List UInt8} {r : Except Error Unit} (form : Form m.wide chunk) :
    Proper m here (.write chunk [] r)
  | jump {op : List UInt8} {j : Jump} {r : Except Error Unit} (hj : j.site = here + op.length)
    (hop : op ≠ [])
    (form : ∀ disp : List UInt8, disp.length = j.field.size → Form m.wide (op ++ disp)) :
    Proper m here (.write (op ++ List.replicate j.field.size 0) [j] r)
  | fill {j : Jump} {chunk : List UInt8} : Proper m here (.fill j chunk)
  | branch {b : Branch} (hb : b.start = here) : Proper m here (.branch b)

namespace Cond

variable {wide : Bool} {c : Cond} {op chunk : List UInt8}

theorem shortOpcode_ne_nil (h : c.shortOpcode = .ok op) : op ≠ [] := by
  cases c <;> cases h <;> simp

theorem nearOpcode_ne_nil (h : c.nearOpcode = .ok op) : op ≠ [] := by
  cases c <;> cases h <;> simp

theorem shortJump_ok {rel : Int8} (h : c.shortJump rel = .ok chunk) :
    ∃ op, c.shortOpcode = .ok op ∧ chunk = op ++ [rel.toUInt8] := by
  unfold shortJump at h
  cases ho : c.shortOpcode with
  | error e => rw [ho] at h; cases h
  | ok op =>
    rw [ho] at h
    cases h
    exact ⟨op, rfl, rfl⟩

theorem nearJump_ok {rel : Int32} (h : c.nearJump rel = .ok chunk) :
    ∃ op, c.nearOpcode = .ok op ∧ chunk = op ++ littleEndian 4 rel.toUInt32.toNat := by
  unfold nearJump at h
  cases ho : c.nearOpcode with
  | error e => rw [ho] at h; cases h
  | ok op =>
    rw [ho] at h
    cases h
    exact ⟨op, rfl, rfl⟩

theorem shortJump_form {rel : Int8} (h : c.shortJump rel = .ok chunk) : Form wide chunk := by
  obtain ⟨op, ho, rfl⟩ := shortJump_ok h
  exact .short ho _

theorem nearJump_form {rel : Int32} (h : c.nearJump rel = .ok chunk) : Form wide chunk := by
  obtain ⟨op, ho, rfl⟩ := nearJump_ok h
  exact .near ho (length_littleEndian ..)

theorem forwardJump_form (wide : Bool) {short : Bool} (h : c.forwardJump short = .ok chunk) :
    ∃ op, op ≠ [] ∧ chunk = op ++ List.replicate (if short then 1 else 4) 0 ∧
      ∀ disp : List UInt8, disp.length = (if short then 1 else 4) → Form wide (op ++ disp) := by
  cases short with
  | true =>
    obtain ⟨op, ho, rfl⟩ := shortJump_ok h
    refine ⟨op, shortOpcode_ne_nil ho, rfl, fun disp hd => ?_⟩
    obtain ⟨d, rfl⟩ := List.length_eq_one_iff.mp hd
    exact .short ho d
  | false =>
    obtain ⟨op, ho, rfl⟩ := nearJump_ok h
    exact ⟨op, nearOpcode_ne_nil ho, rfl, fun disp hd => .near ho hd⟩

end Cond

namespace Call

variable {m : AddressingMode} {here : Nat} {labels : List Jump} {c : Call} {eff : Effect}

theorem effect_proper (hc : ∀ chunk, c ≠ .append chunk) (h : c.effect m here labels = .ok eff) :
    eff.Proper m here := by
  have hjump : ∀ {out : Except Misuse (List UInt8)},
      (∀ chunk, out = .ok chunk → Form m.wide chunk) →
      out.map (Effect.write · [] (.ok ())) = .ok eff → eff.Proper m here := by
    intro out hform h
    cases out with
    | error e => cases h
    | ok chunk =>
      cases h
      exact .instruction (hform chunk rfl)
  cases c with
  | encode r =>
    cases h
    unfold Request.output
    cases he : Encoding.encode m r with
    | error e => exact .nothing
    | ok i =>
      cases i with
      | none => exact .nothing
      | some i => exact .instruction (.request rfl he)
  | append chunk => exact absurd rfl (hc chunk)
  | jumpShort c rel => exact hjump (fun _ => Cond.shortJump_form) h
  | jumpNear c rel => exact hjump (fun _ => Cond.nearJump_form) h
  | jumpBackward c offset =>
    refine hjump (fun chunk hchunk => ?_) h
    unfold Cond.backwardJump at hchunk
    split at hchunk
    · cases hchunk
    · split at hchunk
      · exact Cond.shortJump_form hchunk
      · exact Cond.nearJump_form hchunk
  | jumpForward c short =>
    rw [effect] at h
    cases hc : c.forwardJump short with
    | error e => rw [hc] at h; cases h
    | ok chunk =>
      rw [hc] at h
      obtain ⟨op, hop, rfl, hform⟩ := Cond.forwardJump_form m.wide hc
      cases h
      refine Effect.Proper.jump (j := .ending _ short) ?_ hop hform
      rw [Jump.ending, List.length_append, List.length_replicate, ← Nat.add_assoc,
        Nat.add_sub_cancel]
  | setJumpTarget label =>
    simp only [effect] at h
    split at h
    · cases h
      exact .nothing
    · split at h <;> cases h
      · exact .nothing
      · exact .fill
  | jumpToGuest target => cases h; exact .branch rfl
  | branchToGuest c target => cases c <;> cases h <;> exact .branch rfl

end Call

/-! ## What stays -/

/-- The bytes of the part that stay are in the code, and nothing that is yet to be written is
there. -/
structure Kept (w : Writing) (p : Part) : Prop where
  inside : p.stop ≤ w.1.offset
  held : w.1.segment.buffer.field p.fixed = p.stem
  sites : ∀ f ∈ w.1.segment.table.fields, p.fixed.Apart f
  labels : ∀ j ∈ w.2, p.fixed.Apart j.field

namespace Kept

variable {w w' : Writing} {p : Part} {a : Assembler} {chunk : List UInt8}

theorem stands (h : Kept w p) : Stands w p.fixed p.stem :=
  ⟨Nat.le_trans (Nat.le_add_right ..) h.inside, h.held, h.sites, h.labels⟩

theorem of_stands (hin : p.stop ≤ w.1.offset) (h : Stands w p.fixed p.stem) : Kept w p :=
  ⟨hin, h.held, h.sites, h.labels⟩

theorem labelled (h : Kept (a, w.2) p) {new : List Jump}
    (hnew : ∀ j ∈ new, p.fixed.stop ≤ j.site) : Kept (a, w.2 ++ new) p :=
  .of_stands h.inside (h.stands.labelled hnew)

theorem recorded (h : Kept (a, w.2) p) {target : GuestAddress}
    (hsite : p.fixed.stop ≤ a.offset - a.mode.siteKind.size) :
    Kept (a.recorded target, w.2) p :=
  .of_stands h.inside (h.stands.recorded hsite)

theorem applied (h : Kept w p) {eff : Effect} (hf : eff.Fits w.1.offset w.2)
    (happ : eff.Applied w w') : Kept w' p :=
  .of_stands (Nat.le_trans h.inside happ.offset_le) (h.stands.applied hf happ)

theorem resolved (h : Kept w p) {lead : GuestAddress → Option Destination} {new : List Patched}
    {s : Segment} (hres : Resolved lead new w.1.segment s) :
    Kept ({ w.1 with segment := s }, w.2) p :=
  .of_stands (Nat.le_trans h.inside (Nat.le_of_eq hres.length.symm)) (h.stands.resolved hres)

theorem truncated (h : Kept w p) {n : Nat} (hn : p.stop ≤ n) {s : Segment}
    (ht : Truncated n w.1.segment s) (literals : List Nat) :
    Kept ({ w.1 with segment := s, literals }, w.2.filter (·.site < n)) p :=
  .of_stands (Nat.le_trans hn (Nat.le_of_eq ht.length.symm))
    (h.stands.truncated (Nat.le_trans (Nat.le_add_right ..) hn) ht literals)

theorem fresh (hw : Kempt w) (before behind : List UInt8)
    (hwrote : Wrote (before ++ p.stem ++ behind) w.1 a)
    (hstart : p.start = w.1.offset + before.length) (hhole : p.hole ≤ behind.length) :
    Kept (a, w.2) p := by
  have hstands := Stands.fresh hw before behind hwrote
  rw [← hstart] at hstands
  refine .of_stands ?_ hstands
  have hoff := hwrote.offset
  simp only [List.length_append] at hoff
  change p.start + p.stem.length + p.hole ≤ a.offset
  omega

end Kept

/-! ## What a call adds -/

theorem Assembler.insertLiteral_last {o : Nat} {ls : List Nat} (h : ∀ l ∈ ls, l < o) :
    insertLiteral o ls = ls ++ [o] := by
  induction ls with
  | nil => rfl
  | cons l ls ih =>
    obtain ⟨hl, hls⟩ := List.forall_mem_cons.mp h
    rw [insertLiteral, if_neg (by omega), if_neg (by omega), ih hls, List.cons_append]

namespace Branch

variable (m : AddressingMode) (b : Branch)

theorem parts_sound : ∀ p ∈ b.parts m, p.Sound m.wide := by
  obtain ⟨start, flag, target⟩ := b
  have hwhole {wide : Bool} {bytes : List UInt8} (h : Form wide bytes) :
      ∀ disp : List UInt8, disp.length = 0 → Form wide (bytes ++ disp) := by
    intro disp hd
    rw [List.eq_nil_of_length_eq_zero hd, List.append_nil]
    exact h
  cases m with
  | absolute =>
    cases flag with
    | none => exact List.forall_mem_singleton.mpr fun disp hd => .near (c := .always) rfl hd
    | some f => exact List.forall_mem_singleton.mpr fun disp hd => .near (c := .flag f) rfl hd
  | baseRelative base value =>
    cases flag with
    | none => exact List.forall_mem_cons.mpr ⟨hwhole (.through rfl), by simp [Part.Sound]⟩
    | some f =>
      refine List.forall_mem_cons.mpr ⟨hwhole (.short (c := .flag f.opposite) rfl 14), ?_⟩
      exact List.forall_mem_cons.mpr ⟨hwhole (.through rfl), by simp [Part.Sound]⟩

theorem parts_tiled : Part.Tiled b.start (b.parts m) (b.stop m) := by
  obtain ⟨start, flag, target⟩ := b
  cases m with
  | absolute => cases flag <;> exact ⟨rfl, rfl⟩
  | baseRelative base value =>
    cases flag with
    | none => exact ⟨rfl, rfl, rfl⟩
    | some f => exact ⟨rfl, rfl, rfl, rfl⟩

theorem parts_led : Part.Led (b.parts m) := by
  obtain ⟨start, flag, target⟩ := b
  cases m <;> cases flag <;> rintro p ⟨⟩ <;> exact List.cons_ne_nil _ _

theorem parts_embedded : Part.embedded (b.parts m) = if m.wide then [b.site m] else [] := by
  obtain ⟨start, flag, target⟩ := b
  cases m <;> cases flag <;> rfl

variable {m b}

theorem parts_kept {w : Writing} {a : Assembler} (hw : Kempt w)
    (hwrote : Wrote (b.code m ++ List.replicate m.siteKind.size 0) w.1 a)
    (hstart : b.start = w.1.offset) :
    ∀ p ∈ b.parts m, Kept (a, w.2) p ∧ p.fixed.stop ≤ b.site m := by
  obtain ⟨start, flag, target⟩ := b
  obtain rfl : start = w.1.offset := hstart
  cases m with
  | absolute =>
    cases flag with
    | none =>
      refine List.forall_mem_singleton.mpr ⟨?_, Nat.le_refl _⟩
      exact .fresh hw [] (List.replicate 4 0) hwrote rfl (Nat.le_refl _)
    | some f =>
      refine List.forall_mem_singleton.mpr ⟨?_, Nat.le_refl _⟩
      exact .fresh hw [] (List.replicate 4 0) hwrote rfl (Nat.le_refl _)
  | baseRelative base value =>
    let through : List UInt8 := [0xff, 0x25, 0, 0, 0, 0]
    let address : List UInt8 := List.replicate 8 0
    cases flag with
    | none =>
      refine List.forall_mem_cons.mpr ⟨⟨?_, Nat.le_refl _⟩,
        List.forall_mem_singleton.mpr ⟨?_, Nat.le_refl _⟩⟩
      · exact .fresh hw [] address hwrote rfl (Nat.zero_le _)
      · exact .fresh hw through address hwrote rfl (Nat.le_refl _)
    | some f =>
      let around : List UInt8 := [0x70 + UInt8.ofNat f.opposite.code.toNat, 14]
      refine List.forall_mem_cons.mpr ⟨⟨?_, Nat.le_add_right _ 6⟩,
        List.forall_mem_cons.mpr ⟨⟨?_, Nat.le_refl _⟩,
          List.forall_mem_singleton.mpr ⟨?_, Nat.le_refl _⟩⟩⟩
      · exact .fresh hw [] (through ++ address) hwrote rfl (Nat.zero_le _)
      · exact .fresh hw around address hwrote rfl (Nat.zero_le _)
      · exact .fresh hw (around ++ through) address hwrote rfl (Nat.le_refl _)

end Branch

namespace Effect

variable {m : AddressingMode} {here : Nat} {eff : Effect} {w w' : Writing}

theorem parts_instruction {chunk : List UInt8} {r : Except Error Unit} (h : chunk ≠ []) :
    (write chunk [] r).parts m here = [⟨here, chunk, 0, .instruction⟩] := if_neg h

theorem parts_jump {op : List UInt8} {j : Jump} {r : Except Error Unit} :
    (write (op ++ List.replicate j.field.size 0) [j] r).parts m here =
      [⟨here, op, j.field.size, .instruction⟩] := by
  rw [parts, List.length_append, List.length_replicate, Nat.add_sub_cancel, List.take_left]

theorem Proper.sound (h : eff.Proper m here) : ∀ p ∈ eff.parts m here, p.Sound m.wide := by
  cases h with
  | nothing => simp [parts]
  | instruction form =>
    rw [parts_instruction form.ne_nil]
    refine List.forall_mem_singleton.mpr fun disp hd => ?_
    rw [List.eq_nil_of_length_eq_zero hd, List.append_nil]
    exact form
  | jump hj hop form =>
    rw [parts_jump]
    exact List.forall_mem_singleton.mpr form
  | fill => simp [parts]
  | branch hb => exact Branch.parts_sound _ _

theorem Proper.led (h : eff.Proper m here) : Part.Led (eff.parts m here) := by
  cases h with
  | nothing => simp [parts, Part.Led]
  | instruction form =>
    rw [parts_instruction form.ne_nil]
    rintro p ⟨⟩
    exact form.ne_nil
  | jump hj hop form =>
    rw [parts_jump]
    rintro p ⟨⟩
    exact hop
  | fill => simp [parts, Part.Led]
  | branch hb => exact Branch.parts_led _ _

/-- The parts begin where the code ended, and end where it ends now. -/
theorem Proper.tiled (h : eff.Proper w.1.mode w.1.offset) (happ : eff.Applied w w') :
    Part.Tiled w.1.offset (eff.parts w.1.mode w.1.offset) w'.1.offset := by
  cases h with
  | nothing =>
    cases happ with
    | write hw hl => exact hw.offset.symm
  | instruction form =>
    rw [parts_instruction form.ne_nil]
    cases happ with
    | write hw hl => exact ⟨rfl, hw.offset.symm⟩
  | jump hj hop form =>
    rw [parts_jump]
    cases happ with
    | write hw hl =>
      refine ⟨rfl, ?_⟩
      have hoff := hw.offset
      rw [List.length_append, List.length_replicate, ← Nat.add_assoc] at hoff
      exact hoff.symm
  | fill =>
    cases happ with
    | fill hr hchunk => exact hr.length.symm
  | branch hb =>
    rename_i b
    cases happ with
    | branch hr =>
      obtain ⟨a₁, hw, -, rfl⟩ := hr
      have hoff := hw.offset
      rw [List.length_append, List.length_replicate, ← Nat.add_assoc, ← hb] at hoff
      have hstop : (a₁.recorded b.target).offset = b.stop w.1.mode := hoff
      rw [hstop, ← hb]
      exact b.parts_tiled w.1.mode

theorem Proper.kept (h : eff.Proper w.1.mode w.1.offset) (hw : Kempt w) (happ : eff.Applied w w') :
    ∀ p ∈ eff.parts w.1.mode w.1.offset, Kept w' p := by
  cases h with
  | nothing => simp [parts]
  | @instruction chunk r form =>
    rw [parts_instruction form.ne_nil]
    cases happ with
    | write hwrote hl =>
      refine List.forall_mem_singleton.mpr (Kept.labelled (.fresh hw [] [] ?_ rfl (Nat.le_refl _))
        (by simp))
      rw [List.append_nil]
      exact hwrote
  | @jump op j r hj hop form =>
    rw [parts_jump]
    cases happ with
    | write hwrote hl =>
      refine List.forall_mem_singleton.mpr (Kept.labelled (.fresh hw [] _ hwrote rfl
        (Nat.le_of_eq List.length_replicate.symm)) ?_)
      exact List.forall_mem_singleton.mpr (Nat.le_of_eq hj.symm)
  | fill => simp [parts]
  | @branch b hb =>
    cases happ with
    | branch hr =>
      obtain ⟨a₁, hwrote, -, rfl⟩ := hr
      intro p hp
      obtain ⟨hkept, hstop⟩ := Branch.parts_kept hw hwrote hb p hp
      refine hkept.recorded (Nat.le_trans hstop ?_)
      have hoff := hwrote.offset
      rw [List.length_append, List.length_replicate] at hoff
      rw [hwrote.mode, Branch.site, hb]
      omega

theorem Proper.literals (h : eff.Proper w.1.mode w.1.offset) (hw : w.1.Tidy)
    (happ : eff.Applied w w') :
    w'.1.literals = w.1.literals ++ Part.embedded (eff.parts w.1.mode w.1.offset) := by
  cases h with
  | nothing =>
    cases happ with
    | write hwrote hl => simp [parts, Part.embedded, hwrote.literals]
  | instruction form =>
    rw [parts_instruction form.ne_nil]
    cases happ with
    | write hwrote hl => simp [Part.embedded, hwrote.literals]
  | jump hj hop form =>
    rw [parts_jump]
    cases happ with
    | write hwrote hl => simp [Part.embedded, hwrote.literals]
  | fill =>
    cases happ with
    | fill hr hchunk => simp [parts, Part.embedded]
  | @branch b hb =>
    cases happ with
    | branch hr =>
      obtain ⟨a₁, hwrote, -, rfl⟩ := hr
      have hoff := hwrote.offset
      rw [List.length_append, List.length_replicate] at hoff
      have hsite : a₁.offset - w.1.mode.siteKind.size = b.site w.1.mode := by
        rw [Branch.site, hb]
        omega
      have hbefore : ∀ l ∈ w.1.literals, l < b.site w.1.mode := by
        intro l hl
        have hin := hw.literal_inside hl
        rw [Branch.site, hb]
        omega
      rw [parts, Branch.parts_embedded]
      simp only [Assembler.recorded, hwrote.mode, hwrote.literals, hsite]
      split
      · exact insertLiteral_last hbefore
      · exact (List.append_nil _).symm

end Effect

end HostCode
