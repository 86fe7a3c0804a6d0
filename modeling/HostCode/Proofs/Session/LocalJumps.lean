import Mathlib.Algebra.Group.Int.Defs
import Mathlib.Algebra.Group.Nat.Defs
import HostCode.Proofs.Session.Undo

/-! # Jumps inside the code, executed

A jump back to code that is there already knows its distance, which tells its form. A forward
jump is written first, and gets its distance when the code that it leads to comes next. What is
written in between may move the buffer or be broken off: nothing but a cut removes the jump, and
its distance counts from its own end. So both go exactly to their targets, unless one byte is too
few for the distance. Then the forward jump is left as it is.
-/

namespace HostCode

open CodeBuffer Segment Assembler Processor

/-! ## The bytes of a jump -/

theorem displacementBytes_one (rel : Int) :
    [(Int8.ofInt rel).toUInt8] = displacementBytes 1 rel := by
  change _ = [UInt8.ofNat (BitVec.ofInt 8 rel).toNat]
  exact congrArg (fun v => [v]) (UInt8.ofNat_toNat (x := (Int8.ofInt rel).toUInt8)).symm

theorem toInt_ofInt_of_fits {short : Bool} {rel : Int}
    (h : if short then fitsByte rel = true else rel.natAbs < 2 ^ 31) :
    (BitVec.ofInt (8 * if short then 1 else 4) rel).toInt = rel := by
  rw [BitVec.toInt_ofInt]
  cases short with
  | true =>
    simp only [fitsByte, if_true, Bool.and_eq_true, decide_eq_true_eq] at h
    exact Int.bmod_eq_of_le h.1 (by simp only [if_true]; omega)
  | false =>
    simp only [Bool.false_eq_true, if_false] at h
    exact Int.bmod_eq_of_le (by simp only [Bool.false_eq_true, if_false]; omega)
      (by simp only [Bool.false_eq_true, if_false]; omega)

namespace Cond

variable {c : Cond} {short : Bool} {op : List UInt8}

theorem shortJump_ofInt (h : c.opcode true = .ok op) (rel : Int) :
    c.shortJump (.ofInt rel) = .ok (op ++ displacementBytes 1 rel) := by
  have h' : c.shortOpcode = .ok op := h
  rw [shortJump, h', ← displacementBytes_one]
  rfl

theorem nearJump_ofInt (h : c.opcode false = .ok op) (rel : Int) :
    c.nearJump (.ofInt rel) = .ok (op ++ displacementBytes 4 rel) := by
  have h' : c.nearOpcode = .ok op := h
  rw [nearJump, h']
  rfl

theorem forwardJump_of_opcode (h : c.opcode short = .ok op) :
    c.forwardJump short = .ok (op ++ displacementBytes (if short then 1 else 4) 0) := by
  cases short with
  | true => exact shortJump_ofInt h 0
  | false => exact nearJump_ofInt h 0

theorem backwardJump_of_opcode {here target : Nat} (hle : target ≤ here)
    (hshort : short = fitsByte ((target : Int) - (here + 2))) (h : c.opcode short = .ok op) :
    c.backwardJump here target = .ok (op ++ displacementBytes (if short then 1 else 4)
      ((target : Int) - (here + c.jumpLength short : Nat))) := by
  rw [backwardJump, if_neg (by omega), ← hshort]
  cases short with
  | true => exact shortJump_ofInt h _
  | false => exact nearJump_ofInt h _

end Cond

theorem Jump.displacement_eq (j : Jump) {here d : Nat} (hd : here = j.field.stop + d) :
    j.displacement here =
      if j.short = true ∧ 127 < d then .error (.jumpRange ⟨j.site, d, 8⟩)
      else .ok (displacementBytes j.field.size d) := by
  obtain ⟨site, short⟩ := j
  cases short with
  | true =>
    have hrel : (here : Int) - (site + 1) = d := by
      simp only [field, Field.stop, if_true] at hd
      omega
    have hfit : fitsByte d = true ↔ ¬ 127 < d := by
      simp only [fitsByte, Bool.and_eq_true, decide_eq_true_eq]
      omega
    by_cases hfar : 127 < d
    · simp [displacement, hrel, hfit, hfar]
    · simp [displacement, field, hrel, hfit, hfar, displacementBytes_one]
  | false =>
    have hrel : (here : Int) - (site + 4) = d := by
      simp only [field, Field.stop, Bool.false_eq_true, if_false] at hd
      omega
    simp only [displacement, hrel, Bool.false_eq_true, if_false, false_and]
    rfl

/-- At `start` of the code is a jump, which goes to `target` if the condition holds, and else to
`next`. -/
def CodeBuffer.JumpsAt (wide : Bool) (b : CodeBuffer) (c : Cond) (start next target : Nat) :
    Prop :=
  ∀ x : Machine wide, x.Loaded b →
    x.step (codeAddress wide b.address start) =
      some (codeAddress wide b.address (if c.holds x.flags then target else next))

theorem CodeBuffer.jumpsAt_of_fields {wide : Bool} {b : CodeBuffer} {c : Cond} {short : Bool}
    {op : List UInt8} {start next target : Nat} {rel : Int} (hop : c.opcode short = .ok op)
    (hnext : next = start + op.length + if short then 1 else 4) (hin : next ≤ b.length)
    (hcode : b.field ⟨start, op.length⟩ = op)
    (hdisp : b.field ⟨start + op.length, if short then 1 else 4⟩ =
      displacementBytes (if short then 1 else 4) rel)
    (hrel : if short then fitsByte rel = true else rel.natAbs < 2 ^ 31)
    (htarget : next + rel = target) : b.JumpsAt wide c start next target := by
  intro x hx
  subst hnext
  rw [hx.step_opcode hop hcode, hx.relative_eq hin hdisp (toInt_ofInt_of_fits hrel) htarget,
    apply_ite (codeAddress wide b.address)]

/-! ## Assemblers in any use -/

/-- The assemblers that come about: new ones, those of sessions, and these after any change and
any cut. A call can be broken off by a move that puts a jump out of range as by anything else. -/
inductive InUse : Writing → Prop
  | new {b : CodeBuffer} {m : AddressingMode} (unused : b.Unused) : InUse (.new b m, [])
  | session {history : List Action} {s : Session} (h : Reached history s) : InUse (s.asm, [])
  | change {t : Option GuestAddress} {w w' : Writing} (h : InUse w)
    (hc : Change (fun _ => True) t w w') : InUse w'
  | truncate {n : Nat} {w : Writing} {a : Assembler} (h : InUse w) (hn : CutAt n w)
    (hx : Assembler.truncate n w.1 = .ok () a) : InUse (a, w.2.filter (·.site < n))

variable {w w' w'' : Writing} {c : Cond} {short : Bool} {op : List UInt8} {start : Nat} {j : Jump}
  {breaks : Fault → Prop} {targets : GuestAddress → Prop} {t : Option GuestAddress}

/-- `w'` has the code of `w` and more, with its forward jumps and all that stays. -/
structure Onward (w w' : Writing) : Prop where
  kempt : Kempt w'
  grown : w.1.offset ≤ w'.1.offset
  labels : w.2 ⊆ w'.2
  stands : ∀ f bytes, Stands w f bytes → Stands w' f bytes

theorem Onward.refl (h : Kempt w) : Onward w w := ⟨h, Nat.le_refl _, fun _ => id, fun _ _ => id⟩

theorem Onward.trans (h : Onward w w') (h' : Onward w' w'') : Onward w w'' where
  kempt := h'.kempt
  grown := Nat.le_trans h.grown h'.grown
  labels := fun _ hj => h'.labels (h.labels hj)
  stands f bytes hf := h'.stands f bytes (h.stands f bytes hf)

theorem Used.onward (hu : Used breaks w t w') (h : Kempt w) : Onward w w' where
  kempt := hu.kempt h
  grown := hu.offset_le
  labels := by
    cases hu with
    | applied hf happ =>
      cases happ with
      | write hw hl => exact List.subset_append_left ..
      | fill hr hchunk => exact fun _ => id
      | branch hr => exact fun _ => id
    | wrote hw _ _ => exact fun _ => id
    | resolved hres => exact fun _ => id
  stands _ _ hstands := hstands.used hu

theorem Changes.onward (hc : Changes breaks targets w w') (h : Kempt w) : Onward w w' :=
  hc.preserves (fun _ _ _ _ hc ih => ih.trans ((hc.used ih.kempt).onward ih.kempt)) (.refl h)

theorem InUse.kempt (h : InUse w) : Kempt w := by
  induction h with
  | new unused =>
    exact ⟨Session.tidy_empty unused.sane rfl rfl rfl, by intro j hj; cases hj⟩
  | session h => exact ⟨h.sound.settled.tidy, by intro j hj; cases hj⟩
  | change _ hc ih => exact (hc.used ih).kempt ih
  | truncate _ hn hx ih =>
    obtain ⟨s, hx', -, hkempt⟩ := ih.truncated hn.inside hn.sites hn.labels
    cases hx.symm.trans hx'
    exact hkempt

/-! ## Forward jumps -/

/-- The forward jump `j` is in the code at `start`, all but its displacement. -/
structure Jump.Awaits (j : Jump) (c : Cond) (start : Nat) (w : Writing) : Prop where
  mem : j ∈ w.2
  opcode : ∃ op, c.opcode j.short = .ok op ∧ j.site = start + op.length ∧
    Stands w ⟨start, op.length⟩ op

theorem Jump.Awaits.onward (h : j.Awaits c start w) (hw : Onward w w') : j.Awaits c start w' := by
  obtain ⟨hj, op, hop, hsite, hstands⟩ := h
  exact ⟨hw.labels hj, op, hop, hsite, hw.stands _ _ hstands⟩

/-- A forward jump on a condition is written, or the call is broken off. -/
theorem Kempt.jumpForward (h : Kempt w) (hc : c.Named) (short : Bool) :
    Ensures (Call.jumpForward c short).run w
      (fun r w' => r = .ok () ∧ w'.1.offset = w.1.offset + c.jumpLength short ∧
        ∃ j, w'.2 = w.2 ++ [j] ∧ j.short = short ∧ j.field.stop = w'.1.offset ∧ Kempt w' ∧
          j.Awaits c w.1.offset w')
      (fun f w' => Broke f w.1 w'.1) := by
  obtain ⟨op, hop⟩ := hc.exists_opcode short
  have hlen := Cond.length_opcode hop
  let chunk := op ++ displacementBytes (if short then 1 else 4) 0
  have hchunk : chunk.length = c.jumpLength short := by
    rw [List.length_append, length_displacementBytes, hlen]
  have heff : (Call.jumpForward c short).effect w.1.mode w.1.offset w.2 =
      .ok (.write chunk [.ending (w.1.offset + chunk.length) short] (.ok ())) := by
    rw [Call.effect, Cond.forwardJump_of_opcode hop]
    rfl
  have hdoes := (Call.jumpForward c short).run_does h.tidy fun j hj => (h.labels j hj).1
  rw [heff] at hdoes
  have hsite : w.1.offset + chunk.length - (if short then 1 else 4) = w.1.offset + op.length := by
    rw [hchunk, ← hlen, ← Nat.add_assoc, Nat.add_sub_cancel]
  refine Ensures.imp hdoes ?_ fun f w' hb => hb.1
  rintro r w' ⟨rfl, happ⟩
  have hused : Used (fun _ => True) w none w' := .applied (Call.effect_fits heff) happ
  cases happ with
  | @write _ _ _ a hw hl =>
    have hlength : a.offset = w.1.offset + c.jumpLength short := by rw [hw.offset, hchunk]
    have hfresh : Stands (a, w.2) ⟨w.1.offset, op.length⟩ op := .fresh h [] _ hw
    refine ⟨rfl, hlength, _, rfl, rfl, ?_, hused.kempt h, ?_⟩
    · change w.1.offset + chunk.length - (if short then 1 else 4) + (if short then 1 else 4) = _
      rw [hsite, hlength, ← hlen, Nat.add_assoc]
    · refine ⟨List.mem_append_right _ (List.mem_singleton_self _), op, hop, hsite, ?_⟩
      exact hfresh.labelled (List.forall_mem_singleton.mpr (Nat.le_of_eq hsite.symm))

/-- Given its target, the jump goes to the end of the code. A short one that cannot is left
alone. -/
theorem Jump.Awaits.setJumpTarget (h : j.Awaits c start w) (hw : Kempt w) {d : Nat}
    (hd : w.1.offset = j.field.stop + d) (hlen : w.1.offset < 2 ^ 31) (wide : Bool) :
    if j.short = true ∧ 127 < d then
      Assembler.setJumpTarget j w.1 = .ok (.error (.jumpRange ⟨j.site, d, 8⟩)) w.1
    else ∃ b,
      Assembler.setJumpTarget j w.1 =
        .ok (.ok ()) { w.1 with segment := { w.1.segment with buffer := b } } ∧
      Rewrites [j.field] w.1.segment.buffer b ∧
      b.JumpsAt wide c start j.field.stop w.1.offset := by
  obtain ⟨hj, op, hop, hsite, hstands⟩ := h
  have hin := (hw.labels j hj).1
  have hset := setJumpTarget_ensures j hin
  rw [j.displacement_eq hd] at hset
  split
  · next hfar =>
    rw [if_pos hfar] at hset
    exact hset
  · next hnear =>
    rw [if_neg hnear] at hset
    obtain ⟨b, hr, hdisp, hx⟩ := hset
    obtain ⟨-, hcode⟩ := hstands.rewritten hr
      (List.forall_mem_singleton.mpr (hstands.labels j hj))
    have hfield : j.field = ⟨start + op.length, if j.short then 1 else 4⟩ := by rw [field, hsite]
    have hfits : if j.short then fitsByte d = true else (d : Int).natAbs < 2 ^ 31 := by
      cases hs : j.short with
      | true =>
        have hle : ¬ 127 < d := fun hfar => hnear ⟨hs, hfar⟩
        simp only [fitsByte, if_true, Bool.and_eq_true, decide_eq_true_eq]
        omega
      | false =>
        simp only [Bool.false_eq_true, if_false]
        omega
    rw [hfield] at hdisp
    refine ⟨b, hx, hr, jumpsAt_of_fields hop (by rw [hfield]; rfl) ?_ hcode hdisp hfits ?_⟩
    · rw [hr.length]
      exact hin
    · omega

/-! ## Jumps back -/

theorem Kempt.jumpBackward (h : Kempt w) (hc : c.Named) {target : Nat}
    (ht : target ≤ w.1.offset) (wide : Bool) :
    Ensures (Assembler.jumpBackward c target) w.1
      (fun _ a => ∃ chunk, Wrote chunk w.1 a ∧
        chunk.length = c.jumpLength (fitsByte ((target : Int) - (w.1.offset + 2))) ∧
        (a.offset < 2 ^ 31 → a.segment.buffer.JumpsAt wide c w.1.offset a.offset target))
      (fun f a => Broke f w.1 a) := by
  obtain ⟨short, hshort⟩ : ∃ short, short = fitsByte ((target : Int) - (w.1.offset + 2)) :=
    ⟨_, rfl⟩
  obtain ⟨op, hop⟩ := hc.exists_opcode short
  have hlen := Cond.length_opcode hop
  have hwrites := jumpBackward_writes h.tidy c target
  rw [Cond.backwardJump_of_opcode ht hshort hop] at hwrites
  refine Ensures.imp hwrites ?_ fun _ _ => id
  rintro - a ⟨hw, -⟩
  rw [← hshort]
  have hchunk := hw.offset
  rw [List.length_append, length_displacementBytes, hlen] at hchunk
  refine ⟨_, hw, by rw [List.length_append, length_displacementBytes, hlen], fun hsmall => ?_⟩
  have hnew := hw.segment.new
  rw [List.length_append, length_displacementBytes, field_add] at hnew
  have hin : w.1.offset + op.length ≤ a.offset := by omega
  obtain ⟨hcode, hdisp⟩ := List.append_inj hnew (length_field hin)
  refine jumpsAt_of_fields hop ?_ (Nat.le_refl _) hcode hdisp ?_ ?_
  · rw [hchunk, ← hlen, ← Nat.add_assoc]
  · cases short with
    | true =>
      have hrel : c.jumpLength true = 2 := rfl
      rw [if_pos rfl, hrel, hshort]
      push_cast
      rfl
    | false =>
      simp only [Bool.false_eq_true, if_false]
      omega
  · omega

/-! ## Where they lead -/

/-- A forward jump goes to the code that comes next when its target is set, whatever was written
after it and however the buffer moved. Only if it has one byte for its displacement and more than
127 bytes lie between, its target is refused, and nothing changes. In any case no other byte
does. A jump back goes to its target, and takes two bytes if that is no more than 128 bytes before
its end. -/
theorem InUse.local_jumps_land (h : InUse w) (hc : c.Named) :
    (∀ short, Ensures (Call.jumpForward c short).run w
      (fun r w₁ => r = .ok () ∧ w₁.1.offset = w.1.offset + c.jumpLength short ∧
        ∃ j, w₁.2 = w.2 ++ [j] ∧ j.short = short ∧ j.field.stop = w₁.1.offset ∧
        ∀ w₂, Changes (fun _ => True) (fun _ => True) w₁ w₂ → w₂.1.offset < 2 ^ 31 →
          ∃ d, w₂.1.offset = w₁.1.offset + d ∧
            if short = true ∧ 127 < d then
              setJumpTarget j w₂.1 = .ok (.error (.jumpRange ⟨j.site, d, 8⟩)) w₂.1
            else ∃ b,
              setJumpTarget j w₂.1 =
                .ok (.ok ()) { w₂.1 with segment := { w₂.1.segment with buffer := b } } ∧
              Rewrites [j.field] w₂.1.segment.buffer b ∧
              b.JumpsAt w.1.mode.wide c w.1.offset w₁.1.offset w₂.1.offset)
      (fun f w₁ => Broke f w.1 w₁.1)) ∧
    ∀ target ≤ w.1.offset, Ensures (jumpBackward c target) w.1
      (fun _ a => ∃ chunk, Wrote chunk w.1 a ∧
        chunk.length = (if -128 ≤ (target : Int) - (w.1.offset + 2) then 2
          else if c = .always then 5 else 6) ∧
        (a.offset < 2 ^ 31 →
          a.segment.buffer.JumpsAt w.1.mode.wide c w.1.offset a.offset target))
      (fun f a => Broke f w.1 a) := by
  have hw := h.kempt
  constructor
  · intro short
    refine (hw.jumpForward hc short).imp ?_ fun _ _ => id
    rintro r w₁ ⟨rfl, hlength, j, hj, rfl, hstop, hkempt, hawaits⟩
    refine ⟨rfl, hlength, j, hj, rfl, hstop, fun w₂ hchanges hsmall => ?_⟩
    have honward := hchanges.onward hkempt
    obtain ⟨d, hd⟩ := Nat.exists_eq_add_of_le honward.grown
    have hset := (hawaits.onward honward).setJumpTarget honward.kempt (d := d)
      (by rw [hstop]; exact hd) hsmall w.1.mode.wide
    rw [hstop] at hset
    exact ⟨d, hd, hset⟩
  · intro target ht
    refine (hw.jumpBackward hc ht w.1.mode.wide).imp ?_ fun _ _ => id
    rintro - a ⟨chunk, hwrote, hlen, hjumps⟩
    -- the target does not come later, so the distance is not too great the other way
    have hfit : fitsByte ((target : Int) - (w.1.offset + 2)) = true ↔
        -128 ≤ (target : Int) - (w.1.offset + 2) := by
      simp only [fitsByte, Bool.and_eq_true, decide_eq_true_eq]
      omega
    refine ⟨chunk, hwrote, ?_, hjumps⟩
    simp only [hlen, Cond.jumpLength, hfit]

/-- Twenty bytes behind a short jump, which move the code: the jump goes behind them, and another
one from there to the first of them. With 130 bytes the jump is refused. -/
theorem local_jumps_land_after_move :
    ∃ (w w₁ w₂ w₃ : Writing) (j : Jump) (a : Assembler),
      (Call.jumpForward (.flag .e) true).run w = .ok (.ok ()) w₁ ∧ w₁.2 = [j] ∧
      (∃ r, (Call.append (List.replicate 20 0x90)).run w₁ = .ok r w₂) ∧
      (∃ r, (Call.append (List.replicate 130 0x90)).run w₁ = .ok r w₃) ∧
      w₁.1.segment.buffer.address = 0x10000 ∧ w₂.1.segment.buffer.address = 0x20000 ∧
      setJumpTarget j w₂.1 = .ok (.ok ()) a ∧
      a.segment.buffer.JumpsAt w.1.mode.wide (.flag .e) 0 2 22 ∧
      setJumpTarget j w₃.1 = .ok (.error (.jumpRange ⟨1, 130, 8⟩)) w₃.1 ∧
      ∃ b, jumpBackward (.flag .e) 2 w₂.1 = .ok () b ∧
        b.segment.buffer.JumpsAt w₂.1.mode.wide (.flag .e) 22 24 2 := by
  let w : Writing := (.new Config.twoPlaces.buffer .absolute, [])
  have hfacts : returned (fun (_ : Except Error Unit) (w₁ : Writing) =>
      returned (fun (_ : Except Error Unit) (w₂ : Writing) =>
        returned (fun (_ : Except Error Unit) (w₃ : Writing) =>
          returned (fun _ (b : Assembler) =>
            w₁.2 = [⟨1, true⟩] ∧
              (w₁.1.offset = 2 ∧ w₂.1.offset = 22 ∧ w₃.1.offset = 132 ∧ b.offset = 24) ∧
              w₁.1.segment.buffer.address = 0x10000 ∧ w₂.1.segment.buffer.address = 0x20000)
            (jumpBackward (.flag .e) 2 w₂.1))
          ((Call.append (List.replicate 130 0x90)).run w₁))
        ((Call.append (List.replicate 20 0x90)).run w₁))
      ((Call.jumpForward (.flag .e) true).run w) = true := by decide +kernel
  obtain ⟨r₁, w₁, hx₁, h₁⟩ := exists_of_returned hfacts
  obtain ⟨r₂, w₂, hx₂, h₂⟩ := exists_of_returned h₁
  obtain ⟨r₃, w₃, hx₃, h₃⟩ := exists_of_returned h₂
  obtain ⟨⟨⟩, b, hback, h₄⟩ := exists_of_returned h₃
  obtain ⟨hlabels, ⟨hoff₁, hoff₂, hoff₃, hoff⟩, haddr₁, haddr₂⟩ := of_decide_eq_true h₄
  have hc : (Cond.flag .e).Named := by
    intro code h
    cases h
  have hw : InUse w := .new Config.twoPlaces_unused
  obtain ⟨hforward, -⟩ := hw.local_jumps_land hc
  have hjump := hforward true
  simp only [Ensures, hx₁] at hjump
  obtain ⟨rfl, -, j, hj, -, -, hlands⟩ := hjump
  obtain rfl : j = ⟨1, true⟩ := (List.cons.inj (hj.symm.trans hlabels)).1
  obtain ⟨d₂, hd₂, hset₂⟩ := hlands w₂ (.step .refl (fun _ _ => trivial) (.call hx₂))
    (by rw [hoff₂]; decide)
  obtain ⟨d₃, hd₃, hset₃⟩ := hlands w₃ (.step .refl (fun _ _ => trivial) (.call hx₃))
    (by rw [hoff₃]; decide)
  obtain rfl : d₂ = 20 := by omega
  obtain rfl : d₃ = 130 := by omega
  rw [if_neg (by decide)] at hset₂
  rw [if_pos (by decide)] at hset₃
  obtain ⟨filled, hset₂, -, hlanded⟩ := hset₂
  have hw₂ : InUse w₂ := (hw.change (.call hx₁)).change (.call hx₂)
  obtain ⟨-, hbackward⟩ := hw₂.local_jumps_land hc
  have hreturn := hbackward w₁.1.offset (by omega)
  have hback' : jumpBackward (.flag .e) (w₁.1.offset : Int) w₂.1 = .ok () b := by
    rw [hoff₁]
    exact hback
  simp only [Ensures, hback'] at hreturn
  obtain ⟨chunk, -, -, hjumps⟩ := hreturn
  have hreturned := hjumps (by rw [hoff]; decide)
  rw [hoff₁, hoff₂] at hlanded
  rw [hoff₁, hoff₂, hoff] at hreturned
  exact ⟨w, w₁, w₂, w₃, _, _, hx₁, hlabels, ⟨r₂, hx₂⟩, ⟨r₃, hx₃⟩, haddr₁, haddr₂, hset₂, hlanded,
    hset₃, b, hback, hreturned⟩

end HostCode
