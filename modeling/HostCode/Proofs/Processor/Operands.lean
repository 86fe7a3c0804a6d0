import HostCode.Encoding.Family
import HostCode.Proofs.Processor.Decode

/-! # Operands in the fields of an instruction

Each kind of operand is found where the opcode map looks for it. For the r/m field this says
that the mode bits, the SIB byte and the displacement name the place that was asked for.
-/

namespace HostCode.Processor

open Encoding

/-! ## The r/m field -/

/-- Mode bits and a displacement that stand for `disp` from a base. -/
structure Displaces (base : BitVec 3) (disp : Int32) (form : BitVec 2 × Displacement) : Prop where
  memory : form.1 ≠ 3
  based : form.1 = 0 → base ≠ 5
  announced : Announced form.1 base form.2
  value : form.2.value = disp

theorem Displaces.full (base : BitVec 3) (disp : Int32) : Displaces base disp (2, .dword disp) where
  memory := (by decide : (2 : BitVec 2) ≠ 3)
  based h := absurd h (by decide : (2 : BitVec 2) ≠ 0)
  announced := .inl rfl
  value := rfl

theorem toInt32_toInt8 {d : Int32} (h : -128 ≤ d.toInt ∧ d.toInt ≤ 127) : d.toInt8.toInt32 = d := by
  apply Int32.toInt_inj.mp
  rw [Int8.toInt_toInt32, Int32.toInt_toInt8]
  exact Int.bmod_eq_of_le (by omega) (by omega)

theorem Displaces.shortest (base : BitVec 3) (disp : Int32) :
    Displaces base disp (RM.shortest base disp) := by
  unfold RM.shortest
  split
  · next h => exact ⟨by decide, fun _ => h.2, ⟨rfl, h.2⟩, h.1.symm⟩
  · split
    · next h =>
      constructor
      · exact (by decide : (1 : BitVec 2) ≠ 3)
      · exact fun h0 => absurd h0 (by decide : (1 : BitVec 2) ≠ 0)
      · rfl
      · exact toInt32_toInt8 h
    · exact .full base disp

theorem regular_register (n : BitVec 3) (b : Bool) : Regular { mod := 3, rm := n, b } where
  register _ := ⟨rfl, rfl⟩
  sib h := absurd rfl h
  disp h := absurd rfl h

section Memory

variable {base index : Gpr} {scale : BitVec 2} {disp : Int32} {form : BitVec 2 × Displacement}

theorem Displaces.regular_based (h : Displaces base.low disp form) :
    Regular (.based base form) where
  register hm := absurd hm h.memory
  sib _ := by
    simp only [RM.based]
    split
    · next h4 => exact ⟨fun _ => h4, fun _ => rfl⟩
    · next h4 => exact ⟨fun h => absurd h (by decide), fun h => absurd h h4⟩
  disp _ := by
    simp only [RM.based]
    split
    · next h4 => rw [h4] at h; exact h.announced
    · exact h.announced

theorem Displaces.regular_indexed (h : Displaces base.low disp form) :
    Regular (.indexed base index scale form) where
  register hm := absurd hm h.memory
  sib _ := ⟨fun _ => rfl, fun _ => rfl⟩
  disp _ := h.announced

/-- The base is named as it is, also where it takes a SIB byte to name it. -/
theorem Displaces.rmPlace_based (h : Displaces base.low disp form) (wide extended : Bool)
    (s : Size) :
    rmPlace wide extended s (.based base form) = .memory s ⟨some base, none, disp⟩ := by
  have hno : ¬ (form.1 = 0 ∧ base.low = 5) := fun ⟨h0, h5⟩ => h.based h0 h5
  simp only [rmPlace, RM.based, if_neg h.memory, h.value]
  by_cases h4 : base.low = 4
  · have hbase : Gpr.ofCode (BitVec.ofBool base.extended ++ (4 : BitVec 3)) = base := by
      rw [← h4, Gpr.ofCode_low]
    have hno4 : ¬ (form.1 = 0 ∧ (4 : BitVec 3) = 5) := fun h => absurd h.2 (by decide)
    simp only [if_pos h4, hbase, if_neg hno4]
    rfl
  · simp only [if_neg h4, if_neg hno, Gpr.ofCode_low]

theorem Displaces.rmPlace_indexed (h : Displaces base.low disp form) (hi : index ≠ .sp)
    (wide extended : Bool) (s : Size) :
    rmPlace wide extended s (.indexed base index scale form) =
      .memory s ⟨some base, some (index, 2 ^ scale.toNat), disp⟩ := by
  have hno : ¬ (form.1 = 0 ∧ base.low = 5) := fun ⟨h0, h5⟩ => h.based h0 h5
  have hindex : BitVec.ofBool index.extended ++ index.low ≠ 4 := by
    intro h4
    apply hi
    rw [← Gpr.ofCode_low index, h4]
    rfl
  simp only [rmPlace, RM.indexed, if_neg h.memory, h.value, if_neg hno, indexOf, if_neg hindex,
    Gpr.ofCode_low]

theorem two_pow_scaleBits {n : UInt8} (h : RM.scaleBits? n = some scale) :
    2 ^ scale.toNat = n.toNat := by
  unfold RM.scaleBits? at h
  split at h
  · next hn => cases h; rw [hn]; rfl
  · split at h
    · next hn => cases h; rw [hn]; rfl
    · split at h
      · next hn => cases h; rw [hn]; rfl
      · split at h
        · next hn => cases h; rw [hn]; rfl
        · cases h

end Memory

variable {mode : AddressingMode} {i : Instruction} {s : Size} {o : Operand} {g : Gpr} {m : RM}

/-- A number names the register that it was taken from. As a byte, a register from SP to DI has
to be marked by a REX byte on wide hosts, and narrow hosts have none. -/
theorem register_code {present : Bool} (hhost : present = true → mode.wide = true)
    (hmark : s = .byte → (byteRex mode (.gpr g)).bare = true → present = true) :
    register present s (BitVec.ofBool g.extended ++ g.low) = registerNamed mode.wide s g := by
  by_cases hs : s = .byte
  · subst hs
    replace hmark := hmark rfl
    simp only [byteRex] at hmark
    cases hw : mode.wide with
    | true =>
      simp only [hw] at hmark
      cases present with
      | true => cases g <;> rfl
      | false => cases g <;> first | rfl | exact absurd (hmark rfl) (by decide)
    | false =>
      have hno : present = false := by
        cases present with
        | false => rfl
        | true => exact absurd (hhost rfl) (by simp [hw])
      subst hno
      cases g <;> rfl
  · unfold register registerNamed
    rw [if_neg fun h => hs h.1, if_neg fun h => hs h.1, Gpr.ofCode_low]

/-- The operand of a request and what it becomes in the r/m field. -/
inductive Denotes (mode : AddressingMode) : Operand → RM → Prop
  | register (r : Gpr) : Denotes mode (.reg (.gpr r)) (.register r)
  | based {base : Gpr} {n : UInt8} {disp : Int32} {form : BitVec 2 × Displacement}
      (h : Displaces base.low disp form) :
      Denotes mode (.mem (.gpr base) .none n disp) (.based base form)
  | indexed {base index : Gpr} {n : UInt8} {scale : BitVec 2} {disp : Int32}
      {form : BitVec 2 × Displacement} (hi : index ≠ .sp) (hn : RM.scaleBits? n = some scale)
      (h : Displaces base.low disp form) :
      Denotes mode (.mem (.gpr base) (.gpr index) n disp) (.indexed base index scale form)
  | absolute {address : HostAddress} (hm : mode = .absolute) (ha : address.toNat < 0x100000000) :
      Denotes mode (.state address)
        { mod := 0, rm := 5, disp := .dword address.toUInt32.toInt32 }
  | relative {address value : HostAddress} {base : BaseRegister} {d : Int32}
      {form : BitVec 2 × Displacement} (hm : mode = .baseRelative base value)
      (hd : displacement address value = .ok d) (h : Displaces base.val.low d form) :
      Denotes mode (.state address) (.based base.val form)

theorem denotes_memory {base index : Register} {n : UInt8} {disp : Int32}
    (h : RM.memory base index n disp = .ok m) : Denotes mode (.mem base index n disp) m := by
  cases base with
  | gpr b =>
    cases index with
    | none =>
      cases h
      exact .based (.shortest _ _)
    | gpr i =>
      simp only [RM.memory] at h
      split at h
      · cases h
      · next hi =>
        split at h
        · next k hk =>
          cases h
          exact .indexed hi hk (.shortest _ _)
        · cases h
    | st _ => cases h
    | unnamed _ => cases h
  | none => cases h
  | st _ => cases h
  | unnamed _ => cases h

theorem denotes_state {address : HostAddress} (h : RM.state mode address = .ok m) :
    Denotes mode (.state address) m := by
  cases mode with
  | absolute =>
    simp only [RM.state] at h
    split at h
    · next ha =>
      cases h
      exact .absolute rfl ha
    · cases h
  | baseRelative base value =>
    simp only [RM.state] at h
    split at h
    · next d hd =>
      cases h
      exact .relative rfl hd (.full _ d)
    · cases h

theorem denotes_ofOperand (h : RM.ofOperand mode o = .ok m) : Denotes mode o m := by
  cases o with
  | reg r =>
    cases r with
    | gpr r =>
      cases h
      exact .register r
    | none => cases h
    | st _ => cases h
    | unnamed _ => cases h
  | mem base index n disp => exact denotes_memory h
  | state address => exact denotes_state h
  | none => cases h
  | imm _ _ => cases h
  | abs _ => cases h
  | unnamed _ => cases h

namespace Denotes

theorem regular (h : Denotes mode o m) : Regular m := by
  cases h with
  | register r => exact regular_register r.low r.extended
  | based h => exact h.regular_based
  | indexed _ _ h => exact h.regular_indexed
  | absolute =>
    constructor
    · exact fun h => absurd h (by decide : (0 : BitVec 2) ≠ 3)
    · exact fun _ => ⟨fun h => absurd h Bool.false_ne_true,
        fun h => absurd h (by decide : (5 : BitVec 3) ≠ 4)⟩
    · exact fun _ => .inr ⟨rfl, rfl⟩
  | relative _ _ h => exact h.regular_based

theorem mod_ne (h : Denotes mode o m) (ho : o.isMemory = true) : m.mod ≠ 3 := by
  cases h with
  | register r => cases ho
  | based h => exact h.memory
  | indexed _ _ h => exact h.memory
  | absolute => exact (by decide : (0 : BitVec 2) ≠ 3)
  | relative _ _ h => exact h.memory

/-- The processor takes the r/m field for the operand. -/
theorem means (h : Denotes mode o m) {present : Bool} (hhost : present = true → mode.wide = true)
    (hmark : s = .byte → (operandByteRex mode o).bare = true → present = true) :
    Means mode s o (rmPlace mode.wide present s m) := by
  cases h with
  | register r => exact register_code hhost hmark
  | based h => exact h.rmPlace_based _ _ _
  | indexed hi hn h =>
    rw [h.rmPlace_indexed hi, two_pow_scaleBits hn]
    rfl
  | @absolute address hm ha =>
    subst hm
    refine ⟨address.toUInt32.toInt32, rfl, ?_⟩
    rw [UInt32.toUInt32_toInt32, UInt64.toNat_toUInt32]
    exact Nat.mod_eq_of_lt ha
  | relative hm hd h =>
    subst hm
    refine ⟨_, h.rmPlace_based _ _ _, ?_⟩
    rw [toInt_displacement hd]
    omega

end Denotes

end HostCode.Processor
