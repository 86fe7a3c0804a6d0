import Mathlib.Tactic.FinCases
import HostCode.Decoder
import HostCode.Proofs.Processor.OpcodeMap
import HostCode.Proofs.Processor.Decode

/-! # What follows an opcode

To find the end of an instruction, it is enough to know whether a ModRM byte follows the opcode
and how long the constant is. The tables that say so are compared with the opcode map of the
processor, entry by entry: for everything in the map they announce what the processor reads.
-/

namespace HostCode.Decoder

open Processor (Fields Entry Arg hasModRM lookup)

/-! ## Entries of the opcode map -/

theorem forall_byte {P : UInt8 → Prop} (h : ∀ c : BitVec 8, P ⟨c⟩) (c : UInt8) : P c := h c.toBitVec

def modifiersOf (f : Fields) : Modifiers := { word := f.word, qword := f.rex.w }

/-- What follows an opcode is what its entry in the opcode map takes. -/
structure Suits (wide : Bool) (f : Fields) (opcode : List UInt8) (e : Entry) (l : Layout) :
    Prop where
  modrm : l.modrm = hasModRM opcode
  tail : l.tail.size wide (modifiersOf f) = (e.args.findSome? Arg.constantSize).elim 0 Size.bytes
  /-- A long constant has no ModRM byte before it. -/
  short : (!l.modrm || [Tail.none, .bytes 1, .sized].contains l.tail) = true

variable {wide : Bool} {f : Fields} {b : UInt8} {e : Entry} {modrm : Nat}

theorem size_sized (wide : Bool) (f : Fields) :
    Tail.sized.size wide (modifiersOf f) = f.size.immediate.bytes := by
  unfold modifiersOf Fields.size Tail.size
  cases f.rex.w <;> cases f.word <;> rfl

theorem size_full (wide : Bool) (f : Fields) :
    Tail.full.size wide (modifiersOf f) = f.size.bytes := by
  unfold modifiersOf Fields.size Tail.size
  cases f.rex.w <;> cases f.word <;> rfl

theorem size_address (wide : Bool) (f : Fields) :
    Tail.address.size wide (modifiersOf f) = (Processor.hostSize wide).bytes := by
  cases wide <;> rfl

theorem hasModRM_of_lt : ∀ b : UInt8, b < 0x40 → hasModRM [b] = decide (b.toNat % 8 < 4) := by
  apply forall_byte
  decide +kernel

theorem arithmetic_suits (hb : b < 0x40) (h : Processor.arithmetic f.size b = some e) :
    ∃ l, oneByte wide b.toNat modrm = some l ∧ Suits wide f [b] e l := by
  have hlt : b.toNat < 0x40 := hb
  have hodd (hk : b.toNat % 8 = 5) : Processor.sizeIn b f.size = f.size := by
    refine if_neg fun hz => ?_
    have hzero : b.toNat % 2 = 0 := congrArg UInt8.toNat hz
    omega
  have heven (hk : b.toNat % 8 = 4) : Processor.sizeIn b f.size = .byte := by
    refine if_pos (UInt8.toNat_inj.mp ?_)
    change b.toNat % 2 = 0
    omega
  simp only [Processor.arithmetic, UInt8.lt_iff_toNat_lt, UInt8.toNat_mod, UInt8.reduceToNat] at h
  unfold oneByte
  dsimp only
  rw [if_pos hlt]
  have hmodrm := hasModRM_of_lt b hb
  have hk : b.toNat % 8 < 4 ∨ b.toNat % 8 = 4 ∨ b.toNat % 8 = 5 ∨ 6 ≤ b.toNat % 8 := by omega
  rcases hk with hk | hk | hk | hk
  · split
    · omega
    · omega
    · omega
    · omega
    · refine ⟨_, rfl, ?_, ?_, ?_⟩
      · rw [hmodrm, decide_eq_true hk]
      · split at h <;> cases h <;> rfl
      · rfl
  · rw [if_neg (by omega), if_neg (by omega), if_pos (by omega), heven hk] at h
    cases h
    rw [hk]
    refine ⟨_, rfl, ?_, rfl, rfl⟩
    rw [hmodrm, hk]
    rfl
  · rw [if_neg (by omega), if_neg (by omega), if_pos (by omega), hodd hk] at h
    cases h
    rw [hk]
    refine ⟨_, rfl, ?_, size_sized wide f, rfl⟩
    rw [hmodrm, hk]
    rfl
  · rw [if_neg (by omega), if_neg (by omega), if_neg (by omega)] at h
    cases h

theorem hasModRM_of_embedded : ∀ b : UInt8,
    0x50 ≤ b.toNat ∧ b.toNat < 0x60 ∨ 0xb0 ≤ b.toNat ∧ b.toNat < 0xc0 →
      hasModRM [b] = false := by
  apply forall_byte
  decide +kernel

theorem not_between {n i j : Nat} (h : n < i ∨ j ≤ n) :
    ¬ (decide (i ≤ n) && decide (n < j)) = true := by
  simp only [Bool.and_eq_true, decide_eq_true_eq]
  omega

theorem between {n i j : Nat} (h : i ≤ n ∧ n < j) : (decide (i ≤ n) && decide (n < j)) = true := by
  simpa using h

theorem of_between {i j : UInt8} (h : (decide (i ≤ b) && decide (b < j)) = true) :
    i.toNat ≤ b.toNat ∧ b.toNat < j.toNat := by
  simpa [UInt8.le_iff_toNat_le, UInt8.lt_iff_toNat_lt] using h

theorem oneByte_embedded {n : Nat} (hn : 0x50 ≤ n ∧ n < 0x60) :
    oneByte wide n modrm = Layout.plain .none := by
  unfold oneByte
  dsimp only
  rw [if_neg (by omega), if_neg (by omega), if_pos hn.2]

theorem oneByte_constant {n : Nat} (hn : 0xb0 ≤ n ∧ n < 0xc0) :
    oneByte wide n modrm = Layout.plain (if n < 0xb8 then .bytes 1 else .full) := by
  unfold oneByte
  dsimp only
  rw [if_neg (by omega), if_neg (by omega), if_neg (by omega), if_neg (not_between (by omega)),
    if_neg (not_between (by omega)), if_neg (not_between (by omega)),
    if_neg (not_between (by omega))]
  by_cases hlt : n < 0xb8
  · rw [if_pos (between ⟨hn.1, hlt⟩), if_pos hlt]
  · rw [if_neg (not_between (by omega)), if_pos (between (by omega)), if_neg hlt]

theorem oneByte_shift {reg : BitVec 3} {o : Shift} (hmid : middle modrm = reg.toNat)
    (ho : Processor.shiftOf? reg = some o) :
    oneByte wide 0xc0 modrm = some ⟨true, .bytes 1⟩ ∧
      oneByte wide 0xc1 modrm = some ⟨true, .bytes 1⟩ ∧
      oneByte wide 0xd2 modrm = some ⟨true, .none⟩ ∧
      oneByte wide 0xd3 modrm = some ⟨true, .none⟩ := by
  -- the group of shifts has no sixth member
  have h6 : ¬ (middle modrm == 6) = true := by
    rw [hmid, beq_iff_eq]
    intro h6
    obtain rfl : reg = 6 := BitVec.eq_of_toNat_eq h6
    cases ho
  have hif (l : Layout) : (if middle modrm == 6 then none else some l) = some l := if_neg h6
  exact ⟨hif _, hif _, hif _, hif _⟩

/-- In the group of instructions on one operand, the first member takes a constant and the second
is none. -/
def unaryGroup (first : Layout) : (reg : Nat) → Option Layout
  | 0 => some first
  | 1 => none
  | _ => some ⟨true, .none⟩

theorem oneByte_unaryGroup (wide : Bool) (modrm : Nat) :
    oneByte wide 0xf6 modrm = unaryGroup ⟨true, .bytes 1⟩ (middle modrm) ∧
      oneByte wide 0xf7 modrm = unaryGroup ⟨true, .sized⟩ (middle modrm) := ⟨rfl, rfl⟩

theorem oneByte_zero (h0 : middle modrm = 0) :
    oneByte wide 0xc6 modrm = some ⟨true, .bytes 1⟩ ∧
      oneByte wide 0xc7 modrm = some ⟨true, .sized⟩ ∧
      oneByte wide 0xf6 modrm = some ⟨true, .bytes 1⟩ ∧
      oneByte wide 0xf7 modrm = some ⟨true, .sized⟩ := by
  have hif (l : Layout) :
      (if middle modrm == 0 || modrm == 0xf8 then some l else none) = some l :=
    if_pos (by simp [h0])
  obtain ⟨hbyte, hsized⟩ := oneByte_unaryGroup wide modrm
  rw [hbyte, hsized, h0]
  exact ⟨hif _, hif _, rfl, rfl⟩

theorem oneByte_unary {reg : BitVec 3} {o : Op} (hmid : middle modrm = reg.toNat)
    (ho : Processor.unaryOf? reg = some o) :
    oneByte wide 0xf6 modrm = some ⟨true, .none⟩ ∧
      oneByte wide 0xf7 modrm = some ⟨true, .none⟩ := by
  have hgroup (l : Layout) : unaryGroup l (middle modrm) = some ⟨true, .none⟩ := by
    rw [hmid]
    unfold unaryGroup
    split
    · next h0 =>
      obtain rfl : reg = 0 := BitVec.eq_of_toNat_eq h0
      cases ho
    · next h1 =>
      obtain rfl : reg = 1 := BitVec.eq_of_toNat_eq h1
      cases ho
    · rfl
  obtain ⟨hbyte, hsized⟩ := oneByte_unaryGroup wide modrm
  exact ⟨hbyte.trans (hgroup _), hsized.trans (hgroup _)⟩

theorem oneByte_count (h : middle modrm = 0 ∨ middle modrm = 1) :
    oneByte wide 0xfe modrm = some ⟨true, .none⟩ :=
  if_pos (by omega : middle modrm ≤ 1)

/-- In the group that ends the map, the members that go to another segment take no register. -/
def lastGroup (modrm : Nat) : (reg : Nat) → Option Layout
  | 3 | 5 => Layout.operand modrm .memory .none
  | 7 => none
  | _ => some ⟨true, .none⟩

theorem oneByte_last
    (h : middle modrm = 0 ∨ middle modrm = 1 ∨ middle modrm = 2 ∨ middle modrm = 4) :
    oneByte wide 0xff modrm = some ⟨true, .none⟩ := by
  have hgroup : oneByte wide 0xff modrm = lastGroup modrm (middle modrm) := rfl
  rw [hgroup]
  rcases h with h | h | h | h <;> rw [h] <;> rfl

/-- The middle bits of the ModRM byte choose in a group of instructions. They need not be known
where no such byte comes. -/
theorem oneByte_suits {reg : BitVec 3} {register : Bool}
    (hreg : hasModRM [b] = true → middle modrm = reg.toNat ∧ isRegister modrm = register)
    (h : Processor.oneByte wide f.size b reg register = some e) :
    ∃ l, oneByte wide b.toNat modrm = some l ∧ Suits wide f [b] e l := by
  unfold Processor.oneByte at h
  dsimp only at h
  split at h
  · next hb => exact arithmetic_suits hb h
  split at h
  · next hb =>
    have hb := of_between hb
    cases h
    exact ⟨_, oneByte_embedded hb, (hasModRM_of_embedded b (.inl hb)).symm, rfl, rfl⟩
  split at h
  · next hb =>
    have hb : 0xb0 ≤ b.toNat ∧ b.toNat < 0xb8 := of_between hb
    have hrange : 0xb0 ≤ b.toNat ∧ b.toNat < 0xc0 := ⟨hb.1, Nat.lt_trans hb.2 (by decide)⟩
    cases h
    refine ⟨_, oneByte_constant hrange, (hasModRM_of_embedded b (.inr hrange)).symm, ?_, rfl⟩
    rw [if_pos hb.2]
    rfl
  split at h
  · next hb =>
    have hb : 0xb8 ≤ b.toNat ∧ b.toNat < 0xc0 := of_between hb
    have hrange : 0xb0 ≤ b.toNat ∧ b.toNat < 0xc0 := ⟨Nat.le_trans (by decide) hb.1, hb.2⟩
    cases h
    refine ⟨_, oneByte_constant hrange, (hasModRM_of_embedded b (.inr hrange)).symm, ?_, rfl⟩
    rw [if_neg (Nat.not_lt_of_le hb.1)]
    exact size_full wide f
  split at h
  -- most entries have one layout, whatever the middle bits are
  all_goals try
    cases h <;> first
      | exact ⟨_, rfl, rfl, rfl, rfl⟩
      | exact ⟨_, rfl, rfl, size_sized wide f, rfl⟩
      | exact ⟨_, rfl, rfl, size_address wide f, rfl⟩
  -- 0x63 is an instruction on wide hosts only, and 0x8d takes no register
  · split at h
    · cases h; exact ⟨_, rfl, rfl, rfl, rfl⟩
    · cases h
  all_goals obtain ⟨hmid, hregister⟩ := hreg rfl
  · split at h
    · cases h
    · next hm =>
      cases h
      have hmemory : Shape.memory.admits modrm = true := by
        simpa [Shape.admits, hregister] using hm
      exact ⟨_, if_pos hmemory, rfl, rfl, rfl⟩
  -- the groups from 0xc0 on, in the order of their opcodes
  · obtain ⟨o, ho, rfl⟩ := Option.map_eq_some_iff.mp h
    exact ⟨_, (oneByte_shift hmid ho).1, rfl, rfl, rfl⟩
  · obtain ⟨o, ho, rfl⟩ := Option.map_eq_some_iff.mp h
    exact ⟨_, (oneByte_shift hmid ho).2.1, rfl, rfl, rfl⟩
  · split at h
    · next hz =>
      subst hz
      cases h
      exact ⟨_, (oneByte_zero hmid).1, rfl, rfl, rfl⟩
    · cases h
  · split at h
    · next hz =>
      subst hz
      cases h
      exact ⟨_, (oneByte_zero hmid).2.1, rfl, size_sized wide f, rfl⟩
    · cases h
  · obtain ⟨o, ho, rfl⟩ := Option.map_eq_some_iff.mp h
    exact ⟨_, (oneByte_shift hmid ho).2.2.1, rfl, rfl, rfl⟩
  · obtain ⟨o, ho, rfl⟩ := Option.map_eq_some_iff.mp h
    exact ⟨_, (oneByte_shift hmid ho).2.2.2, rfl, rfl, rfl⟩
  · split at h
    · next hz =>
      subst hz
      cases h
      exact ⟨_, (oneByte_zero hmid).2.2.1, rfl, rfl, rfl⟩
    · obtain ⟨o, ho, rfl⟩ := Option.map_eq_some_iff.mp h
      exact ⟨_, (oneByte_unary hmid ho).1, rfl, rfl, rfl⟩
  · split at h
    · next hz =>
      subst hz
      cases h
      exact ⟨_, (oneByte_zero hmid).2.2.2, rfl, size_sized wide f, rfl⟩
    · obtain ⟨o, ho, rfl⟩ := Option.map_eq_some_iff.mp h
      exact ⟨_, (oneByte_unary hmid ho).2, rfl, rfl, rfl⟩
  · split at h
    · next hz =>
      subst hz
      cases h
      exact ⟨_, oneByte_count (.inl hmid), rfl, rfl, rfl⟩
    split at h
    · next hz =>
      subst hz
      cases h
      exact ⟨_, oneByte_count (.inr hmid), rfl, rfl, rfl⟩
    · simp at h
  · split at h
    · next hz =>
      subst hz
      cases h
      exact ⟨_, oneByte_last (.inl hmid), rfl, rfl, rfl⟩
    split at h
    · next hz =>
      subst hz
      cases h
      exact ⟨_, oneByte_last (.inr (.inl hmid)), rfl, rfl, rfl⟩
    split at h
    · next hz =>
      obtain ⟨-, rfl⟩ := hz
      cases h
      exact ⟨_, oneByte_last (.inr (.inr (.inl hmid))), rfl, rfl, rfl⟩
    split at h
    · next hz =>
      obtain ⟨-, rfl⟩ := hz
      cases h
      exact ⟨_, oneByte_last (.inr (.inr (.inr hmid))), rfl, rfl, rfl⟩
    · cases h

/-- The opcode map has no floating point instruction with a constant, and all of its floating point
instructions are known. -/
theorem float_known : ∀ b ∈ ([0xd8, 0xd9, 0xda, 0xdb, 0xdc, 0xdd, 0xde, 0xdf] : List UInt8),
    ∀ c : UInt8, (if c.toBitVec.extractLsb' 6 2 = 3 then
        Processor.floatRegister b (c.toBitVec.extractLsb' 3 3) (c.toBitVec.extractLsb' 0 3)
      else Processor.floatMemory b (c.toBitVec.extractLsb' 3 3)).all fun e =>
        isFloat b.toNat c.toNat ∧ e.args.findSome? Arg.constantSize = none := by
  intro b hb
  apply forall_byte
  revert b
  decide +kernel

theorem float_mem : ∀ b : UInt8, (0xd8 ≤ b && b < 0xe0) = true →
    b ∈ ([0xd8, 0xd9, 0xda, 0xdb, 0xdc, 0xdd, 0xde, 0xdf] : List UInt8) := by
  apply forall_byte
  decide +kernel

theorem twoByte_suits (modrm : Nat) (h : Processor.twoByte f.size b = some e) :
    ∃ l, twoByte wide (modifiersOf f) b.toNat modrm = some l ∧ Suits wide f [0x0f, b] e l := by
  have hflag : ∀ b : UInt8,
      ((0x40 ≤ b && b < 0x50) = true → b = 0x40 + .ofNat (Processor.flagOf b).code.toNat) ∧
      ((0x90 ≤ b && b < 0xa0) = true → b = 0x90 + .ofNat (Processor.flagOf b).code.toNat) := by
    apply forall_byte
    decide +kernel
  unfold Processor.twoByte at h
  split at h
  · next hb =>
    have hb' := (hflag b).1 hb
    cases h
    generalize Processor.flagOf b = c at hb' ⊢
    subst hb'
    cases c <;> exact ⟨_, rfl, rfl, rfl, rfl⟩
  split at h
  · next hb =>
    have hb' := (hflag b).2 hb
    cases h
    generalize Processor.flagOf b = c at hb' ⊢
    subst hb'
    cases c <;> exact ⟨_, rfl, rfl, rfl, rfl⟩
  split at h <;> cases h <;> exact ⟨_, rfl, rfl, rfl, rfl⟩

/-! ## From the opcode to its layout -/

theorem modrm_parts : ∀ c : UInt8, c.toNat / 64 = (c.toBitVec.extractLsb' 6 2).toNat ∧
    middle c.toNat = (c.toBitVec.extractLsb' 3 3).toNat ∧
    c.toNat % 8 = (c.toBitVec.extractLsb' 0 3).toNat ∧
    isRegister c.toNat = decide (c.toBitVec.extractLsb' 6 2 = 3) := by
  apply forall_byte
  decide +kernel

def Begins (bytes : List UInt8) (reg : BitVec 3) (m : RM) : Prop :=
  ∃ c rest, bytes = c :: rest ∧ reg = c.toBitVec.extractLsb' 3 3 ∧
    m.mod = c.toBitVec.extractLsb' 6 2 ∧ m.rm = c.toBitVec.extractLsb' 0 3

theorem lookup_one_suits {modrm : Option (BitVec 3 × RM)} {rest : List UInt8}
    (hm : modrm.isSome = hasModRM [b]) (hrest : ∀ reg m, modrm = some (reg, m) → Begins rest reg m)
    (h : lookup wide f.size [b] modrm = some e) :
    ∃ l, oneByte wide b.toNat (opcode.peek rest) = some l ∧ Suits wide f [b] e l := by
  cases modrm with
  | none =>
    refine oneByte_suits (fun hyes => ?_) h
    rw [← hm] at hyes
    cases hyes
  | some rm =>
    obtain ⟨reg, m⟩ := rm
    obtain ⟨c, cs, rfl, rfl, hmod, hlast⟩ := hrest reg m rfl
    change ∃ l, oneByte wide b.toNat c.toNat = some l ∧ _
    rw [lookup] at h
    split at h
    · next hb =>
      have hknown := float_known b (float_mem b hb) c
      rw [← hmod, ← hlast, h, Option.all_some, decide_eq_true_eq] at hknown
      obtain ⟨hfloat, hnone⟩ := hknown
      refine ⟨⟨true, .none⟩, ?_, hm, ?_, ?_⟩
      · have hmem := float_mem b hb
        fin_cases hmem <;> exact if_pos hfloat
      · rw [hnone]
        rfl
      · rfl
    · refine oneByte_suits (fun _ => ?_) h
      rw [hmod]
      exact ⟨(modrm_parts c).2.1, (modrm_parts c).2.2.2⟩

end HostCode.Decoder
