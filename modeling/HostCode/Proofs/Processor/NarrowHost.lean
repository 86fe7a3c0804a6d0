import HostCode.Proofs.Processor.RoundTrip

/-! # Narrow hosts

The processor of a narrow host knows no REX byte, so there is no room in its instructions for the
number of an upper register, and no way to ask for 64 bits. Since it takes an instruction for what
was asked, no request that asks for more than such a host has comes to an instruction.
-/

namespace HostCode

/-- The registers that narrow hosts have: AX to DI, and the floating point stack. -/
def Register.narrow : List Register := (Gpr.all.take 8).map gpr ++ stack.map st

theorem Register.mem_narrow {g : Gpr} (h : g.extended = false) : gpr g ∈ narrow := by
  revert h
  cases g <;> decide

theorem Register.st_mem_narrow : ∀ i, st i ∈ narrow := by decide

def Operand.registers : Operand → List Register
  | reg r => [r]
  | mem base index _ _ => if index = .none then [base] else [base, index]
  | _ => []

/-- The width of a request is the size that the operation works on. Control and the stack have
the width of an address, and floating point values a width of their own. -/
def Op.isSized : Op → Bool
  | transfer _ | stack _ | plain _ | floatMemory _ | floatStack _ => false
  | _ => true

namespace Processor

open Encoding

/-! ## Sizes without a REX byte -/

section Sizes

variable {wide register : Bool} {v : Size} {b : UInt8} {reg : BitVec 3} {e : Entry}

/-- An operation that comes in several sizes is on bytes, or on the size that the bytes before its
opcode ask for. -/
def Entry.Fits (v : Size) (e : Entry) : Prop :=
  e.op.isSized = true → ∃ s, e.width = some s ∧ (s = .byte ∨ s = v)

theorem Entry.fits_of_not_isSized (h : e.op.isSized = false) : e.Fits v :=
  fun hs => absurd hs (by simp [h])

theorem sizeIn_cases (b : UInt8) (v : Size) : sizeIn b v = .byte ∨ sizeIn b v = v := by
  unfold sizeIn
  split
  · exact .inl rfl
  · exact .inr rfl

theorem Entry.fits_sizeIn (h : e.width = some (sizeIn b v)) : e.Fits v :=
  fun _ => ⟨_, h, sizeIn_cases b v⟩

theorem arithmetic_fits (h : arithmetic v b = some e) : e.Fits v := by
  simp only [arithmetic] at h
  apply Entry.fits_sizeIn (b := b)
  repeat' split at h
  all_goals cases h
  all_goals rfl

theorem shifts_fits {count : Arg} (h : shifts (sizeIn b v) reg count = some e) : e.Fits v := by
  obtain ⟨o, -, rfl⟩ := Option.map_eq_some_iff.mp h
  exact Entry.fits_sizeIn rfl

theorem oneByte_fits (h : oneByte wide v b reg register = some e) : e.Fits v := by
  unfold oneByte at h
  dsimp only at h
  split at h
  · exact arithmetic_fits h
  -- the opcodes come apart first, and then the groups by the middle bits
  all_goals repeat' split at h
  all_goals first
    | exact shifts_fits h
    | (obtain ⟨o, -, rfl⟩ := Option.map_eq_some_iff.mp h; exact Entry.fits_sizeIn rfl)
    | (cases h; first
        | exact Entry.fits_of_not_isSized rfl
        | exact fun _ => ⟨_, rfl, .inr rfl⟩
        | exact fun _ => ⟨_, rfl, .inl rfl⟩
        | exact Entry.fits_sizeIn rfl)
    | cases h

theorem twoByte_fits (h : twoByte v b = some e) : e.Fits v := by
  unfold twoByte at h
  repeat' split at h
  all_goals cases h
  all_goals first
    | exact fun _ => ⟨_, rfl, .inr rfl⟩
    | exact fun _ => ⟨_, rfl, .inl rfl⟩

theorem floatMemory_fits (h : floatMemory b reg = some e) : e.Fits v := by
  unfold floatMemory at h
  split at h <;> cases h <;> exact Entry.fits_of_not_isSized rfl

theorem floatRegister_fits {last : BitVec 3} (h : floatRegister b reg last = some e) :
    e.Fits v := by
  unfold floatRegister at h
  repeat' split at h
  all_goals cases h
  all_goals exact Entry.fits_of_not_isSized rfl

theorem lookup_fits {opcode : List UInt8} {modrm : Option (BitVec 3 × RM)}
    (h : lookup wide v opcode modrm = some e) : e.Fits v := by
  unfold lookup at h
  split at h
  · exact oneByte_fits h
  · split at h
    · split at h
      · exact floatRegister_fits h
      · exact floatMemory_fits h
    · exact oneByte_fits h
  · exact twoByte_fits h
  · cases h

end Sizes

/-! ## Registers without a REX byte -/

section Registers

variable {f : Fields} {bytes rest : List UInt8} {m : RM} {s : Size}

def Place.registers : Place → List Gpr
  | register r _ | high r => [r]
  | memory _ a => a.base.toList ++ (a.index.map (·.1)).toList
  | _ => []

def Place.IsLow (p : Place) : Prop := ∀ g ∈ p.registers, g.extended = false

theorem takeRex_narrow (bytes : List UInt8) : takeRex false bytes = ({}, bytes) := by
  cases bytes <;> rfl

theorem takeModRM_rex {p : Rex} {reg : BitVec 3} (h : takeModRM p bytes = some ((reg, m), rest)) :
    m.x = p.x ∧ m.b = p.b := by
  obtain ⟨-, hx, hb, -⟩ := takeModRM_eq_some_iff.mp h
  exact ⟨hx.symm, hb.symm⟩

theorem takeFields_narrow (h : takeFields false bytes = some (f, rest)) :
    f.rex = {} ∧ ∀ reg m, f.modrm = some (reg, m) → m.x = false ∧ m.b = false := by
  simp only [takeFields, takeRex_narrow] at h
  split at h
  · cases h
  split at h
  · obtain ⟨⟨⟨reg, m⟩, rest'⟩, hm, h⟩ := Option.map_eq_some_iff.mp h
    cases h
    refine ⟨rfl, fun reg' m' hm' => ?_⟩
    cases hm'
    exact takeModRM_rex hm
  · cases h
    refine ⟨rfl, fun reg m hm => ?_⟩
    cases hm

theorem extended_ofCode : ∀ c : BitVec 3,
    (Gpr.ofCode (BitVec.ofBool false ++ c)).extended = false := by decide

theorem register_isLow (s : Size) (c : BitVec 3) :
    (register false s (BitVec.ofBool false ++ c)).IsLow := by
  have hhigh : ∀ c : BitVec 3, (Gpr.ofCode (BitVec.ofBool false ++ c - 4)).extended = false ∨
      ¬ (4 ≤ BitVec.ofBool false ++ c) := by decide
  intro g hg
  unfold register at hg
  split at hg
  · next h =>
    obtain rfl := List.mem_singleton.mp hg
    exact (hhigh c).resolve_right fun hno => hno h.2.2.1
  · obtain rfl := List.mem_singleton.mp hg
    exact extended_ofCode c

theorem indexOf_low {sib : Sib} {g : Gpr} {n : Nat} (h : indexOf false sib = some (g, n)) :
    g.extended = false := by
  unfold indexOf at h
  split at h
  · cases h
  · cases h
    exact extended_ofCode _

theorem rmPlace_isLow (s : Size) (hx : m.x = false) (hb : m.b = false) :
    (rmPlace false false s m).IsLow := by
  unfold rmPlace
  rw [hx, hb]
  split
  · exact register_isLow s m.rm
  split
  · split
    · exact fun g hg => nomatch hg
    · intro g hg
      obtain rfl := List.mem_singleton.mp hg
      exact extended_ofCode _
  · next sib _ =>
    intro g hg
    simp only [Place.registers, List.mem_append, Option.mem_toList] at hg
    rcases hg with hg | hg
    · split at hg
      · cases hg
      · cases hg
        exact extended_ofCode _
    · obtain ⟨⟨g', n⟩, hi, rfl⟩ := Option.map_eq_some_iff.mp hg
      exact indexOf_low hi

theorem place_isLow {a : Arg} {value : Nat} {p : Place} (hrex : f.rex = {})
    (hm : ∀ reg m, f.modrm = some (reg, m) → m.x = false ∧ m.b = false)
    (h : a.place false f value = some p) : p.IsLow := by
  cases a with
  | rm s =>
    obtain ⟨⟨reg, m⟩, hmod, rfl⟩ := Option.map_eq_some_iff.mp h
    rw [hrex]
    obtain ⟨hx, hb⟩ := hm reg m hmod
    exact rmPlace_isLow s hx hb
  | reg s =>
    obtain ⟨⟨reg, m⟩, -, rfl⟩ := Option.map_eq_some_iff.mp h
    rw [hrex]
    exact register_isLow s reg
  | embedded s =>
    obtain ⟨b, -, rfl⟩ := Option.map_eq_some_iff.mp h
    rw [hrex]
    exact register_isLow s _
  | accumulator s =>
    cases h
    exact fun g hg => List.mem_singleton.mp hg ▸ rfl
  | counter =>
    cases h
    exact fun g hg => List.mem_singleton.mp hg ▸ rfl
  | float =>
    obtain ⟨⟨reg, m⟩, -, rfl⟩ := Option.map_eq_some_iff.mp h
    exact fun g hg => nomatch hg
  | constant s =>
    cases h
    exact fun g hg => nomatch hg
  | offset address s =>
    cases h
    exact fun g hg => nomatch hg

end Registers

/-- Whatever a narrow host takes the bytes for, it has all the registers for it, and works on less
than 64 bits. -/
theorem decode_narrow {bytes rest : List UInt8} {d : Decoded}
    (h : decode false bytes = some (d, rest)) :
    (∀ p ∈ d.operands, p.IsLow) ∧ (d.op.isSized = true → d.width ≠ some .qword) := by
  unfold decode at h
  split at h
  · cases h
  next f rest' hf =>
  obtain ⟨hrex, hm⟩ := takeFields_narrow hf
  split at h
  · cases h
  next e he =>
  split at h
  · cases h
  next value rest'' _ =>
  obtain ⟨operands, ho, h⟩ := Option.map_eq_some_iff.mp h
  cases h
  constructor
  · intro p hp
    obtain ⟨a, -, ha⟩ := exists_mem_of_forall₂ (forall₂_of_mapM ho).flip hp
    exact place_isLow hrex hm ha
  · intro hs hq
    obtain ⟨s, hw, hs⟩ := lookup_fits he hs
    obtain rfl : s = .qword := Option.some.inj (hw.symm.trans hq)
    have hsize : f.size ≠ .qword := by
      rw [Fields.size, hrex]
      cases f.word <;> decide
    rcases hs with hs | hs
    · cases hs
    · exact hsize hs.symm

/-! ## Requests -/

variable {mode : AddressingMode} {r : Request}

theorem registerNamed_of_extended {g : Gpr} (s : Size) (h : g.extended = true) :
    registerNamed false s g = .register g s := by
  unfold registerNamed
  split
  · cases g <;> first | rfl | cases h
  · rfl

theorem Means.extended_register {g : Gpr} {s : Size} {p : Place}
    (h : Means .absolute s (.reg (.gpr g)) p) (hp : p.IsLow) : g.extended = false := by
  apply Bool.eq_false_iff.mpr
  intro hext
  have hplace : p = .register g s := h.trans (registerNamed_of_extended s hext)
  have hlow := hp g (by rw [hplace]; exact List.mem_singleton_self g)
  rw [hext] at hlow
  cases hlow

theorem Means.narrow {s : Size} {o : Operand} {p : Place} (h : Means .absolute s o p)
    (hp : p.IsLow) : ∀ q ∈ o.registers, q ∈ Register.narrow := by
  intro q hq
  cases o with
  | reg q' =>
    obtain rfl := List.mem_singleton.mp hq
    cases q with
    | gpr g => exact Register.mem_narrow (h.extended_register hp)
    | st i => exact Register.st_mem_narrow i
    | none => exact h.elim
    | unnamed c => exact h.elim
  | mem base index scale disp =>
    cases base with
    | gpr b =>
      cases index with
      | none =>
        obtain rfl : p = .memory s ⟨some b, none, disp⟩ := h
        obtain rfl := List.mem_singleton.mp hq
        exact Register.mem_narrow (hp b (by simp [Place.registers]))
      | gpr i =>
        obtain rfl : p = .memory s ⟨some b, some (i, scale.toNat), disp⟩ := h
        rcases List.mem_pair.mp hq with rfl | rfl
        · exact Register.mem_narrow (hp b (by simp [Place.registers]))
        · exact Register.mem_narrow (hp i (by simp [Place.registers]))
      | st _ => exact h.elim
      | unnamed _ => exact h.elim
    | none => exact h.elim
    | st _ => exact h.elim
    | unnamed _ => exact h.elim
  | _ => cases hq

theorem width_of_setcc {i : Instruction} (hop : r.op = .setcc)
    (h : Encoding.encode mode r = .ok (some i)) : r.width ≠ 64 := by
  obtain ⟨hfamily, -⟩ := encode_eq_some_iff.mp h
  simp only [family, hop] at hfamily
  replace hfamily := written_ok hfamily
  simp only [setcc] at hfamily
  split at hfamily
  · cases hfamily
  · next hw =>
    rintro hq
    rw [hq] at hw
    exact hw (by decide)

theorem sizeOf?_of_isSized (hs : r.op.isSized = true) (hset : r.op ≠ .setcc) :
    sizeOf? r = Size.ofBits? r.width := by
  unfold sizeOf?
  split
  · next h => exact absurd h hset
  · next h => rw [h] at hs; cases hs
  · next h => rw [h] at hs; cases hs
  · next h => rw [h] at hs; cases hs
  · next h => rw [h] at hs; cases hs
  · rfl

/-- A narrow host has every register and every width of the requests that are accepted for it. A
move of a register to itself is accepted in any case, since it comes to nothing. -/
theorem narrow_suffices (r : Request) (o : Option Instruction)
    (h : Encoding.encode .absolute r = .ok o) (hr : ¬ r.IsIdle) :
    (∀ p ∈ readsOf false r, ∀ q ∈ p.1.registers, q ∈ Register.narrow) ∧
      (r.op.isSized = true → r.width ≠ 64) := by
  cases o with
  | none => exact absurd (isIdle_of_encode_eq_none h) hr
  | some i =>
    obtain ⟨d, hd, hdecode⟩ := encode_answers h
    obtain ⟨hlow, hwidth⟩ := decode_narrow (hdecode [])
    constructor
    · rintro ⟨o, s⟩ ho
      obtain ⟨p, hp, hmeans⟩ := hd.exists_place ho
      exact hmeans.narrow (hlow p hp)
    · intro hs hq
      by_cases hset : r.op = .setcc
      · exact width_of_setcc hset h hq
      · rw [hd.op, hd.width, sizeOf?_of_isSized hs hset, hq] at hwidth
        exact hwidth hs rfl

/-- A register is compared as a byte with memory that an index is needed for. -/
theorem narrow_suffices_indexed :
    ∃ o, Encoding.encode .absolute
        { op := .alu .cmp, width := 8, dst := .mem (.gpr .si) (.gpr .di) 4 8,
          src := .reg (.gpr .bx) } = .ok o ∧
      (∀ p ∈ readsOf false
          { op := .alu .cmp, width := 8, dst := .mem (.gpr .si) (.gpr .di) 4 8,
            src := .reg (.gpr .bx) },
        ∀ q ∈ p.1.registers, q ∈ Register.narrow) ∧
      (Op.isSized (.alu .cmp) = true → (8 : UInt8) ≠ 64) :=
  ⟨_, rfl, narrow_suffices _ _ rfl (by decide)⟩

/-- A move of a register to itself comes to nothing, and so its width does not matter. -/
theorem idle_move_of_any_width :
    Encoding.encode .absolute
        { op := .mov, width := 64, dst := .reg (.gpr .ax), src := .reg (.gpr .ax) } = .ok none ∧
      ¬ (Op.isSized .mov = true → (64 : UInt8) ≠ 64) :=
  ⟨rfl, by decide⟩

end Processor

end HostCode
