import Mathlib.Algebra.Group.Int.Defs
import Mathlib.Algebra.Group.Nat.Defs
import HostCode.Proofs.Processor.RoundTrip

/-! # Constants

An instruction may hold fewer bits of a constant than it works on, and the processor extends the
sign of those that it holds. The constant is kept if it comes out of this as it was given. Every
family chooses the size of what it holds by rules of its own, and all but one of them see to it
that the constant is kept: a product takes constants of 64 bits, and holds 32 of them.
-/

namespace HostCode

/-- The constant of an instruction that works with one, and the width that it was given. -/
def Request.constant? (r : Request) : Option (Int64 × UInt8) :=
  match r.op, r.src, r.aux with
  | .alu _, .imm v bits, _ | .mov, .imm v bits, _ | .test, .imm v bits, _ => some (v, bits)
  | .imul, src, .imm v bits => if src.isNone then none else some (v, bits)
  | _, _, _ => none

namespace Processor

open Encoding

def Fits (s : Size) (v : Int64) : Prop :=
  -2 ^ (s.bits - 1) ≤ v.toInt ∧ v.toInt < 2 ^ (s.bits - 1)

instance (s : Size) (v : Int64) : Decidable (Fits s v) := inferInstanceAs (Decidable (_ ∧ _))

/-- What an operation on `s` works with, if its constant is of size `t`. -/
def extendSign (t s : Size) (n : Nat) : BitVec s.bits := (BitVec.ofNat t.bits n).signExtend s.bits

variable {mode : AddressingMode} {r : Request} {i : Instruction} {s t given : Size} {wide : Bool}
  {v : Int64} {bits : UInt8}

/-! ## Signs -/

theorem extendSign_eq (t s : Size) (v : Int64) :
    extendSign t s (v.toUInt64.toNat % 2 ^ t.bits) =
      BitVec.ofInt s.bits (v.toInt.bmod (2 ^ t.bits)) := by
  have hlow : BitVec.ofNat t.bits (v.toUInt64.toNat % 2 ^ t.bits) =
      BitVec.setWidth t.bits v.toBitVec := by
    apply BitVec.eq_of_toNat_eq
    rw [BitVec.toNat_ofNat, Nat.mod_mod, BitVec.toNat_setWidth]
    rfl
  have ht : t.bits ≤ 64 := by cases t <;> decide
  rw [extendSign, hlow, BitVec.signExtend, BitVec.toInt_setWidth, ← v.toInt_toBitVec,
    BitVec.toInt_eq_toNat_bmod, Int.bmod_bmod_of_dvd]
  exact Nat.pow_dvd_pow 2 ht

theorem extendSign_of_fits (hv : Fits t v) (s : Size) :
    extendSign t s (v.toUInt64.toNat % 2 ^ t.bits) = BitVec.ofInt s.bits v.toInt := by
  rw [extendSign_eq, Int.bmod_eq_of_le]
  · cases t <;> exact hv.1
  · cases t <;> exact hv.2

theorem extendSign_self (s : Size) (v : Int64) :
    extendSign s s (v.toUInt64.toNat % 2 ^ s.bits) = BitVec.ofInt s.bits v.toInt := by
  rw [extendSign_eq]
  apply BitVec.eq_of_toInt_eq
  rw [BitVec.toInt_ofInt, BitVec.toInt_ofInt, Int.bmod_bmod]

theorem fits_of_extendSign
    (h : extendSign .dword .qword (v.toUInt64.toNat % 2 ^ Size.dword.bits) =
      BitVec.ofInt Size.qword.bits v.toInt) : Fits .dword v := by
  have hlow : -2 ^ 31 ≤ v.toInt.bmod (2 ^ 32) := Int.le_bmod (by decide)
  have hhigh : v.toInt.bmod (2 ^ 32) < 2 ^ 31 := Int.bmod_lt (by decide)
  have hv : v.toInt.bmod (2 ^ 64) = v.toInt := by
    rw [← v.toInt_toBitVec, BitVec.toInt_bmod_cancel]
  have hsame : (v.toInt.bmod (2 ^ 32)).bmod (2 ^ 64) = v.toInt.bmod (2 ^ 64) := by
    rw [extendSign_eq] at h
    have hint := congrArg BitVec.toInt h
    rwa [BitVec.toInt_ofInt, BitVec.toInt_ofInt] at hint
  rw [hv, Int.bmod_eq_of_le (by omega) (by omega)] at hsame
  rw [hsame] at hlow hhigh
  exact ⟨hlow, hhigh⟩

theorem Fits.mono (hv : Fits s v) (h : s.bits ≤ t.bits) : Fits t v := by
  cases s <;> cases t <;> simp only [Fits, Size.bits] at * <;> omega

/-! ## What is held -/

/-- The opcode map gives the instruction a constant of size `t`, and the instruction holds that
many bits of `v`. -/
structure Holds (wide : Bool) (i : Instruction) (t : Size) (v : Int64) : Prop where
  readable : Readable wide i
  imm : i.imm = some ⟨t, v⟩
  entry : ∃ e, lookup wide (fieldsOf i).size i.opcode i.modrm = some e ∧
    e.args.findSome? Arg.constantSize = some t ∧ .constant t ∈ e.args

theorem Holds.mem_operands (h : Holds wide i t v) {tail rest : List UInt8} {d : Decoded}
    (hd : decode wide (i.bytes ++ tail) = some (d, rest)) :
    .constant t (v.toUInt64.toNat % 2 ^ t.bits) ∈ d.operands := by
  obtain ⟨e, he, hsize, hmem⟩ := h.entry
  have he' : lookup wide (fieldsOf i).size (fieldsOf i).opcode (fieldsOf i).modrm = some e := he
  have hsize' : e.args.findSome? Arg.constantSize = i.imm.map (·.size) := by rw [hsize, h.imm]; rfl
  have hvalue : constantOf i = v.toUInt64.toNat % 2 ^ t.bits := by rw [constantOf, h.imm]; rfl
  rw [decode, takeFields_bytes h.readable] at hd
  simp only [he', hsize', takeConstant_field, hvalue] at hd
  obtain ⟨operands, ho, hd⟩ := Option.map_eq_some_iff.mp hd
  cases hd
  obtain ⟨p, hp, hplace⟩ := exists_mem_of_forall₂ (forall₂_of_mapM ho) hmem
  cases hplace
  exact hp

section Forms

variable {opcode : List UInt8} {o : Operand} {q : Register} {field : BitVec 3} {e : Entry}
  {j : Instruction} (hhost : i.rex.needed = true → mode.wide = true)
  (hc : e.args.findSome? Arg.constantSize = some t) (hlast : e.args.getLast? = some (.constant t))

include hhost hc hlast

theorem withExtension_holds (h : withExtension mode s opcode o field = .ok j)
    (hi : i = { j with imm := some ⟨t, v⟩ })
    (he : Listed mode.wide o.isMemory s opcode field e) : Holds mode.wide i t v := by
  subst hi
  obtain ⟨hf, -, -⟩ := withExtension_ok h
  have hf' : Formed mode s opcode field o { j with imm := some ⟨t, v⟩ } :=
    ⟨⟨hf.opcode, hf.size⟩, hf.modrm⟩
  obtain ⟨hread, he⟩ := hf'.readable hhost he
  exact ⟨hread, rfl, e, he, hc, List.mem_of_getLast? hlast⟩

theorem withRegister_holds (h : withRegister mode s opcode o q = .ok j)
    (hi : i = { j with imm := some ⟨t, v⟩ })
    (he : ∀ field, Listed mode.wide o.isMemory s opcode field e) : Holds mode.wide i t v := by
  subst hi
  obtain ⟨g, -, hf, -, -, -, -⟩ := withRegister_ok h
  have hf' : Formed mode s opcode g.low o { j with imm := some ⟨t, v⟩ } :=
    ⟨⟨hf.opcode, hf.size⟩, hf.modrm⟩
  obtain ⟨hread, he⟩ := hf'.readable hhost (he g.low)
  exact ⟨hread, rfl, e, he, hc, List.mem_of_getLast? hlast⟩

theorem Sized.holds (h : Sized s opcode i) (hi : i.imm = some ⟨t, v⟩) (hm : i.modrm = none)
    (ho : (isOpcode opcode && !hasModRM opcode) = true)
    (he : ∀ v, s = .byte ∨ v = s → lookup mode.wide v opcode none = some e) :
    Holds mode.wide i t v := by
  obtain ⟨hread, he⟩ := h.readable hhost hm ho he
  exact ⟨hread, hi, e, he, hc, List.mem_of_getLast? hlast⟩

end Forms

/-! ## What families hold -/

/-- A constant that was given with so many bits is not changed if an operation on `s` holds it in
`t`: all bits of the operation are held, or the constant has no more. -/
def Suffices (s : Size) (bits : UInt8) (t : Size) : Prop :=
  t = s ∨ s = .qword ∧ t = .dword ∧ bits ≠ 64 ∨ t = .byte ∧ bits = 8

theorem suffices_immediate (s : Size) (hb : bits ≠ 64) : Suffices s bits s.immediate := by
  cases s with
  | qword => exact .inr (.inl ⟨rfl, rfl, hb⟩)
  | _ => exact .inl rfl

theorem ofBits?_eq_some (hb : Size.ofBits? bits = some s) : bits = .ofNat s.bits := by
  unfold Size.ofBits? at hb
  repeat' split at hb
  all_goals cases hb
  all_goals assumption

theorem Suffices.kept (h : Suffices s bits t) (hb : Size.ofBits? bits = some given)
    (hv : Fits given v) :
    extendSign t s (v.toUInt64.toNat % 2 ^ t.bits) = BitVec.ofInt s.bits v.toInt := by
  rcases h with rfl | ⟨rfl, rfl, hne⟩ | ⟨rfl, rfl⟩
  · exact extendSign_self t v
  · refine extendSign_of_fits (hv.mono ?_) _
    cases given with
    | qword => exact absurd (ofBits?_eq_some hb) hne
    | _ => decide
  · cases hb
    exact extendSign_of_fits hv s

theorem alu_holds {a : Alu} (h : alu mode a r = .ok i) (hsrc : r.src = .imm v bits)
    (hhost : i.rex.needed = true → mode.wide = true) :
    ∃ s t, Size.ofBits? r.width = some s ∧ Holds mode.wide i t v ∧ bits ≠ 64 ∧
      Suffices s bits t := by
  rw [alu, bind_eq_ok] at h
  obtain ⟨s, hs, h⟩ := h
  simp only [hsrc] at h
  split at h
  · cases h
  next hno =>
  have hne : bits ≠ 64 := by
    rintro rfl
    simp at hno
  split at h
  · next hb =>
    subst hb
    obtain ⟨j, hj, hi⟩ := addImmediate_ok h
    exact ⟨_, _, sizeOf_ok hs,
      withExtension_holds hhost rfl rfl hj hi (listed_alu_byte a), hne, .inl rfl⟩
  next hb =>
  split at h
  · next h8 =>
    obtain ⟨j, hj, hi⟩ := addImmediate_ok h
    exact ⟨_, _, sizeOf_ok hs,
      withExtension_holds hhost rfl rfl hj hi (listed_alu_short a hb), hne,
      .inr (.inr ⟨rfl, h8⟩)⟩
  refine ⟨s, s.immediate, sizeOf_ok hs, ?_, hne, suffices_immediate s hne⟩
  split at h
  · cases h
    exact (sized_bare s _).holds hhost rfl rfl rfl rfl (by cases a <;> rfl)
      (lookup_alu_accumulator a hb)
  · obtain ⟨j, hj, hi⟩ := addImmediate_ok h
    exact withExtension_holds hhost rfl rfl hj hi (listed_alu_full a hb)

theorem test_holds (h : test mode r = .ok i) (hsrc : r.src = .imm v bits)
    (hhost : i.rex.needed = true → mode.wide = true) :
    ∃ s t, Size.ofBits? r.width = some s ∧ Holds mode.wide i t v ∧ bits ≠ 64 ∧
      Suffices s bits t := by
  rw [test, bind_eq_ok] at h
  obtain ⟨s, hs, h⟩ := h
  simp only [hsrc] at h
  split at h
  · cases h
  split at h
  · cases h
  next hne =>
  refine ⟨s, s.immediate, sizeOf_ok hs, ?_, hne, suffices_immediate s hne⟩
  split at h
  · next hax =>
    obtain ⟨hb, -⟩ : s ≠ .byte ∧ r.dst = .reg (.gpr .ax) := by simpa using hax
    cases h
    exact (sized_bare s _).holds hhost rfl rfl rfl rfl rfl (lookup_test_accumulator hb)
  · obtain ⟨j, hj, hi⟩ := addImmediate_ok h
    exact withExtension_holds hhost rfl rfl hj hi listed_test_constant

theorem mov_holds (h : mov mode r = .ok (some i)) (hsrc : r.src = .imm v bits)
    (hhost : i.rex.needed = true → mode.wide = true) :
    ∃ s t, Size.ofBits? r.width = some s ∧ Holds mode.wide i t v ∧
      (bits = 64 → s = .qword ∧ r.dst.isReg = true) ∧ Suffices s bits t := by
  rw [mov, bind_eq_ok] at h
  obtain ⟨s, hs, h⟩ := h
  obtain ⟨op, width, cond, dst, src, aux⟩ := r
  obtain rfl : src = .imm v bits := hsrc
  replace hs := sizeOf_ok hs
  cases dst with
  | reg d =>
    simp only at h
    split at h
    · next hq =>
      obtain ⟨rfl, hne⟩ : s = .qword ∧ bits ≠ 64 := by simpa using hq
      obtain ⟨j, hj, h⟩ := bind_eq_ok.mp h
      cases h
      exact ⟨_, _, hs, withExtension_holds hhost rfl rfl hj rfl listed_mov_constant,
        (absurd · hne), .inr (.inl ⟨rfl, rfl, hne⟩)⟩
    split at h
    · cases h
    next hno =>
    obtain ⟨g, hg, h⟩ := bind_eq_ok.mp h
    obtain rfl := generalPurpose_ok hg
    simp only [bare, embedded_rex] at h
    cases h
    refine ⟨s, s, hs, (sized_of rfl).holds hhost rfl rfl rfl rfl ?_ (lookup_mov_embedded g),
      ?_, .inl rfl⟩
    · cases s <;> cases g <;> rfl
    · rintro rfl
      exact ⟨by simpa using hno, rfl⟩
  | _ =>
    simp only at h
    split at h
    · cases h
    next hno =>
    have hne : bits ≠ 64 := by
      rintro rfl
      simp at hno
    obtain ⟨j, hj, h⟩ := bind_eq_ok.mp h
    cases h
    exact ⟨s, _, hs, withExtension_holds hhost rfl rfl hj rfl listed_mov_constant,
      (absurd · hne), suffices_immediate s hne⟩

/-- The width of the constant does not matter here, except that bytes have a form of their
own. -/
theorem imul_holds (h : imul mode r = .ok i) (hsrc : r.src.isNone = false)
    (haux : r.aux = .imm v bits) (hhost : i.rex.needed = true → mode.wide = true) :
    ∃ s, Size.ofBits? r.width = some s ∧
      (bits = 8 ∧ Holds mode.wide i .byte v ∨ bits ≠ 8 ∧ Holds mode.wide i s.immediate v) := by
  rw [imul, if_neg (by simp [hsrc]), bind_eq_ok] at h
  obtain ⟨s, hs, h⟩ := h
  obtain ⟨hs, hb⟩ := wideSizeOf_ok hs
  refine ⟨s, hs, ?_⟩
  split at h
  · split at h
    · cases h
    simp only [haux] at h
    split at h
    · next h8 =>
      obtain ⟨j, hj, hi⟩ := addImmediate_ok h
      exact .inl ⟨h8, withRegister_holds hhost rfl rfl hj hi fun _ => listed_imul_short hb⟩
    · next h8 =>
      obtain ⟨j, hj, hi⟩ := addImmediate_ok h
      exact .inr ⟨h8, withRegister_holds hhost rfl rfl hj hi fun _ => listed_imul_full hb⟩
  · cases h

/-! ## What is kept -/

theorem constant?_cases (h : r.constant? = some (v, bits)) :
    ((∃ a, r.op = .alu a) ∨ r.op = .test ∨ r.op = .mov) ∧ r.src = .imm v bits ∨
      r.op = .imul ∧ r.src.isNone = false ∧ r.aux = .imm v bits := by
  unfold Request.constant? at h
  split at h
  · next hop hsrc =>
    cases h
    exact .inl ⟨.inl ⟨_, hop⟩, hsrc⟩
  · next hop hsrc =>
    cases h
    exact .inl ⟨.inr (.inr hop), hsrc⟩
  · next hop hsrc =>
    cases h
    exact .inl ⟨.inr (.inl hop), hsrc⟩
  · next hop haux =>
    split at h
    · cases h
    · next hsrc =>
      cases h
      exact .inr ⟨hop, Bool.eq_false_iff.mpr hsrc, haux⟩
  · cases h

/-- All but products keep their constants, and take one of 64 bits only where they can hold it. -/
theorem exists_suffices (h : family mode r = some (.ok (some i)))
    (hhost : i.rex.needed = true → mode.wide = true)
    (hop : (∃ a, r.op = .alu a) ∨ r.op = .test ∨ r.op = .mov) (hsrc : r.src = .imm v bits) :
    ∃ s t, Size.ofBits? r.width = some s ∧ Holds mode.wide i t v ∧ Suffices s bits t ∧
      (bits = 64 → r.op = .mov ∧ s = .qword ∧ r.dst.isReg = true) := by
  rcases hop with ⟨a, hop⟩ | hop | hop
  · simp only [family, hop] at h
    obtain ⟨s, t, hs, ht, hne, hsuf⟩ := alu_holds (written_ok h) hsrc hhost
    exact ⟨s, t, hs, ht, hsuf, (absurd · hne)⟩
  · simp only [family, hop] at h
    obtain ⟨s, t, hs, ht, hne, hsuf⟩ := test_holds (written_ok h) hsrc hhost
    exact ⟨s, t, hs, ht, hsuf, (absurd · hne)⟩
  · simp only [family, hop] at h
    obtain ⟨s, t, hs, ht, hreg, hsuf⟩ := mov_holds (Option.some.inj h) hsrc hhost
    exact ⟨s, t, hs, ht, hsuf, fun h64 => ⟨hop, hreg h64⟩⟩

/-- A product keeps its constant unless it holds half of a large one. -/
theorem imul_kept_iff (h : imul mode r = .ok i) (hsrc : r.src.isNone = false)
    (haux : r.aux = .imm v bits) (hhost : i.rex.needed = true → mode.wide = true)
    (hb : Size.ofBits? bits = some given) (hv : Fits given v) :
    ∃ s t, Size.ofBits? r.width = some s ∧ Holds mode.wide i t v ∧
      (extendSign t s (v.toUInt64.toNat % 2 ^ t.bits) = BitVec.ofInt s.bits v.toInt ↔
        ¬ (s = .qword ∧ given = .qword ∧ ¬ Fits .dword v)) := by
  obtain ⟨s, hs, ⟨rfl, ht⟩ | ⟨-, ht⟩⟩ := imul_holds h hsrc haux hhost
  · cases hb
    exact ⟨s, .byte, hs, ht, iff_of_true (extendSign_of_fits hv s) fun h => nomatch h.2.1⟩
  · refine ⟨s, s.immediate, hs, ht, ?_⟩
    by_cases hq : s = .qword
    · subst hq
      refine ⟨fun hkept h => h.2.2 (fits_of_extendSign hkept), fun hno => ?_⟩
      -- a constant of fewer bits is never large
      refine extendSign_of_fits (Decidable.not_not.mp fun hlarge => hno ⟨rfl, ?_, hlarge⟩) _
      cases given with
      | qword => rfl
      | _ => exact absurd (hv.mono (by decide)) hlarge
    · have hall : s.immediate = s := by
        cases s with
        | qword => exact absurd rfl hq
        | _ => rfl
      rw [hall]
      exact iff_of_true (extendSign_self s v) fun h => hq h.1

/-- An accepted constant is what the processor works with, except for large constants of products
on 64 bits. Other than products, only moves of 64 bits to a register take 64 bits of a constant. -/
theorem constant_kept_iff (mode : AddressingMode) (r : Request) (o : Option Instruction)
    (v : Int64) (bits : UInt8) (given : Size) (h : Encoding.encode mode r = .ok o)
    (hr : r.constant? = some (v, bits)) (hb : Size.ofBits? bits = some given)
    (hv : Fits given v) :
    ∃ i s d t n, o = some i ∧ Size.ofBits? r.width = some s ∧
      (∀ tail, decode mode.wide (i.bytes ++ tail) = some (d, tail)) ∧ .constant t n ∈ d.operands ∧
      (extendSign t s n = BitVec.ofInt s.bits v.toInt ↔
        ¬ (r.op = .imul ∧ s = .qword ∧ given = .qword ∧ ¬ Fits .dword v)) ∧
      (given = .qword → r.op = .imul ∨ r.op = .mov ∧ s = .qword ∧ r.dst.isReg = true) := by
  cases o with
  | none =>
    obtain ⟨hop, hreg, hsame⟩ := isIdle_of_encode_eq_none h
    rcases constant?_cases hr with ⟨-, hsrc⟩ | ⟨hop', -⟩
    · rw [hsame, hsrc] at hreg
      cases hreg
    · rw [hop] at hop'
      cases hop'
  | some i =>
    obtain ⟨hfamily, hhost⟩ := encode_eq_some_iff.mp h
    obtain ⟨d, -, hd⟩ := encode_answers h
    rcases constant?_cases hr with ⟨hop, hsrc⟩ | ⟨hop, hsrc, haux⟩
    · obtain ⟨s, t, hs, ht, hsuf, hreg⟩ := exists_suffices hfamily hhost hop hsrc
      refine ⟨i, s, d, t, _, rfl, hs, hd, ht.mem_operands (hd []), ?_, fun hq => .inr ?_⟩
      · have hne : r.op ≠ .imul := by
          rcases hop with ⟨a, hop⟩ | hop | hop <;> simp [hop]
        exact iff_of_true (hsuf.kept hb hv) fun h => hne h.1
      · subst hq
        exact hreg (ofBits?_eq_some hb)
    · simp only [family, hop] at hfamily
      obtain ⟨s, t, hs, ht, hkept⟩ := imul_kept_iff (written_ok hfamily) hsrc haux hhost hb hv
      refine ⟨i, s, d, t, _, rfl, hs, hd, ht.mem_operands (hd []), ?_, fun _ => .inl hop⟩
      simpa [hop] using hkept

/-- The least number of 32 bits is added to 64 bits of memory. -/
theorem constant_kept_least :
    ∃ i d t n, Encoding.encode (.baseRelative ⟨.r15, by decide⟩ 0)
        { op := .alu .add, width := 64, dst := .state 8, src := .imm (-0x80000000) 32 } =
          .ok (some i) ∧
      (∀ tail, decode true (i.bytes ++ tail) = some (d, tail)) ∧ .constant t n ∈ d.operands ∧
      extendSign t .qword n = BitVec.ofInt Size.qword.bits (-0x80000000) := by
  obtain ⟨i, s, d, t, n, hi, hs, hd, hn, hkept, -⟩ :=
    constant_kept_iff (.baseRelative ⟨.r15, by decide⟩ 0)
      { op := .alu .add, width := 64, dst := .state 8, src := .imm (-0x80000000) 32 }
      _ (-0x80000000) 32 .dword rfl rfl rfl (by decide)
  cases hi
  cases hs
  exact ⟨_, d, t, n, rfl, hd, hn, hkept.mpr (by decide)⟩

/-- A product accepts a constant of which it holds nothing but zeros. -/
theorem product_changes_constant :
    ∃ i d, Encoding.encode (.baseRelative ⟨.r15, by decide⟩ 0)
        { op := .imul, width := 64, dst := .reg (.gpr .ax), src := .reg (.gpr .bx),
          aux := .imm 0x100000000 64 } = .ok (some i) ∧
      (∀ tail, decode true (i.bytes ++ tail) = some (d, tail)) ∧
      .constant .dword 0 ∈ d.operands ∧
      extendSign .dword .qword 0 ≠ BitVec.ofInt Size.qword.bits 0x100000000 :=
  ⟨_, ⟨.imul, some .qword, none,
    [.register .ax .qword, .register .bx .qword, .constant .dword 0]⟩,
    rfl, fun _ => rfl, by decide, by decide⟩

end Processor

end HostCode
