import Mathlib.Algebra.Group.Int.Defs
import Mathlib.Algebra.Group.Nat.Defs
import HostCode.Jump
import HostCode.Proofs.Processor.Jumps

/-! # Jumps over a displacement

A local jump is an opcode, which tells the condition, and a displacement behind it of one or of
four bytes. It leads that far from its end.
-/

namespace HostCode

open CodeBuffer

namespace Cond

/-- The jump is taken. A code that means nothing makes no jump. -/
def holds (x : Flags) : Cond → Bool
  | flag f => f.holds x
  | always => true
  | unnamed _ => false

def Named (c : Cond) : Prop := ∀ code, c ≠ unnamed code

def opcode (c : Cond) (short : Bool) : Except Misuse (List UInt8) :=
  if short then c.shortOpcode else c.nearOpcode

def jumpLength (c : Cond) (short : Bool) : Nat :=
  if short then 2 else if c = always then 5 else 6

theorem Named.exists_opcode {c : Cond} (h : c.Named) (short : Bool) :
    ∃ op, c.opcode short = .ok op := by
  cases c with
  | unnamed code => exact absurd rfl (h code)
  | _ => cases short <;> exact ⟨_, rfl⟩

theorem length_opcode {c : Cond} {short : Bool} {op : List UInt8} (h : c.opcode short = .ok op) :
    op.length + (if short then 1 else 4) = c.jumpLength short := by
  cases c <;> cases short <;> cases h <;> rfl

end Cond

def displacementBytes (n : Nat) (rel : Int) : List UInt8 :=
  littleEndian n (BitVec.ofInt (8 * n) rel).toNat

@[simp] theorem length_displacementBytes (n : Nat) (rel : Int) :
    (displacementBytes n rel).length = n := length_littleEndian ..

theorem ofLittleEndian_displacementBytes (n : Nat) (rel : Int) :
    BitVec.ofNat (8 * n) (ofLittleEndian (displacementBytes n rel)) = BitVec.ofInt (8 * n) rel := by
  have hpow : Nat.pow 256 n = 2 ^ (8 * n) := (Nat.pow_mul 2 8 n).symm
  rw [displacementBytes, ofLittleEndian_littleEndian, hpow, Nat.mod_eq_of_lt (BitVec.isLt _),
    BitVec.ofNat_toNat, BitVec.setWidth_eq]

namespace Processor.Machine

variable {wide : Bool} {x : Machine wide} {b : CodeBuffer} {o k n : Nat} {rel : Int}

theorem codeAddress_add_ofInt (base : HostAddress) {m target : Nat} (h : m + rel = target) :
    codeAddress wide base m + BitVec.ofInt _ rel = codeAddress wide base target := by
  rw [codeAddress, BitVec.add_assoc, ← BitVec.ofInt_natCast, ← BitVec.ofInt_add, h,
    BitVec.ofInt_natCast]
  rfl

/-- A jump leads as far from its end as its displacement says, if that can be said in so many
bytes. -/
theorem Loaded.relative_eq (h : x.Loaded b) (hin : o + k + n ≤ b.length)
    (hdisp : b.field ⟨o + k, n⟩ = displacementBytes n rel)
    (hrel : (BitVec.ofInt (8 * n) rel).toInt = rel) {target : Nat}
    (htarget : ((o + k + n : Nat) : Int) + rel = target) (taken : Bool) :
    x.relative (codeAddress wide b.address o) k n taken =
      if taken then codeAddress wide b.address target
        else codeAddress wide b.address (o + k + n) := by
  have hread : x.read (codeAddress wide b.address (o + k)) n = displacementBytes n rel :=
    (h.read_field (f := ⟨o + k, n⟩) hin).trans hdisp
  have hdist : x.distance (codeAddress wide b.address (o + k)) n = BitVec.ofInt _ rel := by
    rw [distance, hread, ofLittleEndian_displacementBytes, BitVec.signExtend, hrel]
  rw [relative, codeAddress_add, codeAddress_add, hdist, ← Nat.add_assoc,
    codeAddress_add_ofInt _ htarget]

theorem Loaded.step_opcode (h : x.Loaded b) {c : Cond} {short : Bool} {op : List UInt8}
    (hop : c.opcode short = .ok op) (hcode : b.field ⟨o, op.length⟩ = op) :
    x.step (codeAddress wide b.address o) = some (x.relative (codeAddress wide b.address o)
      op.length (if short then 1 else 4) (c.holds x.flags)) := by
  have hbyte {i : Nat} {byte : UInt8} (hi : op[i]? = some byte) :
      x.memory (codeAddress wide b.address (o + i)) = byte := h.memory_eq hcode hi
  have hfirst {byte : UInt8} (hi : op[0]? = some byte) :
      x.memory (codeAddress wide b.address o) = byte := hbyte hi
  cases c with
  | unnamed code => cases short <;> cases hop
  | always =>
    cases short with
    | true =>
      cases hop
      simp only [step, hfirst rfl]
      rw [if_pos trivial]
      rfl
    | false =>
      cases hop
      simp only [step, hfirst rfl]
      rw [if_neg (by decide), if_pos trivial]
      rfl
  | flag f =>
    cases short with
    | true =>
      cases hop
      have hupper : (0x70 + UInt8.ofNat f.code.toNat).toBitVec.extractLsb' 4 4 = 7 := by
        cases f <;> rfl
      have hlower : (0x70 + UInt8.ofNat f.code.toNat).toBitVec.extractLsb' 0 4 = f.code := by
        cases f <;> rfl
      have hne : ∀ other : UInt8, other.toBitVec.extractLsb' 4 4 ≠ 7 →
          0x70 + UInt8.ofNat f.code.toNat ≠ other := by
        rintro other hother rfl
        exact hother hupper
      simp only [step, hfirst rfl]
      rw [if_neg (hne _ (by decide)), if_neg (hne _ (by decide)), if_pos hupper, hlower,
        Flags.meets_code]
      rfl
    | false =>
      cases hop
      have hupper : (0x80 + UInt8.ofNat f.code.toNat).toBitVec.extractLsb' 4 4 = 8 := by
        cases f <;> rfl
      have hlower : (0x80 + UInt8.ofNat f.code.toNat).toBitVec.extractLsb' 0 4 = f.code := by
        cases f <;> rfl
      simp only [step, codeAddress_add, hfirst rfl, hbyte (i := 1) rfl]
      rw [if_neg (by decide), if_neg (by decide), if_neg (by decide), if_pos ⟨trivial, hupper⟩,
        hlower, Flags.meets_code]
      rfl

end Processor.Machine

end HostCode
