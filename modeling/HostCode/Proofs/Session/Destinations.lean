import Mathlib.Algebra.Group.Int.Defs
import Mathlib.Algebra.Group.Nat.Defs
import HostCode.Proofs.Session.Invariant

/-! # Where patched jumps lead

A patched site leads to the destination that it was resolved to, from wherever the buffer is
now. This holds in every session that has not failed, whatever moved and whenever it did.
-/

namespace HostCode

open CodeBuffer

/-- The address that a jump with this site goes to. A displacement counts from the end of its
field, with a sign, and addresses wrap around. -/
def CodeBuffer.denotes (b : CodeBuffer) (kind : SiteKind) (site : Nat) : HostAddress :=
  let value := ofLittleEndian (b.field ⟨site, kind.size⟩)
  match kind with
  | .rel32 => UInt64.ofInt (b.address.toNat + site + 4 + (value : Int).bmod (2 ^ 32))
  | .abs64 => UInt64.ofNat value

theorem ofLittleEndian_displacement (d : Int32) :
    (ofLittleEndian (littleEndian 4 d.toUInt32.toNat) : Int).bmod (2 ^ 32) = d.toInt := by
  have hlt : d.toUInt32.toNat < Nat.pow 256 4 := d.toUInt32.toNat_lt
  rw [ofLittleEndian_littleEndian, Nat.mod_eq_of_lt hlt]
  exact (BitVec.toInt_eq_toNat_bmod d.toBitVec).symm

theorem ofInt_eq {x : Int} {a : HostAddress} (h : x % 2 ^ 64 = a.toNat) : UInt64.ofInt x = a := by
  rw [UInt64.ofInt, h, Int.toNat_natCast, UInt64.ofNat_toNat]

namespace CodeBuffer

variable {b : CodeBuffer} {q : Patched}

/-- What a site holds leads to its destination. A destination in the buffer has to be near,
since its displacement is written without a check. -/
theorem Holds.denotes (h : b.Holds q)
    (hnear : ∀ o, q.dest = .inside o → ((o : Int) - (q.site + 4)).natAbs < 2 ^ 31) :
    b.denotes q.kind q.site = q.dest.address b.address := by
  obtain ⟨site, kind, target, dest⟩ := q
  simp only [Holds, Patched.field] at h
  simp only [CodeBuffer.denotes]
  cases kind with
  | abs64 =>
    have hlt : (dest.address b.address).toNat < Nat.pow 256 8 := UInt64.toNat_lt _
    rw [← Except.ok.inj h, ofLittleEndian_littleEndian, Nat.mod_eq_of_lt hlt]
    exact UInt64.ofNat_toNat
  | rel32 =>
    cases dest with
    | inside o =>
      have hdist : ((o : Int) - (site + 4)).natAbs < 2 ^ 31 := hnear o rfl
      simp only [Patched.content] at h
      rw [← Except.ok.inj h, ofLittleEndian_displacement,
        Int32.toInt_ofInt_of_le (by omega) (by omega)]
      apply ofInt_eq
      simp only [Destination.address, UInt64.toNat_add, UInt64.toNat_ofNat']
      omega
    | outside host =>
      simp only [Patched.content] at h
      split at h
      · next d hd =>
        have hlt := host.toNat_lt
        rw [← Except.ok.inj h, ofLittleEndian_displacement, toInt_displacement hd]
        apply ofInt_eq
        simp only [Destination.address, UInt64.toNat_add, UInt64.toNat_ofNat']
        omega
      · cases h

end CodeBuffer

/-- In every session that has not failed, each patched jump leads to the destination that it was
resolved to: the code of a block, or the address given for it. Jumps that wait are blank. -/
theorem Reached.jumps_arrive {history : List Action} {s : Session} (h : Reached history s)
    (hlen : s.asm.offset < 2 ^ 31) :
    (s.failed.isSome ∨ ∀ q ∈ s.asm.segment.table.patched, s.Leads history q ∧
      s.asm.segment.buffer.denotes q.kind q.site =
        q.dest.address s.asm.segment.buffer.address) ∧
    ∀ p ∈ s.pending, s.asm.segment.buffer.Blank p.field := by
  have hs := h.sound
  refine ⟨?_, hs.settled.tidy.segment.blank⟩
  cases hf : s.failed with
  | some j => exact .inl rfl
  | none =>
    right
    intro q hq
    refine ⟨hs.leads q hq, (hs.linked hf q hq).denotes ?_⟩
    intro o ho
    have hlead := hs.leads q hq
    rw [Session.Leads, ho] at hlead
    have hoff : o ≤ s.asm.offset := hs.settled.blocks _ (Session.mem_of_lookup hlead)
    have hsite : q.site + 4 ≤ s.asm.offset := by
      refine Nat.le_trans (Nat.add_le_add_left ?_ _) (hs.settled.tidy.segment.patched_inside hq)
      change 4 ≤ q.kind.size
      cases q.kind <;> decide
    omega

/-- The third block moves the first, whose jump to the second is written for the new place. -/
theorem jumps_arrive_after_move :
    ∃ s, Config.twoPlaces.session
        [.block 3 (.raw [0x90, 0xc3]), .block 2 (.raw [0xc3]), .block 1 (.goto 2)] = some s ∧
      s.asm.segment.buffer.address = 0x20000 ∧ s.failed = none ∧
      s.asm.segment.table.patched.map (·.dest) = [.inside 14] ∧ s.asm.offset < 2 ^ 31 ∧
      (s.failed.isSome ∨ ∀ q ∈ s.asm.segment.table.patched,
        s.Leads [.block 3 (.raw [0x90, 0xc3]), .block 2 (.raw [0xc3]), .block 1 (.goto 2)] q ∧
        s.asm.segment.buffer.denotes q.kind q.site =
          q.dest.address s.asm.segment.buffer.address) ∧
      ∀ p ∈ s.pending, s.asm.segment.buffer.Blank p.field := by
  have hfacts : (Config.twoPlaces.session
      [.block 3 (.raw [0x90, 0xc3]), .block 2 (.raw [0xc3]), .block 1 (.goto 2)]).any
      (fun s => s.asm.segment.buffer.address = 0x20000 ∧ s.failed = none ∧
        s.asm.segment.table.patched.map (·.dest) = [.inside 14] ∧
        s.asm.offset < 2 ^ 31) = true := by decide +kernel
  obtain ⟨s, hs, hfact⟩ := (Option.any_eq_true ..).mp hfacts
  obtain ⟨haddr, hfailed, hdest, hlen⟩ := of_decide_eq_true hfact
  exact ⟨s, hs, haddr, hfailed, hdest, hlen,
    (Config.reached Config.twoPlaces_unused hs).jumps_arrive hlen⟩

end HostCode
