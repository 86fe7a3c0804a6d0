import HostCode.Proofs.Assembler.Outcome
import HostCode.Proofs.Listing.Emitted
import HostCode.Proofs.Listing.Partition

/-! # Prologues that fail

The instruction that loads the state base is written in three pieces, and each of them may ask
for memory. What was written before a piece finds none is not taken back. So a prologue that
fails leaves no trace exactly if there was no memory for its first byte.
-/

namespace HostCode

open CodeBuffer Segment

/-! ## A byte that finds no memory -/

/-- There is no memory for another byte. -/
def CodeBuffer.Exhausted (b : CodeBuffer) : Prop :=
  b.length = b.capacity ∧ ∃ f, (b.supply.take (b.capacityFor (b.length + 1))).1 = .error f

theorem CodeBuffer.reserve_one {b b' : CodeBuffer} {out : Except Fault (Option Move)}
    (hb : b.Sane) (h : b.reserve 1 = (out, b')) :
    (∃ f supply, out = .error f ∧ b.Exhausted ∧ b' = { b with supply }) ∨
      (∃ m, out = .ok m) ∧ ¬ b.Exhausted := by
  have hfits := hb.fits
  unfold reserve at h
  by_cases hroom : b.length + 1 ≤ b.capacity
  · rw [if_pos hroom] at h
    cases h
    refine .inr ⟨⟨_, rfl⟩, ?_⟩
    rintro ⟨hfull, -⟩
    omega
  · rw [if_neg hroom] at h
    rcases ht : b.supply.take (b.capacityFor (b.length + 1)) with ⟨f | base, rest⟩
    · simp only [ht, Prod.mk.injEq] at h
      obtain ⟨rfl, rfl⟩ := h
      exact .inl ⟨f, rest, rfl, ⟨by omega, f, by rw [ht]⟩, rfl⟩
    · have hgiven : ¬ b.Exhausted := by
        rintro ⟨-, f, hf⟩
        rw [ht] at hf
        cases hf
      simp only [ht] at h
      split at h <;> cases h <;> exact .inr ⟨⟨_, rfl⟩, hgiven⟩

/-- A byte that cannot be added finds no memory, and nothing has changed but for the supply. Where
no jump can go out of reach, no move stands in the way. -/
theorem Segment.append_byte {s : Segment} (hs : s.Ordered) (hsteady : ¬ s.Brittle) (c : UInt8) :
    Ensures (append [c]) s (fun _ _ => ¬ s.buffer.Exhausted)
      (fun _ s' => s.buffer.Exhausted ∧
        ∃ supply, s' = { s with buffer := { s.buffer with supply } }) := by
  have hstop := append_ensures hs [c]
  unfold Ensures append at hstop ⊢
  rcases hr : s.buffer.reserve [c].length with ⟨out, b⟩
  rcases reserve_one hs.sane hr with ⟨f, supply, rfl, hout, rfl⟩ | ⟨⟨m, rfl⟩, hgiven⟩
  · exact ⟨hout, supply, rfl⟩
  · cases m with
    | none => exact hgiven
    | some m =>
      simp only [hr] at hstop ⊢
      rcases hpass : rebasePass b s.table.patched with ⟨b', _ | f⟩
      · exact hgiven
      · -- a fault of the move itself is a jump out of range
        simp only [hpass] at hstop
        have hlen : b.length = s.length := by
          rw [CodeBuffer.length, (reserve_reserved hr).bytes]
          rfl
        obtain ⟨e, rfl⟩ := (rebasePass_rewrites s.table.patched b fun f hf =>
          hlen ▸ hs.dependents_inside hf).2 f (by rw [hpass])
        rcases hstop.2 with ⟨hm, -⟩ | ⟨-, hbrittle⟩
        · cases hm
        · exact absurd hbrittle hsteady

/-! ## The instruction -/

def baseLoad (base : BaseRegister) (value : HostAddress) : Instruction where
  rex := { w := true, b := base.val.extended }
  opcode := [0xb8 + UInt8.ofNat base.val.low.toNat]
  imm := some ⟨.qword, value.toInt64⟩

theorem encode_baseLoad (base : BaseRegister) (value : HostAddress) :
    Encoding.encode (.baseRelative base value) {
      op := .mov, width := 64
      dst := .reg (.gpr base.val), src := .imm value.toInt64 64 } =
    .ok (some (baseLoad base value)) := by
  refine Processor.encode_eq_some_iff.mpr ⟨?_, fun _ => rfl⟩
  simp [Encoding.family, Encoding.mov, Encoding.sizeOf, Size.ofBits?, Encoding.generalPurpose,
    Encoding.addImmediate, Encoding.bare, Encoding.sizeRex, Rex.merge, baseLoad, bind,
    Except.bind, pure, Except.pure]

theorem baseLoad_fields (base : BaseRegister) (value : HostAddress) :
    (baseLoad base value).fields = [[(baseLoad base value).rex.byte],
      [0xb8 + UInt8.ofNat base.val.low.toNat], littleEndian 8 value.toInt64.toUInt64.toNat] := by
  have hrex : (baseLoad base value).rex.needed = true := by simp [baseLoad, Rex.needed]
  rw [Instruction.fields, if_pos hrex]
  rfl

theorem loading_eq (base : BaseRegister) (value : HostAddress) :
    Session.loading (.baseRelative base value) = ((baseLoad base value).bytes, .ok ()) := by
  rw [Session.loading, Request.output, encode_baseLoad]

namespace Assembler

variable {a a' : Assembler}

theorem loadStateBase_eq {base : BaseRegister} {value : HostAddress}
    (hm : a.mode = .baseRelative base value) :
    loadStateBase a = (do
      (baseLoad base value).fields.forM append
      return .ok () : Attempt Assembler (Except Error Unit)) a := by
  rw [loadStateBase, get_bind, hm]
  simp only
  rw [encode_apply, hm, Request.outcome, encode_baseLoad]

def resupplied (supply : Supply) (a : Assembler) : Assembler :=
  { a with segment := { a.segment with buffer := { a.segment.buffer with supply } } }

theorem append_byte (ha : a.Tidy) (hsteady : ¬ a.segment.Brittle) (c : UInt8) :
    Ensures (append [c]) a (fun _ _ => ¬ a.segment.buffer.Exhausted)
      (fun _ a' => a.segment.buffer.Exhausted ∧ ∃ supply, a' = a.resupplied supply) := by
  refine ensures_onSegment ((Segment.append_byte ha.segment hsteady c).imp (fun _ _ => id) ?_)
  rintro f s ⟨hout, supply, rfl⟩
  exact ⟨hout, supply, rfl⟩

theorem Tidy.steady (ha : a.Tidy) (hwide : a.mode.wide = true) : ¬ a.segment.Brittle := by
  rintro ⟨q, hq, hu⟩
  have hkind : q.kind = .abs64 := by
    rw [ha.patchedKind q hq, AddressingMode.siteKind, if_pos hwide]
  simp only [Patched.unfailing, hkind] at hu
  cases hu

/-- Where the state base cannot be loaded, there was no memory for the first byte, and nothing has
changed but for the supply, or one or two bytes of the instruction are left. -/
theorem loadStateBase_stops (ha : a.Tidy) (hwide : a.mode.wide = true) :
    Ensures loadStateBase a (fun _ _ => True) (fun _ a' =>
      (a.segment.buffer.Exhausted ∧ ∃ supply, a' = a.resupplied supply) ∨
      ¬ a.segment.buffer.Exhausted ∧ ∃ k, (k = 1 ∨ k = 2) ∧
        Adds ((Session.loading a.mode).1.take k) a a') := by
  have hin : ∀ g ∈ dependents a.segment.table.patched, g.stop ≤ a.offset :=
    fun g hg => ha.segment.dependents_inside hg
  cases hm : a.mode with
  | absolute =>
    rw [hm] at hwide
    cases hwide
  | baseRelative base value =>
    simp only [Ensures, loadStateBase_eq hm, baseLoad_fields, loading_eq, Instruction.bytes]
    generalize (baseLoad base value).rex.byte = rex
    generalize 0xb8 + UInt8.ofNat base.val.low.toNat = opcode
    refine Ensures.bind (.bind (((append_byte ha (ha.steady hwide) rex).and
      (append_adds hin [rex])).imp ?_ ?_))
    · rintro - a₁ ⟨hgiven, hfirst⟩
      refine (forM_append_adds (hfirst.segment.inside hin) _).imp (fun _ _ _ => .pure trivial) ?_
      rintro f a' ⟨k, hk, hrest, -⟩
      refine .inr ⟨hgiven, k + 1, ?_, ?_⟩
      · simp only [List.length_cons, List.length_nil] at hk
        omega
      · obtain rfl | rfl : k = 0 ∨ k = 1 := by
          simp only [List.length_cons, List.length_nil] at hk
          omega
        · exact hfirst.trans hrest hin
        · exact hfirst.trans hrest hin
    · rintro f a' ⟨hout, -⟩
      exact .inl hout

end Assembler

/-! ## The session -/

namespace Session

variable {s s' : Session}

structure Intact (s s' : Session) : Prop where
  lookup : ∀ guest, s'.lookup guest = s.lookup guest
  pending : s'.pending = s.pending
  code : s'.asm.code = s.asm.code
  listing : ∀ decode origin, s'.asm.listing origin decode = s.asm.listing origin decode

/-- `s'` has `chunk` behind the code of `s`, and lists it. Of the other bytes at most those
have changed that lie in a site that depends on the base. -/
structure Trailed (chunk : List UInt8) (s s' : Session) : Prop where
  lookup : ∀ guest, s'.lookup guest = s.lookup guest
  pending : s'.pending = s.pending
  patched : s'.asm.segment.table.patched = s.asm.segment.table.patched
  literals : s'.asm.literals = s.asm.literals
  length : s'.asm.offset = s.asm.offset + chunk.length
  old : ∀ i < s.asm.offset, (∀ f ∈ dependents s.asm.segment.table.patched, ¬ f.Covers i) →
    s'.asm.segment.buffer.bytes[i]? = s.asm.segment.buffer.bytes[i]?
  new : s'.asm.code.drop s.asm.offset = chunk
  listed : ∀ decode,
    (∀ bytes n, bytes ≠ [] → decode s'.asm.mode.wide bytes = some n → n ≤ bytes.length) →
    ∀ ls, s'.asm.listing s.asm.offset decode = .ok ls → Listing.shown ls = chunk

theorem trailed_of_extends {chunk : List UInt8} (hblocks : s'.blocks = s.blocks)
    (hliterals : s'.asm.literals = s.asm.literals)
    (h : s.asm.segment.Extends chunk s'.asm.segment) : s.Trailed chunk s' := by
  have hnew : s'.asm.code.drop s.asm.offset = chunk := by
    have hlen : s'.asm.offset - s.asm.offset = chunk.length := by
      have := h.length
      unfold Assembler.offset
      omega
    rw [Assembler.drop_code, hlen]
    exact h.new
  constructor
  case lookup => exact fun guest => by rw [Session.lookup, hblocks, Session.lookup]
  case pending => exact congrArg (·.pending) h.table
  case patched => exact congrArg (·.patched) h.table
  case literals => exact hliterals
  case length => exact h.length
  case old => exact h.old
  case new => exact hnew
  case listed =>
    intro decode hdecode ls hls
    rw [Assembler.listing, Listing.ofCode, if_neg (by omega)] at hls
    have hlists := Listing.lists_of_lines hdecode _ rfl hls
    exact hlists.shown_eq.trans hnew

theorem intact_of_resupplied {supply : Supply} (hblocks : s'.blocks = s.blocks)
    (h : s'.asm = s.asm.resupplied supply) : s.Intact s' := by
  constructor
  case lookup => exact fun guest => by rw [Session.lookup, hblocks, Session.lookup]
  case pending => rw [pending, h]; rfl
  case code => rw [h]; rfl
  case listing => exact fun decode origin => by rw [h]; rfl

end Session

/-- A prologue that fails on a wide host leaves up to two bytes of its instruction behind. It
leaves no trace exactly if there was no memory for the first of them. -/
theorem Reached.prologue_intact_iff {history : List Action} {s s' : Session}
    (h : Reached history s) (hwide : s.asm.mode.wide = true) (r r' : Registry) {v : Verdict}
    (happly : Action.prologue.apply ⟨s, r⟩ = (v, ⟨s', r'⟩)) (hfail : v ≠ .returned) :
    (s.Intact s' ↔ s.asm.segment.buffer.Exhausted) ∧
      ∃ k ≤ 2, (k = 0 ↔ s.asm.segment.buffer.Exhausted) ∧
        s.Trailed ((Session.loading s.asm.mode).1.take k) s' ∧
          s'.asm.offset = s.asm.offset + k := by
  have hs := h.sound
  have hwhole : (Session.loading s.asm.mode).2 = .ok () ∧
      2 ≤ (Session.loading s.asm.mode).1.length := by
    cases hm : s.asm.mode with
    | absolute =>
      rw [hm] at hwide
      cases hwide
    | baseRelative base value =>
      rw [loading_eq, Instruction.bytes, baseLoad_fields]
      exact ⟨rfl, by simp⟩
  rcases Session.prologue_outcome hs.settled r with ⟨a, x, hx, -⟩ | ⟨f, a, hload, -, hcore, -⟩
  · simp only [Action.apply, hx, verdict, hwhole.1] at happly
    cases happly
    exact absurd rfl hfail
  · rw [happly] at hcore
    have hblocks : s'.blocks = s.blocks := congrArg Core.blocks hcore
    obtain rfl : s'.asm = a := congrArg Core.asm hcore
    have hstops := Assembler.loadStateBase_stops hs.settled.tidy hwide
    simp only [Ensures, hload] at hstops
    rcases hstops with ⟨hout, supply, hsupply⟩ | ⟨hgiven, k, hk, hadds⟩
    · refine ⟨iff_of_true (Session.intact_of_resupplied hblocks hsupply) hout, 0, Nat.zero_le _,
        iff_of_true rfl hout, Session.trailed_of_extends hblocks ?_ ?_, ?_⟩
      · rw [hsupply]
        rfl
      · rw [hsupply]
        exact ⟨rfl, rfl, fun _ _ _ => rfl, (Extends.refl _).new⟩
      · rw [hsupply]
        rfl
    · have hlength : s'.asm.offset = s.asm.offset + k := by
        have := hadds.segment.length
        rw [List.length_take, Nat.min_eq_left (by omega)] at this
        exact this
      refine ⟨iff_of_false (fun hintact => ?_) hgiven, k, by omega, iff_of_false (by omega) hgiven,
        Session.trailed_of_extends hblocks (by rw [hadds.rest]) hadds.segment.toExtends, hlength⟩
      have hsame := congrArg List.length hintact.code
      rw [Assembler.length_code, Assembler.length_code] at hsame
      omega

/-- Two blocks fill the memory but for one byte, where the first byte of the instruction
remains. -/
theorem prologue_leaves_byte :
    ∃ s s' r', Config.twoPlaces.session
        [.block 2 (.raw (List.replicate 15 0x90)), .block 1 (.raw (List.replicate 16 0x90))] =
          some s ∧
      Action.prologue.apply ⟨s, {}⟩ = (.failed (.allocation ⟨48, "out of memory"⟩), ⟨s', r'⟩) ∧
      s'.asm.code = s.asm.code ++ [0x49] ∧ ¬ s.Intact s' := by
  have hfacts : (Config.twoPlaces.session
      [.block 2 (.raw (List.replicate 15 0x90)), .block 1 (.raw (List.replicate 16 0x90))]).any
      (fun s =>
        (Action.prologue.apply ⟨s, {}⟩).1 = .failed (.allocation ⟨48, "out of memory"⟩) ∧
        (Action.prologue.apply ⟨s, {}⟩).2.session.asm.code = s.asm.code ++ [0x49]) = true := by
    decide +kernel
  obtain ⟨s, hs, hfact⟩ := (Option.any_eq_true ..).mp hfacts
  obtain ⟨hv, hcode⟩ := of_decide_eq_true hfact
  refine ⟨s, _, _, hs, Prod.ext hv rfl, hcode, fun hintact => ?_⟩
  have hsame := congrArg List.length (hcode.symm.trans hintact.code)
  simp at hsame

/-- Without room for that byte, there is no trace. -/
theorem prologue_intact_when_full :
    ∃ s s' r', Config.twoPlaces.session
        [.block 2 (.raw (List.replicate 16 0x90)), .block 1 (.raw (List.replicate 16 0x90))] =
          some s ∧
      s.asm.mode.wide = true ∧
      Action.prologue.apply ⟨s, {}⟩ = (.failed (.allocation ⟨48, "out of memory"⟩), ⟨s', r'⟩) ∧
      s.Intact s' := by
  have hfacts : (Config.twoPlaces.session
      [.block 2 (.raw (List.replicate 16 0x90)), .block 1 (.raw (List.replicate 16 0x90))]).any
      (fun s => s.asm.mode.wide = true ∧
        (Action.prologue.apply ⟨s, {}⟩).1 = .failed (.allocation ⟨48, "out of memory"⟩) ∧
        (Action.prologue.apply ⟨s, {}⟩).2.session.asm.offset = s.asm.offset) = true := by
    decide +kernel
  obtain ⟨s, hs, hfact⟩ := (Option.any_eq_true ..).mp hfacts
  obtain ⟨hwide, hv, hlength⟩ := of_decide_eq_true hfact
  have happly : Action.prologue.apply ⟨s, {}⟩ = (_, ⟨_, _⟩) := Prod.ext hv rfl
  obtain ⟨hiff, k, -, hk, -, hoffset⟩ :=
    (Config.reached Config.twoPlaces_unused hs).prologue_intact_iff hwide {} _ happly nofun
  have hnone : k = 0 := Nat.add_eq_left.mp (hoffset.symm.trans hlength)
  exact ⟨s, _, _, hs, hwide, happly, hiff.mpr (hk.mp hnone)⟩

end HostCode
