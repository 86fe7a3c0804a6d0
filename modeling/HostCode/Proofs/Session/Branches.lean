import Mathlib.Algebra.Group.Int.Defs
import Mathlib.Algebra.Group.Nat.Defs
import HostCode.Proofs.Processor.Displacements
import HostCode.Proofs.Session.Destinations

/-! # Jumps to guest addresses, executed

On wide hosts a jump to a guest address reads its destination from the code behind it, and a
conditional one is skipped by a short jump on the opposite condition. On narrow hosts it is a
single instruction. Both go to the same place on the same flags, and stay right while more code
is written, other targets are resolved and the buffer moves.
-/

namespace HostCode

open CodeBuffer Segment Assembler Processor

/-! ## The code of a jump -/

namespace Branch

def taken (x : Flags) (b : Branch) : Bool :=
  match b.flag with
  | none => true
  | some f => f.holds x

theorem start_lt_site (m : AddressingMode) (b : Branch) : b.start < b.site m := by
  refine Nat.lt_add_of_pos_right ?_
  unfold code
  split <;> simp

end Branch

namespace Processor

theorem ofInt_natCast_add (w m n : Nat) (d : Int) :
    BitVec.ofNat w m + BitVec.ofNat w n + BitVec.ofInt w d = BitVec.ofInt w (m + n + d) := by
  rw [BitVec.ofInt_add, BitVec.ofInt_add, BitVec.ofInt_natCast, BitVec.ofInt_natCast]

theorem address_ofInt (wide : Bool) (z : Int) :
    address wide (UInt64.ofInt z) = BitVec.ofInt (width wide) z := by
  have hz : 0 ≤ z % 2 ^ 64 := Int.emod_nonneg _ (by decide)
  have hdvd : ((2 ^ width wide : Nat) : Int) ∣ 2 ^ 64 := by cases wide <;> decide
  have hnat : (UInt64.ofInt z).toNat = (z % 2 ^ 64).toNat := by
    simp only [UInt64.ofInt, UInt64.toNat_ofNat']
    omega
  apply BitVec.eq_of_toNat_eq
  rw [address, hnat, ← BitVec.ofInt_natCast, Int.toNat_of_nonneg hz, BitVec.toNat_ofInt,
    BitVec.toNat_ofInt, Int.emod_emod_of_dvd z hdvd]

namespace Machine

variable {wide : Bool} {x : Machine wide} {b : CodeBuffer}

theorem Loaded.relative_four (h : x.Loaded b) {o k : Nat} (hin : o + k + 4 ≤ b.length)
    (taken : Bool) :
    x.relative (codeAddress wide b.address o) k 4 taken =
      if taken then address wide (b.denotes .rel32 (o + k))
      else codeAddress wide b.address (o + k + 4) := by
  have hread : x.read (codeAddress wide b.address (o + k)) 4 = b.field ⟨o + k, 4⟩ :=
    h.read_field (f := ⟨o + k, 4⟩) hin
  have hdist : x.distance (codeAddress wide b.address (o + k)) 4 =
      BitVec.ofInt _ ((ofLittleEndian (b.field ⟨o + k, 4⟩) : Int).bmod (2 ^ 32)) := by
    rw [distance, hread, BitVec.signExtend, BitVec.toInt_ofNat']
  rw [relative, codeAddress_add, codeAddress_add, hdist, ← Nat.add_assoc]
  cases taken with
  | false => simp only [Bool.false_eq_true, if_false]
  | true =>
    simp only [if_true, denotes, SiteKind.size, address_ofInt]
    rw [codeAddress, address, ofInt_natCast_add]
    congr 1

theorem Loaded.step_through {x : Machine true} {b : CodeBuffer} (h : x.Loaded b) {o : Nat}
    (hcode : b.field ⟨o, 6⟩ = [0xff, 0x25, 0, 0, 0, 0]) (hin : o + 14 ≤ b.length) :
    x.step (codeAddress true b.address o) = some (address true (b.denotes .abs64 (o + 6))) := by
  have hop : x.memory (codeAddress true b.address (o + 0)) = 0xff := h.memory_eq hcode rfl
  have hsecond : x.memory (codeAddress true b.address (o + 1)) = 0x25 := h.memory_eq hcode rfl
  have hzero : b.field ⟨o + 2, 4⟩ = [0, 0, 0, 0] := by
    have hsplit : [0xff, 0x25] ++ [0, 0, 0, 0] = b.field ⟨o, 2⟩ ++ b.field ⟨o + 2, 4⟩ :=
      hcode.symm.trans (field_add b o 2 4)
    have hlen : (b.field ⟨o, 2⟩).length = 2 := length_field (by simp only [Field.stop]; omega)
    exact (List.append_inj hsplit hlen.symm).2.symm
  have hplace : x.relative (codeAddress true b.address o) 2 4 true =
      codeAddress true b.address (o + 6) := by
    have hread : x.read (codeAddress true b.address (o + 2)) 4 = b.field ⟨o + 2, 4⟩ :=
      h.read_field (f := ⟨o + 2, 4⟩) (by simp only [Field.stop]; omega)
    rw [relative, codeAddress_add, codeAddress_add, distance, hread, hzero]
    exact BitVec.add_zero _
  have hread : x.read (codeAddress true b.address (o + 6)) 8 = b.field ⟨o + 6, 8⟩ :=
    h.read_field (f := ⟨o + 6, 8⟩) hin
  simp only [Nat.add_zero] at hop
  simp only [step, codeAddress_add, hop, hsecond, hplace, hread]
  rw [if_neg (by decide), if_neg (by decide), if_neg (by decide), if_neg (by decide),
    if_pos (by decide)]
  refine congrArg some ?_
  apply BitVec.eq_of_toNat_eq
  simp only [address, denotes, SiteKind.size, width, BitVec.toNat_ofNat, UInt64.toNat_ofNat']
  exact (Nat.mod_mod _ _).symm

theorem Loaded.step_over {x : Machine true} {b : CodeBuffer} (h : x.Loaded b) {o : Nat}
    {f : Flag} (hcode : b.field ⟨o, 2⟩ = [0x70 + UInt8.ofNat f.code.toNat, 14])
    (hin : o + 2 ≤ b.length) :
    x.step (codeAddress true b.address o) =
      some (if f.holds x.flags then codeAddress true b.address (o + 16)
        else codeAddress true b.address (o + 2)) := by
  have hsplit : [0x70 + UInt8.ofNat f.code.toNat] ++ [14] =
      b.field ⟨o, 1⟩ ++ b.field ⟨o + 1, 1⟩ := hcode.symm.trans (field_add b o 1 1)
  have hlen : (b.field ⟨o, 1⟩).length = 1 := length_field (by simp only [Field.stop]; omega)
  obtain ⟨hop, hdisp⟩ := List.append_inj hsplit hlen.symm
  have hopcode : (Cond.flag f).opcode true = .ok [0x70 + UInt8.ofNat f.code.toNat] := rfl
  have hover : b.field ⟨o + 1, 1⟩ = displacementBytes 1 14 := hdisp.symm
  rw [h.step_opcode hopcode hop.symm]
  exact congrArg some (h.relative_eq hin hover rfl rfl _)

/-- The short jump skips the jump through memory unless the condition holds. -/
theorem Loaded.executes_guarded {x : Machine true} {b : CodeBuffer} (h : x.Loaded b) {o : Nat}
    {f : Flag} (hcode : b.field ⟨o, 8⟩ =
      [0x70 + UInt8.ofNat f.opposite.code.toNat, 14, 0xff, 0x25, 0, 0, 0, 0])
    (hin : o + 16 ≤ b.length) :
    ∃ path, x.Executes (codeAddress true b.address o) path
        (if f.holds x.flags then address true (b.denotes .abs64 (o + 8))
          else codeAddress true b.address (o + 16)) ∧
      ∀ ip ∈ path, ∃ i, o ≤ i ∧ i < o + 8 ∧ ip = codeAddress true b.address i := by
  have hsplit : [0x70 + UInt8.ofNat f.opposite.code.toNat, 14] ++ [0xff, 0x25, 0, 0, 0, 0] =
      b.field ⟨o, 2⟩ ++ b.field ⟨o + 2, 6⟩ := hcode.symm.trans (field_add b o 2 6)
  have hlen : (b.field ⟨o, 2⟩).length = 2 := length_field (by simp only [Field.stop]; omega)
  obtain ⟨hfirst, hsecond⟩ := List.append_inj hsplit hlen.symm
  have hover := h.step_over hfirst.symm (by omega)
  have hthrough := h.step_through hsecond.symm hin
  rw [Flag.holds_opposite] at hover
  cases hf : f.holds x.flags with
  | true =>
    rw [hf] at hover
    refine ⟨_, .next hover (.last hthrough), ?_⟩
    intro ip hip
    rcases List.mem_cons.mp hip with rfl | hip
    · exact ⟨o, Nat.le_refl _, by omega, rfl⟩
    · exact ⟨o + 2, by omega, by omega, List.mem_singleton.mp hip⟩
  | false =>
    rw [hf] at hover
    refine ⟨_, .last hover, ?_⟩
    intro ip hip
    exact ⟨o, Nat.le_refl _, by omega, List.mem_singleton.mp hip⟩

theorem Loaded.step_conditional (h : x.Loaded b) {o : Nat} {f : Flag}
    (hcode : b.field ⟨o, 2⟩ = [0x0f, 0x80 + UInt8.ofNat f.code.toNat])
    (hin : o + 6 ≤ b.length) :
    x.step (codeAddress wide b.address o) =
      some (if f.holds x.flags then address wide (b.denotes .rel32 (o + 2))
        else codeAddress wide b.address (o + 6)) := by
  have hopcode : (Cond.flag f).opcode false =
      .ok [0x0f, 0x80 + UInt8.ofNat f.code.toNat] := rfl
  rw [h.step_opcode hopcode hcode]
  exact congrArg some (h.relative_four hin _)

theorem Loaded.step_always (h : x.Loaded b) {o : Nat} (hcode : b.field ⟨o, 1⟩ = [0xe9])
    (hin : o + 5 ≤ b.length) :
    x.step (codeAddress wide b.address o) = some (address wide (b.denotes .rel32 (o + 1))) := by
  have hopcode : Cond.always.opcode false = .ok [0xe9] := rfl
  rw [h.step_opcode hopcode hcode]
  exact congrArg some (h.relative_four hin true)

end Machine

end Processor

namespace Branch

variable {m : AddressingMode} {x : Machine m.wide} {b : CodeBuffer}

/-- The jump is in the code, but for its site. -/
def InCode (m : AddressingMode) (b : CodeBuffer) (br : Branch) : Prop :=
  b.field ⟨br.start, (br.code m).length⟩ = br.code m ∧ br.stop m ≤ b.length

/-- The jump goes to where its site leads if it is taken, and else to what comes behind it. All
that is executed lies before the site. -/
theorem InCode.executes {br : Branch} (h : br.InCode m b) (hx : x.Loaded b) :
    ∃ path, x.Executes (codeAddress m.wide b.address br.start) path
        (if br.taken x.flags then address m.wide (b.denotes m.siteKind (br.site m))
          else codeAddress m.wide b.address (br.stop m)) ∧
      ∀ ip ∈ path, ∃ o, br.start ≤ o ∧ o < br.site m ∧ ip = codeAddress m.wide b.address o := by
  obtain ⟨hcode, hin⟩ := h
  have hlt := br.start_lt_site m
  obtain ⟨start, flag, target⟩ := br
  cases m with
  | absolute =>
    cases flag with
    | none =>
      refine ⟨_, .last (hx.step_always hcode hin), ?_⟩
      intro ip hip
      exact ⟨start, Nat.le_refl _, hlt, List.mem_singleton.mp hip⟩
    | some f =>
      refine ⟨_, .last (hx.step_conditional hcode hin), ?_⟩
      intro ip hip
      exact ⟨start, Nat.le_refl _, hlt, List.mem_singleton.mp hip⟩
  | baseRelative base value =>
    cases flag with
    | none =>
      refine ⟨_, .last (hx.step_through hcode hin), ?_⟩
      intro ip hip
      exact ⟨start, Nat.le_refl _, hlt, List.mem_singleton.mp hip⟩
    | some f =>
      exact hx.executes_guarded hcode hin

end Branch

/-! ## An assembler in use -/

def Destination.resolve (target : GuestAddress) :
    Destination → Attempt Segment (Nat × Option JumpRange)
  | inside offset => resolveOffset target offset
  | outside host => Segment.resolve target host

/-- What can be done with an assembler, where a call can be broken off by the given faults. A
resolution is marked with its target. -/
inductive Change (breaks : Fault → Prop) : Option GuestAddress → Writing → Writing → Prop
  | call {w w' : Writing} {c : Call} {r : Except Error Unit} (h : c.run w = .ok r w') :
    Change breaks none w w'
  | broken {w w' : Writing} {c : Call} {f : Fault} (h : c.run w = .error f w') (hf : breaks f) :
    Change breaks none w w'
  | resolve {w : Writing} {target : GuestAddress} {dest : Destination}
    {r : Nat × Option JumpRange} {a : Assembler}
    (h : onSegment (dest.resolve target) w.1 = .ok r a) : Change breaks (some target) w (a, w.2)

/-- One change after the other, with resolutions of the given targets only. -/
inductive Changes (breaks : Fault → Prop) (targets : GuestAddress → Prop) (w : Writing) :
    Writing → Prop
  | refl : Changes breaks targets w w
  | step {t : Option GuestAddress} {w' w'' : Writing} (h : Changes breaks targets w w')
    (ht : ∀ g, t = some g → targets g) (hc : Change breaks t w' w'') : Changes breaks targets w w''

/-- A change short of a move that puts a jump out of range. -/
abbrev Use : Option GuestAddress → Writing → Writing → Prop := Change (·.failure = none)

abbrev Uses : (GuestAddress → Prop) → Writing → Writing → Prop := Changes (·.failure = none)

/-- The assemblers that come about: new ones, those of sessions, and these after any use. -/
inductive Assembled : Writing → Prop
  | new {b : CodeBuffer} {m : AddressingMode} (unused : b.Unused) : Assembled (.new b m, [])
  | session {history : List Action} {s : Session} (h : Reached history s)
    (hf : s.failed = none) : Assembled (s.asm, [])
  | use {t : Option GuestAddress} {w w' : Writing} (h : Assembled w) (hu : Use t w w') :
    Assembled w'

/-- The tables are in order, and the forward jumps lie apart from the sites. -/
structure Kempt (w : Writing) : Prop where
  tidy : w.1.Tidy
  labels : ∀ j ∈ w.2, j.field.stop ≤ w.1.offset ∧
    ∀ f ∈ w.1.segment.table.fields, j.field.Apart f

/-- The patched sites also lead to where they were led. -/
structure Ready (w : Writing) : Prop extends Kempt w where
  linked : w.1.Linked

variable {w w' : Writing} {t : Option GuestAddress} {target : GuestAddress} {dest : Destination}
  {breaks : Fault → Prop} {targets : GuestAddress → Prop}

/-- What every change keeps is kept by any number of them. -/
theorem Changes.preserves {P : Writing → Prop} (h : Changes breaks targets w w')
    (hP : ∀ t w w', (∀ g, t = some g → targets g) → Change breaks t w w' → P w → P w')
    (hw : P w) : P w' := by
  induction h with
  | refl => exact hw
  | step _ ht hc ih => exact hP _ _ _ ht hc ih

/-- The assembler with its code taken away, and nothing but the patched sites in its tables. -/
def Assembler.bared (a : Assembler) : Assembler :=
  { a with
    literals := []
    segment := { a.segment with
      buffer := { a.segment.buffer with bytes := #[] }
      table := { a.segment.table with pending := [] } } }

namespace Kempt

/-- Any code is what an emission has written, if it is taken to begin at the start of it. -/
theorem emitting (h : Kempt w) : Emitting w.1.bared w.2 w.1 where
  tidy := h.tidy
  mode := rfl
  grown := Nat.zero_le _
  patched := rfl
  pending := ⟨_, rfl, fun _ _ => Nat.zero_le _⟩
  literals := List.filter_eq_nil_iff.mpr fun l _ hl => Nat.not_lt_zero l (of_decide_eq_true hl)
  old i hi := absurd hi (Nat.not_lt_zero i)
  labels j hj := ⟨Nat.zero_le _, h.labels j hj⟩

theorem of_emitting {start : Assembler} (h : Emitting start w.2 w.1) : Kempt w :=
  ⟨h.tidy, fun j hj => (h.labels j hj).2⟩

theorem run_cases (h : Kempt w) (c : Call) :
    (∃ eff w', c.effect w.1.mode w.1.offset w.2 = .ok eff ∧ c.run w = .ok eff.answer w' ∧
      eff.Applied w w') ∨
    (∃ m, c.effect w.1.mode w.1.offset w.2 = .error m ∧ c.run w = .error (.misuse m) w) ∨
    ∃ f a, c.run w = .error f (a, w.2) ∧ Broke f w.1 a :=
  (c.run_does h.tidy fun j hj => (h.labels j hj).1).cases

theorem resolved (h : Kempt w) {v : Nat × Option JumpRange} {a : Assembler}
    (hx : onSegment (dest.resolve target) w.1 = .ok v a) :
    ∃ new s, a = { w.1 with segment := s } ∧
      Resolved (leadOne target dest) new w.1.segment s ∧
      (v.2 = none → ∀ p ∈ s.table.pending, p.target ≠ target) ∧
      ∀ o, dest = .inside o → o ≤ s.length := by
  unfold onSegment at hx
  split at hx
  · next s hs =>
    cases hx
    have hto : resolveTo target dest w.1.segment = .ok v s ∧
        ∀ o, dest = .inside o → o ≤ w.1.offset := by
      cases dest with
      | outside host => exact ⟨hs, nofun⟩
      | inside o =>
        change resolveOffset target o w.1.segment = _ at hs
        rw [resolveOffset_eq] at hs
        split at hs
        · next hin =>
          refine ⟨hs, ?_⟩
          rintro o' ⟨⟩
          exact Int.ofNat_le.mp hin.2
        · cases hs
    have hensures := resolveTo_ensures h.tidy.segment target dest
    simp only [Ensures, hto.1] at hensures
    obtain ⟨new, hres, hall, -⟩ := hensures
    refine ⟨new, s, rfl, hres, hall, fun o ho => ?_⟩
    exact Nat.le_trans (hto.2 o ho) (Nat.le_of_eq hres.length.symm)
  · cases hx

theorem of_resolved (h : Kempt w) {lead : GuestAddress → Option Destination} {new : List Patched}
    {s : Segment} (hres : Resolved lead new w.1.segment s) :
    Kempt ({ w.1 with segment := s }, w.2) where
  tidy := h.tidy.resolved hres
  labels j hj := by
    obtain ⟨hin, hap⟩ := h.labels j hj
    refine ⟨Nat.le_trans hin (Nat.le_of_eq hres.length.symm), fun f hf => ?_⟩
    exact hap f (hres.fields_perm.mem_iff.mp hf)

theorem truncated (h : Kempt w) {n : Nat} (hn : n ≤ w.1.offset)
    (hb : Boundary n w.1.segment) (hl : ∀ j ∈ w.2, j.site < n → j.field.stop ≤ n) :
    ∃ s, truncate n w.1 =
        .ok () { w.1 with segment := s, literals := w.1.literals.filter (· < n) } ∧
      Truncated n w.1.segment s ∧
      Kempt ({ w.1 with segment := s, literals := w.1.literals.filter (· < n) },
        w.2.filter (·.site < n)) := by
  obtain ⟨s₁, s, h₁, h₂, ht⟩ := exists_truncated h.tidy.segment hn hb
  refine ⟨s, truncate_eq h₁ h₂, ht, h.tidy.truncated hn hb ht, fun j hj => ?_⟩
  obtain ⟨hj, hlt⟩ := List.mem_filter.mp hj
  refine ⟨?_, fun f hf => (h.labels j hj).2 f (ht.mem_fields.mp hf).1⟩
  exact Nat.le_trans (hl j hj (of_decide_eq_true hlt)) (Nat.le_of_eq ht.length.symm)

end Kempt

theorem Ready.truncated (h : Ready w) {n : Nat} (hn : n ≤ w.1.offset)
    (hb : Boundary n w.1.segment) (hl : ∀ j ∈ w.2, j.site < n → j.field.stop ≤ n) :
    ∃ s, truncate n w.1 =
        .ok () { w.1 with segment := s, literals := w.1.literals.filter (· < n) } ∧
      Truncated n w.1.segment s ∧
      Ready ({ w.1 with segment := s, literals := w.1.literals.filter (· < n) },
        w.2.filter (·.site < n)) := by
  obtain ⟨s, hx, ht, hkempt⟩ := h.toKempt.truncated hn hb hl
  exact ⟨s, hx, ht, hkempt, ht.linked h.tidy.segment hb h.linked⟩

/-- What a change comes to. Of a call that is broken off, some bytes may have been written. -/
inductive Used (breaks : Fault → Prop) (w : Writing) : Option GuestAddress → Writing → Prop
  | applied {eff : Effect} {w' : Writing} (hf : eff.Fits w.1.offset w.2) (h : eff.Applied w w') :
    Used breaks w none w'
  | wrote {chunk : List UInt8} {a : Assembler} {f : Fault} (hw : Wrote chunk w.1 a) (hf : breaks f)
    (hl : f.failure = none → w.1.Linked → a.Linked) : Used breaks w none (a, w.2)
  | resolved {target : GuestAddress} {dest : Destination} {new : List Patched} {s : Segment}
    (h : Resolved (leadOne target dest) new w.1.segment s) :
    Used breaks w (some target) ({ w.1 with segment := s }, w.2)

theorem Change.used (hc : Change breaks t w w') (h : Kempt w) : Used breaks w t w' := by
  cases hc with
  | call hx =>
    rename_i c r
    rcases h.run_cases c with ⟨eff, w'', he, hx', happ⟩ | ⟨m, -, hx'⟩ | ⟨f, a, hx', -⟩
    · cases hx.symm.trans hx'
      exact .applied (Call.effect_fits he) happ
    · cases hx.symm.trans hx'
    · cases hx.symm.trans hx'
  | broken hx hf =>
    rename_i c f
    rcases h.run_cases c with ⟨eff, w'', he, hx', -⟩ | ⟨m, -, hx'⟩ | ⟨f', a, hx', hb⟩
    · cases hx.symm.trans hx'
    · cases hx.symm.trans hx'
      exact .wrote (.refl h.tidy) hf fun _ => id
    · cases hx.symm.trans hx'
      obtain ⟨chunk, hw⟩ := hb.wrote
      refine .wrote hw hf fun hkept => hb.linked.resolve_left ?_
      rintro ⟨e, rfl⟩
      cases hkept
  | resolve hx =>
    obtain ⟨new, s, rfl, hres, -⟩ := h.resolved hx
    exact .resolved hres

theorem Used.mode (hu : Used breaks w t w') : w'.1.mode = w.1.mode := by
  cases hu with
  | applied hf happ =>
    cases happ with
    | write hw hl => exact hw.mode
    | fill hr hchunk => rfl
    | branch hr =>
      obtain ⟨a₁, hw, -, rfl⟩ := hr
      exact hw.mode
  | wrote hw _ _ => exact hw.mode
  | resolved hres => rfl

theorem Used.kempt (hu : Used breaks w t w') (h : Kempt w) : Kempt w' := by
  cases hu with
  | applied hf happ => exact .of_emitting (h.emitting.applied hf happ).1
  | wrote hw _ _ => exact .of_emitting (h.emitting.wrote hw)
  | resolved hres => exact h.of_resolved hres

theorem Used.ready (hu : Used (·.failure = none) w t w') (h : Ready w) : Ready w' := by
  refine ⟨hu.kempt h.toKempt, ?_⟩
  cases hu with
  | applied hf happ => exact (h.emitting.applied hf happ).2 h.linked
  | wrote hw hf hl => exact hl hf h.linked
  | resolved hres => exact hres.linked h.tidy.segment h.linked

theorem Use.ready (hu : Use t w w') (h : Ready w) : Ready w' := (hu.used h.toKempt).ready h

theorem Effect.Applied.offset_le {eff : Effect} (h : eff.Applied w w') :
    w.1.offset ≤ w'.1.offset := by
  cases h with
  | write hw hl => exact hw.offset_le
  | fill hr hchunk => exact Nat.le_of_eq hr.length.symm
  | branch hr =>
    obtain ⟨a₁, hw, -, rfl⟩ := hr
    exact hw.offset_le

theorem Used.offset_le (hu : Used breaks w t w') : w.1.offset ≤ w'.1.offset := by
  cases hu with
  | applied hf happ => exact happ.offset_le
  | wrote hw _ _ => exact hw.offset_le
  | resolved hres => exact Nat.le_of_eq hres.length.symm

/-! ## Code that stays -/

/-- The bytes of a field are in the code, and nothing that is yet to be written is there. -/
structure Stands (w : Writing) (f : Field) (bytes : List UInt8) : Prop where
  inside : f.stop ≤ w.1.offset
  held : w.1.segment.buffer.field f = bytes
  sites : ∀ g ∈ w.1.segment.table.fields, f.Apart g
  labels : ∀ j ∈ w.2, f.Apart j.field

namespace Stands

variable {f : Field} {bytes chunk : List UInt8} {a : Assembler}

theorem wrote (h : Stands w f bytes) (hw : Wrote chunk w.1 a) : Stands (a, w.2) f bytes where
  inside := Nat.le_trans h.inside hw.offset_le
  held := by
    refine (hw.segment.field_eq h.inside fun g hg => h.sites g ?_).trans h.held
    exact List.mem_append_right _ (dependents_subset _ hg)
  sites := by
    rw [hw.table]
    exact h.sites
  labels := h.labels

theorem labelled (h : Stands (a, w.2) f bytes) {new : List Jump}
    (hnew : ∀ j ∈ new, f.stop ≤ j.site) : Stands (a, w.2 ++ new) f bytes := by
  refine { h with labels := fun j hj => ?_ }
  rcases List.mem_append.mp hj with hj | hj
  · exact h.labels j hj
  · exact .inl (hnew j hj)

theorem recorded (h : Stands (a, w.2) f bytes)
    (hsite : f.stop ≤ a.offset - a.mode.siteKind.size) :
    Stands (a.recorded target, w.2) f bytes := by
  refine { h with sites := fun g hg => ?_ }
  rcases List.mem_cons.mp ((recorded_fields_perm a target).mem_iff.mp hg) with rfl | hg
  · exact .inl hsite
  · exact h.sites g hg

theorem rewritten (h : Stands w f bytes) {b : CodeBuffer} {fs : List Field}
    (hr : Rewrites fs w.1.segment.buffer b) (hfs : ∀ g ∈ fs, f.Apart g) :
    f.stop ≤ b.length ∧ b.field f = bytes := by
  refine ⟨?_, (hr.field_eq hfs).trans h.held⟩
  rw [hr.length]
  exact h.inside

theorem applied (h : Stands w f bytes) {eff : Effect} (hf : eff.Fits w.1.offset w.2)
    (happ : eff.Applied w w') : Stands w' f bytes := by
  cases happ with
  | write hw hl =>
    exact (h.wrote hw).labelled fun j hj => Nat.le_trans h.inside (hf j hj).1
  | fill hr hchunk =>
    obtain ⟨hin, hheld⟩ := h.rewritten hr (List.forall_mem_singleton.mpr (h.labels _ hf))
    exact ⟨hin, hheld, h.sites, h.labels⟩
  | branch hr =>
    obtain ⟨a₁, hw, -, rfl⟩ := hr
    -- the new site is the last part of what was written
    refine (h.wrote hw).recorded (Nat.le_trans h.inside ?_)
    have hoff := hw.offset
    rw [List.length_append, List.length_replicate] at hoff
    rw [hw.mode]
    omega

theorem resolved (h : Stands w f bytes) {lead : GuestAddress → Option Destination}
    {new : List Patched} {s : Segment} (hres : Resolved lead new w.1.segment s) :
    Stands ({ w.1 with segment := s }, w.2) f bytes := by
  obtain ⟨hin, hheld⟩ := h.rewritten hres.rewrites fun g hg => by
    obtain ⟨q, hq, rfl⟩ := List.mem_map.mp hg
    exact h.sites _ (List.mem_append_left _ (List.mem_map_of_mem (hres.reopened_mem hq)))
  exact ⟨hin, hheld, fun g hg => h.sites g (hres.fields_perm.mem_iff.mp hg), h.labels⟩

theorem truncated (h : Stands w f bytes) {n : Nat} (hn : f.stop ≤ n) {s : Segment}
    (ht : Truncated n w.1.segment s) (literals : List Nat) :
    Stands ({ w.1 with segment := s, literals }, w.2.filter (·.site < n)) f bytes where
  inside := Nat.le_trans hn (Nat.le_of_eq ht.length.symm)
  held := by
    refine (field_congr fun i hi => ht.old i (Nat.lt_of_lt_of_le hi.2 hn) fun q hq => ?_).trans
      h.held
    refine (h.sites _ (List.mem_append_right _ (List.mem_map_of_mem ?_))).not_covers hi
    exact (List.mem_filter.mp hq).1
  sites g hg := h.sites g (ht.mem_fields.mp hg).1
  labels j hj := h.labels j (List.mem_filter.mp hj).1

theorem used (h : Stands w f bytes) (hu : Used breaks w t w') : Stands w' f bytes := by
  cases hu with
  | applied hf happ => exact h.applied hf happ
  | wrote hw _ _ => exact h.wrote hw
  | resolved hres => exact h.resolved hres

theorem fresh (hw : Kempt w) (before behind : List UInt8)
    (hwrote : Wrote (before ++ bytes ++ behind) w.1 a) :
    Stands (a, w.2) ⟨w.1.offset + before.length, bytes.length⟩ bytes := by
  have hoff := hwrote.offset
  simp only [List.length_append] at hoff
  have hold : ∀ g : Field, g.stop ≤ w.1.offset →
      Field.Apart ⟨w.1.offset + before.length, bytes.length⟩ g :=
    fun g hg => .inr (Nat.le_trans hg (Nat.le_add_right ..))
  constructor
  case inside =>
    change w.1.offset + before.length + bytes.length ≤ a.offset
    omega
  case held =>
    have hnew := hwrote.segment.new
    change a.segment.buffer.field ⟨w.1.segment.length + before.length, bytes.length⟩ = bytes
    rw [field_within (n := (before ++ bytes ++ behind).length), hnew, List.append_assoc,
      List.drop_left, List.take_left]
    simp only [List.length_append]
    omega
  case sites =>
    intro g hg
    rw [hwrote.table] at hg
    exact hold g (hw.tidy.segment.inside g hg)
  case labels => exact fun j hj => hold _ (hw.labels j hj).1

end Stands

/-! ## A jump in the code -/

def Branch.opcode (m : AddressingMode) (b : Branch) : Field := ⟨b.start, (b.code m).length⟩

/-- The code has the jump in it, and nothing that is yet to be written is there. -/
structure Standing (b : Branch) (w : Writing) : Prop where
  inCode : b.InCode w.1.mode w.1.segment.buffer
  sites : ∀ f ∈ w.1.segment.table.fields, (b.opcode w.1.mode).Apart f
  labels : ∀ j ∈ w.2, (b.opcode w.1.mode).Apart j.field

namespace Standing

variable {b : Branch}

theorem stands (h : Standing b w) : Stands w (b.opcode w.1.mode) (b.code w.1.mode) :=
  ⟨Nat.le_trans (Nat.le_add_right ..) h.inCode.2, h.inCode.1, h.sites, h.labels⟩

theorem of_stands {m : AddressingMode} (hm : w.1.mode = m) (hin : b.stop m ≤ w.1.offset)
    (h : Stands w (b.opcode m) (b.code m)) : Standing b w := by
  subst hm
  exact ⟨⟨h.held, hin⟩, h.sites, h.labels⟩

theorem used (h : Standing b w) (hu : Used breaks w t w') : Standing b w' :=
  .of_stands hu.mode (Nat.le_trans h.inCode.2 hu.offset_le) (h.stands.used hu)

end Standing

/-- A site that waits for one target is not moved by the resolution of another. -/
theorem Used.pending {p : Pending} (hu : Used breaks w t w') (hp : p ∈ w.1.segment.table.pending)
    (ht : t ≠ some p.target) : p ∈ w'.1.segment.table.pending := by
  cases hu with
  | applied hf happ =>
    rw [happ.table hf]
    exact List.mem_append_left _ hp
  | wrote hw _ _ =>
    rw [hw.table]
    exact hp
  | resolved hres =>
    rcases List.mem_append.mp (hres.perm.mem_iff.mpr hp) with hq | hq
    · obtain ⟨q, hnew, rfl⟩ := List.mem_map.mp hq
      exact absurd (congrArg some (hres.led_one hnew).1.symm) ht
    · exact hq

theorem Used.patched {q : Patched} (hu : Used breaks w t w') (hq : q ∈ w.1.segment.table.patched) :
    q ∈ w'.1.segment.table.patched := by
  cases hu with
  | applied hf happ =>
    rw [happ.table hf]
    exact hq
  | wrote hw _ _ =>
    rw [hw.table]
    exact hq
  | resolved hres =>
    rw [hres.patched]
    exact List.mem_append_left _ hq

/-! ## Runs -/

theorem Assembled.ready (h : Assembled w) : Ready w := by
  induction h with
  | new unused =>
    exact ⟨⟨Session.tidy_empty unused.sane rfl rfl rfl, nofun⟩, nofun⟩
  | session h hf => exact ⟨⟨h.sound.settled.tidy, nofun⟩, h.sound.linked hf⟩
  | use _ hu ih => exact Use.ready hu ih

variable {b : Branch}

theorem Uses.preserves {P : Writing → Prop} (h : Uses targets w w') (hw : Ready w)
    (hP : ∀ t w w', Ready w → (∀ g, t = some g → targets g) → Used (·.failure = none) w t w' →
      P w → P w')
    (hw' : P w) : Ready w' ∧ P w' := by
  refine Changes.preserves (P := fun w => Ready w ∧ P w) h ?_ ⟨hw, hw'⟩
  rintro t w w' ht hu ⟨hready, hp⟩
  exact ⟨Use.ready hu hready, hP t w w' hready ht (hu.used hready.toKempt) hp⟩

def Branch.Waits (m : AddressingMode) (b : Branch) (w : Writing) : Prop :=
  b.pending m ∈ w.1.segment.table.pending

structure Written (m : AddressingMode) (b : Branch) (w : Writing) : Prop where
  mode : w.1.mode = m
  standing : Standing b w

structure Led (m : AddressingMode) (b : Branch) (dest : Destination) (w : Writing) : Prop
    extends Written m b w where
  patched : (b.pending m).leadingTo dest ∈ w.1.segment.table.patched
  reached : ∀ o, dest = .inside o → o ≤ w.1.offset

variable {m : AddressingMode}

theorem Written.used (h : Written m b w) (hu : Used breaks w t w') : Written m b w' :=
  ⟨hu.mode.trans h.mode, h.standing.used hu⟩

theorem Written.uses (h : Written m b w) (hw : Ready w) (hu : Uses targets w w') :
    Ready w' ∧ Written m b w' :=
  hu.preserves hw (fun _ _ _ _ _ hu h => h.used hu) h

theorem Led.uses (h : Led m b dest w) (hw : Ready w) (hu : Uses targets w w') :
    Ready w' ∧ Led m b dest w' := by
  refine hu.preserves hw ?_ h
  intro t w w' hw ht hu h
  refine ⟨h.toWritten.used hu, hu.patched h.patched, fun o ho => ?_⟩
  exact Nat.le_trans (h.reached o ho) hu.offset_le

theorem Branch.Waits.uses (h : b.Waits m w) (hw : Ready w) (hu : Uses (· ≠ b.target) w w') :
    b.Waits m w' := by
  refine (hu.preserves hw ?_ h).2
  intro t w w' hw ht hu h
  refine hu.pending h ?_
  intro he
  exact ht _ he rfl

theorem Ready.recorded (hw : Ready w) {a : Assembler} (hstart : b.start = w.1.offset)
    (hr : Recorded b w.1 a) :
    Written w.1.mode b (a, w.2) ∧ b.Waits w.1.mode (a, w.2) ∧ b.stop w.1.mode = a.offset := by
  obtain ⟨a₁, hw₁, hl, rfl⟩ := hr
  have hoff := hw₁.offset
  rw [List.length_append, List.length_replicate] at hoff
  have hstop : b.stop w.1.mode = a₁.offset := by
    rw [Branch.stop, Branch.site, hstart, hoff, Nat.add_assoc]
  have hsite : a₁.offset - w.1.mode.siteKind.size = b.site w.1.mode := by
    rw [← hstop, Branch.stop, Nat.add_sub_cancel]
  have hfresh : Stands (a₁, w.2) (b.opcode w.1.mode) (b.code w.1.mode) := by
    rw [Branch.opcode, hstart]
    exact .fresh hw.toKempt [] _ hw₁
  have hstands : Stands (a₁.recorded b.target, w.2) (b.opcode w.1.mode) (b.code w.1.mode) := by
    refine hfresh.recorded (Nat.le_of_eq ?_)
    rw [hw₁.mode, hsite]
    rfl
  refine ⟨⟨hw₁.mode, .of_stands hw₁.mode (Nat.le_of_eq hstop) hstands⟩, ?_, hstop⟩
  refine List.mem_append_right _ (List.mem_singleton.mpr ?_)
  rw [hw₁.mode, hsite]
  rfl

/-- A call that writes a jump to a guest address leaves it in the code. -/
theorem Ready.written (hw : Ready w) {c : Call} {r : Except Error Unit} (hx : c.run w = .ok r w')
    (hb : c.branches w.1.offset = [b]) :
    Written w.1.mode b w' ∧ b.Waits w.1.mode w' ∧
      b.start = w.1.offset ∧ b.stop w.1.mode = w'.1.offset := by
  rcases hw.run_cases c with ⟨eff, w'', he, hx', happ⟩ | ⟨m, -, hx'⟩ | ⟨f, a, hx', -⟩
  · cases hx.symm.trans hx'
    have hbr := Call.effect_branches he
    rw [hb] at hbr
    cases happ with
    | write _ _ => cases hbr
    | fill _ _ => cases hbr
    | branch hr =>
      rename_i b' a
      obtain rfl : b = b' := (List.cons.inj hbr).1.symm
      have hstart : b.start = w.1.offset := Call.effect_fits he
      obtain ⟨hwritten, hwaits, hstop⟩ := hw.recorded hstart hr
      exact ⟨hwritten, hwaits, hstart, hstop⟩
  · cases hx.symm.trans hx'
  · cases hx.symm.trans hx'

theorem Written.led (h : Written m b w) (hw : Ready w) (hwaits : b.Waits m w)
    {v : Nat × Option JumpRange} {a : Assembler}
    (hx : onSegment (dest.resolve b.target) w.1 = .ok v a) (hdone : ¬ b.Waits m (a, w.2)) :
    Ready (a, w.2) ∧ Led m b dest (a, w.2) := by
  have hu : Used (·.failure = none) w (some b.target) (a, w.2) :=
    (Change.resolve hx).used hw.toKempt
  obtain ⟨new, s, rfl, hres, -, hreach⟩ := hw.resolved hx
  refine ⟨hu.ready hw, h.used hu, ?_, hreach⟩
  change (b.pending m).leadingTo dest ∈ s.table.patched
  rw [hres.patched]
  exact List.mem_append_right _ (hres.leadingTo_mem hwaits hdone)

/-- A jump whose site leads to a destination goes there if it is taken. -/
theorem Led.executes (h : Led m b dest w) (hw : Ready w) (hlen : w.1.offset < 2 ^ 31)
    {x : Machine m.wide} (hx : x.Loaded w.1.segment.buffer) :
    ∃ path, x.Executes (codeAddress _ w.1.segment.buffer.address b.start) path
        (if b.taken x.flags then address _ (dest.address w.1.segment.buffer.address)
          else codeAddress _ w.1.segment.buffer.address (b.stop m)) ∧
      ∀ ip ∈ path, ∃ o, b.start ≤ o ∧ o < b.site m ∧
        ip = codeAddress _ w.1.segment.buffer.address o := by
  have hcode := h.standing.inCode
  rw [h.mode] at hcode
  have hin : b.site m + 4 ≤ w.1.offset := by
    refine Nat.le_trans (Nat.add_le_add_left ?_ _) hcode.2
    cases m.siteKind <;> decide
  have hdenotes : w.1.segment.buffer.denotes m.siteKind (b.site m) =
      dest.address w.1.segment.buffer.address := by
    refine (hw.linked _ h.patched).denotes fun o ho => ?_
    have hreach := h.reached o ho
    change ((o : Int) - (b.site m + 4)).natAbs < 2 ^ 31
    omega
  rw [← hdenotes]
  exact hcode.executes hx

/-- On the way from `w` to `w'`, a resolution of its target to `dest` has ended the waiting of
the jump. -/
def Branch.LedTo (m : AddressingMode) (b : Branch) (dest : Destination) (w w' : Writing) : Prop :=
  ∃ before v a, Uses (fun _ => True) w before ∧ b.Waits m before ∧
    onSegment (dest.resolve b.target) before.1 = .ok v a ∧ ¬ b.Waits m (a, before.2) ∧
    Uses (fun _ => True) (a, before.2) w'

/-- A jump to a guest address waits until its target is resolved, and not after a resolution
that returns no error. From then on it goes to its destination if its condition holds, and else
to what comes behind it. This is so on wide hosts as on narrow ones, after whatever else is
written and resolved and however the buffer moves. All that is executed lies before the site, so
the address behind the jump never is. -/
theorem Assembled.branch_executes (h : Assembled w) {c : Call} {b : Branch}
    (hb : c.branches w.1.offset = [b]) {r : Except Error Unit} {w₁ : Writing}
    (hcall : c.run w = .ok r w₁) :
    (∀ w₂, Uses (· ≠ b.target) w₁ w₂ → b.Waits w.1.mode w₂) ∧
    (∀ w₂ (dest : Destination) n a, Uses (fun _ => True) w₁ w₂ →
      onSegment (dest.resolve b.target) w₂.1 = .ok (n, none) a → ¬ b.Waits w.1.mode (a, w₂.2)) ∧
    ∀ dest w₂, b.LedTo w.1.mode dest w₁ w₂ → w₂.1.offset < 2 ^ 31 →
      ∀ x : Machine w.1.mode.wide, x.Loaded w₂.1.segment.buffer →
        ∃ path, x.Executes (codeAddress _ w₂.1.segment.buffer.address w.1.offset) path
            (if b.taken x.flags then address _ (dest.address w₂.1.segment.buffer.address)
              else codeAddress _ w₂.1.segment.buffer.address w₁.1.offset) ∧
          ∀ ip ∈ path, ∃ o, w.1.offset ≤ o ∧ o < b.site w.1.mode ∧
            ip = codeAddress _ w₂.1.segment.buffer.address o := by
  have hready := h.ready
  obtain ⟨hwritten, hwaits, hstart, hstop⟩ := hready.written hcall hb
  have hready₁ := Use.ready (.call hcall) hready
  refine ⟨?_, ?_, ?_⟩
  · intro w₂ hu
    exact hwaits.uses hready₁ hu
  · intro w₂ dest n a hu hx hstill
    obtain ⟨hready₂, -⟩ := hwritten.uses hready₁ hu
    obtain ⟨new, s, rfl, -, hall, -⟩ := hready₂.resolved hx
    exact hall rfl _ hstill rfl
  · rintro dest w₂ ⟨before, v, a, hu, hwaits, hx, hdone, hu'⟩ hlen x hloaded
    obtain ⟨hready₂, hwritten⟩ := hwritten.uses hready₁ hu
    obtain ⟨hready₃, hled⟩ := hwritten.led hready₂ hwaits hx hdone
    obtain ⟨hready₄, hled⟩ := hled.uses hready₃ hu'
    rw [← hstart, ← hstop]
    exact hled.executes hready₄ hlen hloaded

/-- A jump on the condition that something is zero, which fills the memory. It is resolved to the
start of the code, and then the code moves. -/
theorem branch_executes_after_move :
    ∃ (w w₁ : Writing) (n : Nat) (a₃ : Assembler) (w₄ : Writing), w.1.mode.wide = true ∧
      (∃ r, (Call.branchToGuest (.flag .e) 7).run w = .ok r w₁) ∧
      onSegment ((Destination.inside 0).resolve 7) w₁.1 = .ok (n, none) a₃ ∧
      (∃ r, (Call.append [0xc3]).run (a₃, w₁.2) = .ok r w₄) ∧
      w₁.1.segment.buffer.address = 0x10000 ∧ w₄.1.segment.buffer.address = 0x20000 ∧
      ∀ flags : Flags, ∃ path,
        (Machine.holding _ w₄.1.segment.buffer flags).Executes (codeAddress w.1.mode.wide 0x20000 0)
          path (if flags.zero then address _ 0x20000 else codeAddress _ 0x20000 16) ∧
        ∀ ip ∈ path, ∃ o, 0 ≤ o ∧ o < 8 ∧ ip = codeAddress _ 0x20000 o := by
  let w : Writing := (.new Config.twoPlaces.buffer (.baseRelative ⟨.bp, by decide⟩ 0), [])
  have hfacts : returned (fun (_ : Except Error Unit) (w₁ : Writing) =>
      returned (fun v a₃ =>
        returned (fun (_ : Except Error Unit) (w₄ : Writing) =>
          v.2 = none ∧ w₁.1.offset = 16 ∧ w₄.1.offset < 2 ^ 31 ∧
            w₁.1.segment.buffer.address = 0x10000 ∧ w₄.1.segment.buffer.address = 0x20000)
          ((Call.append [0xc3]).run (a₃, w₁.2)))
        (onSegment ((Destination.inside 0).resolve 7) w₁.1))
      ((Call.branchToGuest (.flag .e) 7).run w) = true := by decide +kernel
  obtain ⟨r, w₁, hcall, h₁⟩ := exists_of_returned hfacts
  obtain ⟨⟨n, stop⟩, a₃, hresolve, h₃⟩ := exists_of_returned h₁
  obtain ⟨r₄, w₄, hafter, h₄⟩ := exists_of_returned h₃
  obtain ⟨rfl, hoff, hlen, haddr₁, haddr₄⟩ := of_decide_eq_true h₄
  have hw : Assembled w := .new Config.twoPlaces_unused
  obtain ⟨hwaits, hended, hexec⟩ := hw.branch_executes (c := .branchToGuest (.flag .e) 7)
    (b := ⟨0, some .e, 7⟩) rfl hcall
  have hled : Branch.LedTo w.1.mode ⟨0, some .e, 7⟩ (.inside 0) w₁ w₄ :=
    ⟨w₁, (n, none), a₃, .refl, hwaits w₁ .refl, hresolve, hended w₁ _ n a₃ .refl hresolve,
      .step .refl (fun _ _ => trivial) (.call hafter)⟩
  refine ⟨w, w₁, n, a₃, w₄, rfl, ⟨r, hcall⟩, hresolve, ⟨r₄, hafter⟩, haddr₁, haddr₄, ?_⟩
  intro flags
  have hflags := hexec _ w₄ hled hlen _
    (Machine.loaded_holding (Nat.le_trans (Nat.le_of_lt hlen) (by decide)) flags)
  rw [haddr₄, hoff] at hflags
  exact hflags

end HostCode
