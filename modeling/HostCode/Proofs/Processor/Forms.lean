import HostCode.Proofs.Attempt
import HostCode.Proofs.Processor.Operands

/-! # Forms of instructions

A form is an opcode with an r/m operand, or with a register in it. What is put together for a
form has the operands where the processor looks for them, so that only the entry in the opcode
map is left to compare.
-/

namespace HostCode.Processor

open Encoding

theorem generalPurpose_ok {q : Register} {g : Gpr} (h : generalPurpose q = .ok g) :
    q = .gpr g := by
  cases q with
  | gpr r =>
    cases h
    rfl
  | none => cases h
  | st _ => cases h
  | unnamed _ => cases h

/-- A byte register that needs a REX byte has one. -/
def Marked (mode : AddressingMode) (s : Size) (o : Operand) (i : Instruction) : Prop :=
  s = .byte → (operandByteRex mode o).bare = true → i.rex.bare = true

structure Sized (s : Size) (opcode : List UInt8) (i : Instruction) : Prop where
  opcode : i.opcode = opcode
  size : s = .byte ∨ (fieldsOf i).size = s

/-- An instruction with an r/m operand, and with `field` beside it. -/
structure Formed (mode : AddressingMode) (s : Size) (opcode : List UInt8) (field : BitVec 3)
    (o : Operand) (i : Instruction) : Prop extends Sized s opcode i where
  modrm : ∃ m, i.modrm = some (field, m) ∧ Denotes mode o m ∧ i.rex.x = m.x ∧ i.rex.b = m.b

variable {mode : AddressingMode} {i : Instruction} {s t : Size} {opcode : List UInt8}
  {field : BitVec 3} {o : Operand} {q : Register} {g : Gpr} {b : UInt8} {e : Entry} {r : Request}
  {os : List (Operand × Size)}

theorem sizeRex_eq (s : Size) : sizeRex s = { w := s = .qword } := by cases s <;> rfl

theorem size_fieldsOf {p : Rex} (hw : p.w = decide (s = .qword)) (hb : s ≠ .byte) {modrm imm} :
    (fieldsOf ⟨s = .word, p, opcode, modrm, imm⟩).size = s := by
  unfold Fields.size fieldsOf
  simp only [hw]
  cases s with
  | byte => exact absurd rfl hb
  | word => rfl
  | dword => rfl
  | qword => rfl

theorem sized_of {p : Rex} (hw : p.w = decide (s = .qword)) {modrm imm} :
    Sized s opcode ⟨s = .word, p, opcode, modrm, imm⟩ where
  opcode := rfl
  size := or_iff_not_imp_left.mpr fun hb => size_fieldsOf hw hb

theorem byteRex_eq (mode : AddressingMode) (q : Register) :
    byteRex mode q = { bare := (byteRex mode q).bare } := by
  unfold byteRex
  split <;> rfl

theorem operandByteRex_eq (mode : AddressingMode) (o : Operand) :
    operandByteRex mode o = { bare := (operandByteRex mode o).bare } := by
  cases o with
  | reg q => exact byteRex_eq mode q
  | _ => rfl

theorem withExtension_ok (h : withExtension mode s opcode o field = .ok i) :
    Formed mode s opcode field o i ∧ Marked mode s o i ∧ i.imm = none := by
  obtain ⟨m, hm, h⟩ := bind_eq_ok.mp h
  have hrex : ((sizeRex s).merge m.rex).merge (if s = .byte then operandByteRex mode o else {}) =
      ⟨s = .qword, false, m.x, m.b, s = .byte && (operandByteRex mode o).bare⟩ := by
    rw [sizeRex_eq, operandByteRex_eq]
    by_cases hs : s = .byte <;> simp [Rex.merge, RM.rex, hs]
  simp only [hrex] at h
  cases h
  refine ⟨⟨sized_of rfl, m, rfl, denotes_ofOperand hm, rfl, rfl⟩, ?_, rfl⟩
  intro hs hbare
  simp [hs, hbare]

theorem withRegister_ok (h : withRegister mode s opcode o q = .ok i) :
    ∃ g, q = .gpr g ∧ Formed mode s opcode g.low o i ∧ i.rex.r = g.extended ∧ Marked mode s o i ∧
      Marked mode s (.reg q) i ∧ i.imm = none := by
  obtain ⟨g, hg, h⟩ := bind_eq_ok.mp h
  obtain ⟨m, hm, h⟩ := bind_eq_ok.mp h
  have hrex : (((sizeRex s).merge { r := g.extended }).merge m.rex).merge
      (if s = .byte then (operandByteRex mode o).merge (byteRex mode q) else {}) =
      ⟨s = .qword, g.extended, m.x, m.b,
        s = .byte && ((operandByteRex mode o).bare || (byteRex mode q).bare)⟩ := by
    rw [sizeRex_eq, operandByteRex_eq, byteRex_eq]
    by_cases hs : s = .byte <;> simp [Rex.merge, RM.rex, hs]
  simp only [hrex] at h
  cases h
  refine ⟨g, generalPurpose_ok hg, ⟨sized_of rfl, m, rfl, denotes_ofOperand hm, rfl, rfl⟩, rfl,
    ?_, ?_, rfl⟩
  · intro hs hbare
    simp [hs, hbare]
  · intro hs hbare
    have hbare' : (byteRex mode q).bare = true := hbare
    simp [hs, hbare']

/-! ## Where operands are found -/

theorem Marked.needed (h : Marked mode s o i) (hs : s = .byte)
    (hbare : (operandByteRex mode o).bare = true) : i.rex.needed = true := by
  simp [Rex.needed, h hs hbare]

theorem marked_of_ne (hs : s ≠ .byte) : Marked mode s o i := fun h => absurd h hs

theorem Formed.finds_rm (h : Formed mode s opcode field o i)
    (hhost : i.rex.needed = true → mode.wide = true) (hm : Marked mode t o i) :
    Finds mode i (o, t) (.rm t) := by
  obtain ⟨m, hi, hd, -, -⟩ := h.modrm
  refine ⟨rmPlace mode.wide i.rex.needed t m, ?_, hd.means hhost hm.needed⟩
  simp only [Arg.place, fieldsOf, hi, Option.map_some]

theorem Formed.finds_reg (h : Formed mode s opcode g.low o i) (hr : i.rex.r = g.extended)
    (hhost : i.rex.needed = true → mode.wide = true) (hm : Marked mode t (.reg (.gpr g)) i) :
    Finds mode i (.reg (.gpr g), t) (.reg t) := by
  obtain ⟨m, hi, -, -, -⟩ := h.modrm
  refine ⟨register i.rex.needed t (BitVec.ofBool g.extended ++ g.low), ?_,
    register_code hhost hm.needed⟩
  simp only [Arg.place, fieldsOf, hi, hr, Option.map_some]

theorem finds_embedded (ho : i.opcode = [b]) (hb : b.toBitVec.extractLsb' 0 3 = g.low)
    (hr : i.rex.b = g.extended) (hhost : i.rex.needed = true → mode.wide = true)
    (hm : Marked mode t (.reg (.gpr g)) i) : Finds mode i (.reg (.gpr g), t) (.embedded t) := by
  refine ⟨register i.rex.needed t (BitVec.ofBool g.extended ++ g.low), ?_,
    register_code hhost hm.needed⟩
  simp only [Arg.place, fieldsOf, ho, hr, hb, List.head?_cons, Option.map_some]

theorem finds_accumulator : Finds mode i (.reg (.gpr .ax), s) (.accumulator s) := by
  refine ⟨.register .ax s, rfl, ?_⟩
  simp [Means, registerNamed]

theorem finds_counter : Finds mode i (.reg (.gpr .cx), .byte) .counter := by
  refine ⟨.register .cx .byte, rfl, ?_⟩
  simp [Means, registerNamed]

theorem finds_constant {v : Int64} {bits : UInt8} (h : i.imm = some ⟨t, v⟩) :
    Finds mode i (.imm v bits, s) (.constant t) := by
  refine ⟨.constant t (v.toUInt64.toNat % 2 ^ t.bits), ?_, t, rfl⟩
  simp only [Arg.place, constantOf, h, Option.map_some, Option.getD_some]

theorem finds_offset {a : HostAddress} (h : i.imm = some ⟨t, a.toInt64⟩)
    (ha : a.toNat < 2 ^ t.bits) : Finds mode i (.abs a, s) (.offset t s) := by
  refine ⟨.absolute s a.toNat, ?_, rfl⟩
  simp only [Arg.place, constantOf, h, Option.map_some, Option.getD_some, UInt64.toUInt64_toInt64,
    Nat.mod_eq_of_lt ha]

/-! ## Answers by form -/

theorem Sized.readable (h : Sized s opcode i) (hhost : i.rex.needed = true → mode.wide = true)
    (hm : i.modrm = none) (ho : (isOpcode opcode && !hasModRM opcode) = true)
    (he : ∀ v, s = .byte ∨ v = s → lookup mode.wide v opcode none = some e) :
    Readable mode.wide i ∧ lookup mode.wide (fieldsOf i).size i.opcode i.modrm = some e := by
  obtain ⟨rfl, hs⟩ := h
  obtain ⟨ho, hno⟩ := Bool.and_eq_true_iff.mp ho
  refine ⟨⟨hhost, ho, ?_, ?_⟩, ?_⟩
  · simpa [hm] using hno
  · intro reg m h
    rw [hm] at h
    cases h
  · rw [hm]
    exact he _ hs

theorem Sized.answers (h : Sized s opcode i) (hhost : i.rex.needed = true → mode.wide = true)
    (hm : i.modrm = none) (ho : (isOpcode opcode && !hasModRM opcode) = true)
    (he : ∀ v, s = .byte ∨ v = s → lookup mode.wide v opcode none = some e)
    (hr : Concerns mode.wide r os e) (hc : e.args.findSome? Arg.constantSize = i.imm.map (·.size))
    (hargs : List.Forall₂ (Finds mode i) os e.args) : Answers mode r i := by
  obtain ⟨hread, he⟩ := h.readable hhost hm ho he
  exact .of_entry hread he hr hc hargs

/-- The opcode map has the entry for an opcode with an r/m operand. Instructions on bytes have an
opcode of their own, and some entries want memory in the r/m field. -/
structure Listed (wide memory : Bool) (s : Size) (opcode : List UInt8) (field : BitVec 3)
    (e : Entry) : Prop where
  known : (isOpcode opcode && hasModRM opcode) = true
  entry : ∀ v m, s = .byte ∨ v = s → (memory = true → m.mod ≠ 3) →
    lookup wide v opcode (some (field, m)) = some e

theorem Listed.pair {wide memory : Bool} {e : Size → Entry}
    (known : ∀ s, (isOpcode (opcodeFor s b) && hasModRM (opcodeFor s b)) = true)
    (byte : ∀ v m, lookup wide v (opcodeFor .byte b) (some (field, m)) = some (e .byte))
    (entry : ∀ v m, lookup wide v (opcodeFor v b) (some (field, m)) = some (e v)) :
    Listed wide memory s (opcodeFor s b) field (e s) := by
  constructor
  · exact known s
  · rintro v m (rfl | rfl) -
    · exact byte v m
    · exact entry v m

theorem Listed.wide {wide memory : Bool} (hs : s ≠ .byte)
    (known : (isOpcode opcode && hasModRM opcode) = true)
    (entry : ∀ m, lookup wide s opcode (some (field, m)) = some e) :
    Listed wide memory s opcode field e := by
  constructor
  · exact known
  · rintro v m (rfl | rfl) -
    · exact absurd rfl hs
    · exact entry m

theorem Formed.readable (h : Formed mode s opcode field o i)
    (hhost : i.rex.needed = true → mode.wide = true)
    (he : Listed mode.wide o.isMemory s opcode field e) :
    Readable mode.wide i ∧ lookup mode.wide (fieldsOf i).size i.opcode i.modrm = some e := by
  obtain ⟨⟨rfl, hs⟩, m, hm, hd, hx, hb⟩ := h
  obtain ⟨ho, hyes⟩ := Bool.and_eq_true_iff.mp he.known
  refine ⟨⟨hhost, ho, ?_, ?_⟩, ?_⟩
  · rw [hm, hyes]
    rfl
  · intro reg m' h
    rw [hm] at h
    cases h
    exact ⟨hd.regular, hx, hb⟩
  · rw [hm]
    exact he.entry _ m hs hd.mod_ne

theorem Formed.answers (h : Formed mode s opcode field o i)
    (hhost : i.rex.needed = true → mode.wide = true)
    (he : Listed mode.wide o.isMemory s opcode field e) (hr : Concerns mode.wide r os e)
    (hc : e.args.findSome? Arg.constantSize = i.imm.map (·.size))
    (hargs : List.Forall₂ (Finds mode i) os e.args) : Answers mode r i := by
  obtain ⟨hread, he⟩ := h.readable hhost he
  exact .of_entry hread he hr hc hargs

theorem withExtension_answers {j : Instruction} (h : withExtension mode s opcode o field = .ok j)
    {c : Option Immediate} (hi : i = { j with imm := c })
    (hhost : i.rex.needed = true → mode.wide = true)
    (he : Listed mode.wide o.isMemory s opcode field e) (hr : Concerns mode.wide r os e)
    (hc : e.args.findSome? Arg.constantSize = c.map (·.size))
    (hargs : Finds mode i (o, s) (.rm s) → List.Forall₂ (Finds mode i) os e.args) :
    Answers mode r i := by
  subst hi
  obtain ⟨hf, hm, -⟩ := withExtension_ok h
  have hf' : Formed mode s opcode field o { j with imm := c } := ⟨⟨hf.opcode, hf.size⟩, hf.modrm⟩
  exact hf'.answers hhost he hr hc (hargs (hf'.finds_rm hhost hm))

theorem withRegister_answers {j : Instruction} (h : withRegister mode s opcode o q = .ok j)
    {c : Option Immediate} (hi : i = { j with imm := c })
    (hhost : i.rex.needed = true → mode.wide = true)
    (he : ∀ field, Listed mode.wide o.isMemory s opcode field e) (hr : Concerns mode.wide r os e)
    (hc : e.args.findSome? Arg.constantSize = c.map (·.size))
    (hargs : Finds mode i (o, s) (.rm s) → Finds mode i (.reg q, s) (.reg s) →
      List.Forall₂ (Finds mode i) os e.args) : Answers mode r i := by
  subst hi
  obtain ⟨g, rfl, hf, hreg, hm, hm', -⟩ := withRegister_ok h
  have hf' : Formed mode s opcode g.low o { j with imm := c } := ⟨⟨hf.opcode, hf.size⟩, hf.modrm⟩
  exact hf'.answers hhost (he g.low) hr hc
    (hargs (hf'.finds_rm hhost hm) (hf'.finds_reg hreg hhost hm'))

theorem withExtension_imm (h : withExtension mode s opcode o field = .ok i) :
    i = { i with imm := none } := by
  obtain ⟨-, -, hi⟩ := withExtension_ok h
  rw [← hi]

theorem withRegister_imm (h : withRegister mode s opcode o q = .ok i) :
    i = { i with imm := none } := by
  obtain ⟨-, -, -, -, -, -, hi⟩ := withRegister_ok h
  rw [← hi]

end HostCode.Processor
