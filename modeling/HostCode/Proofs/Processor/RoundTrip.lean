import HostCode.Proofs.Processor.Integer

/-! # Instructions are understood

The processor decodes the bytes of every accepted request to what was asked for, whatever bytes
come after them. The remaining families come first: extensions, addresses, conditions, control
and floating point.
-/

namespace HostCode

def Request.IsIdle (r : Request) : Prop := r.op = .mov ∧ r.dst.isReg = true ∧ r.dst = r.src

instance (r : Request) : Decidable r.IsIdle :=
  inferInstanceAs (Decidable (r.op = .mov ∧ r.dst.isReg = true ∧ r.dst = r.src))

namespace Processor

open Encoding

variable {mode : AddressingMode} {r : Request} {i : Instruction} {s : Size} {wide memory : Bool}
  {field : BitVec 3}

/-! ## Extensions and addresses -/

theorem listed_extend {o : Extend} (hs : (extendSource o).bits < s.bits)
    (hw : o = .movsxd → wide = true) : Listed wide memory s (extendOpcode o) field
      { op := .extend o, width := some s, args := [.reg s, .rm (extendSource o)] } := by
  apply Listed.wide
  · rintro rfl
    cases o <;> exact absurd hs (by decide)
  · cases o <;> rfl
  · cases o with
    | movsxd =>
      -- an instruction of wide hosts only
      rw [hw rfl]
      exact fun _ => rfl
    | _ => exact fun _ => rfl

theorem needed_of_size (h : (fieldsOf i).size = .qword) : i.rex.needed = true := by
  unfold Fields.size at h
  split at h
  · next hw =>
    have hw' : i.rex.w = true := hw
    simp [Rex.needed, hw']
  · cases h
  · cases h

theorem Formed.mark {opcode : List UInt8} {o : Operand} (h : Formed mode s opcode field o i)
    (p : Bool) : Formed mode s opcode field o { i with rex := i.rex.merge { bare := p } } := by
  obtain ⟨m, hm, hd, hx, hb⟩ := h.modrm
  have hw : (i.rex.merge { bare := p }).w = i.rex.w := by simp [Rex.merge]
  have hsize : (fieldsOf { i with rex := i.rex.merge { bare := p } }).size = (fieldsOf i).size := by
    simp only [Fields.size, fieldsOf, hw]
  refine ⟨⟨h.opcode, hsize ▸ h.size⟩, m, hm, hd, ?_, ?_⟩
  · simpa [Rex.merge] using hx
  · simpa [Rex.merge] using hb

theorem extend_ok {o : Extend} (h : extend mode o r = .ok i) :
    ∃ s g, Size.ofBits? r.width = some s ∧ (extendSource o).bits < s.bits ∧
      r.dst = .reg (.gpr g) ∧ Formed mode s (extendOpcode o) g.low r.src i ∧
      i.rex.r = g.extended ∧ Marked mode (extendSource o) r.src i ∧ i.imm = none := by
  rw [extend, bind_eq_ok] at h
  obtain ⟨s, hs, h⟩ := h
  dsimp only at h
  split at h
  · cases h
  next hle =>
  split at h
  · next d hd =>
    split at h
    · cases h
    rw [bind_eq_ok] at h
    obtain ⟨j, hj, h⟩ := h
    obtain ⟨g, rfl, hf, hreg, -, -, himm⟩ := withRegister_ok hj
    refine ⟨s, g, sizeOf_ok hs, Nat.lt_of_not_le hle, hd, ?_⟩
    split at h
    · rw [operandByteRex_eq] at h
      cases h
      refine ⟨hf.mark _, ?_, fun _ hbare => ?_, himm⟩
      · simp [Rex.merge, hreg]
      · simp [Rex.merge, hbare]
    · next hsrc =>
      cases h
      exact ⟨hf, hreg, marked_of_ne hsrc, himm⟩
  · cases h

theorem extend_answers {o : Extend} (hop : r.op = .extend o) (h : extend mode o r = .ok i)
    (hhost : i.rex.needed = true → mode.wide = true) : Answers mode r i := by
  obtain ⟨s, g, hs, hlt, hdst, hf, hreg, hm, himm⟩ := extend_ok h
  have hb : s ≠ .byte := by
    rintro rfl
    cases o <;> exact absurd hlt (by decide)
  have hr : Concerns mode.wide r [(.reg (.gpr g), s), (r.src, extendSource o)]
      { op := .extend o, width := some s, args := [.reg s, .rm (extendSource o)] } := by
    obtain ⟨op, width, cond, dst, src, aux⟩ := r
    obtain rfl : op = .extend o := hop
    obtain rfl : dst = .reg (.gpr g) := hdst
    refine ⟨rfl, hs.symm, rfl, ?_⟩
    cases o <;> simp only [readsOf, sizeOf?, hs, Option.getD_some, extendSource]
  refine hf.answers hhost (listed_extend hlt ?_) hr ?_
    (.cons (hf.finds_reg hreg hhost (marked_of_ne hb)) (.cons (hf.finds_rm hhost hm) .nil))
  · -- only a quadword is wider than a doubleword, and it takes a REX byte to ask for one
    rintro rfl
    have hq : s = .qword := by
      cases s with
      | qword => rfl
      | _ => exact absurd hlt (by decide)
    exact hhost (needed_of_size ((hf.size.resolve_left hb).trans hq))
  · rw [himm]
    rfl

theorem listed_lea (hs : s ≠ .byte) : Listed wide true s [0x8d] field
    { op := .lea, width := some s, args := [.reg s, .rm s] } := by
  constructor
  · rfl
  · rintro v m (rfl | rfl) hm
    · exact absurd rfl hs
    · have hno : decide (m.mod = 3) = false := decide_eq_false (hm rfl)
      simp only [lookup, hno]
      rfl

theorem lea_answers (hop : r.op = .lea) (h : lea mode r = .ok i)
    (hhost : i.rex.needed = true → mode.wide = true) : Answers mode r i := by
  obtain ⟨op, width, cond, dst, src, aux⟩ := r
  obtain rfl : op = .lea := hop
  rw [lea, bind_eq_ok] at h
  obtain ⟨s, hs, h⟩ := h
  obtain ⟨hs, hb⟩ := wideSizeOf_ok hs
  have hr (args) : Concerns mode.wide ⟨.lea, width, cond, dst, src, aux⟩ [(dst, s), (src, s)]
      { op := .lea, width := some s, args } :=
    ⟨rfl, hs.symm, rfl, by simp only [readsOf, sizeOf?, hs, Option.getD_some]⟩
  dsimp only at h
  split at h
  · split at h
    · next hmem =>
      refine withRegister_answers h (withRegister_imm h) hhost (fun _ => ?_) (hr _) rfl
        fun hrm hreg => .cons hreg (.cons hrm .nil)
      rw [hmem]
      exact listed_lea hb
    · cases h
  · cases h

/-! ## Conditions -/

theorem flagOf_ok {c : Flag} (h : Encoding.flagOf r = .ok c) : r.cond = .flag c := by
  unfold Encoding.flagOf at h
  split at h
  · next hc =>
    cases h
    exact hc
  · cases h

theorem listed_setcc (c : Flag) :
    Listed wide memory .byte [0x0f, 0x90 + UInt8.ofNat c.code.toNat] 0
      { op := .setcc, width := some .byte, cond := some c, args := [.rm .byte] } where
  known := by cases c <;> rfl
  entry v m _ _ := by cases c <;> rfl

theorem setcc_answers (hop : r.op = .setcc) (h : setcc mode r = .ok i)
    (hhost : i.rex.needed = true → mode.wide = true) : Answers mode r i := by
  obtain ⟨op, width, cond, dst, src, aux⟩ := r
  obtain rfl : op = .setcc := hop
  simp only [setcc] at h
  split at h
  · cases h
  rw [bind_eq_ok] at h
  obtain ⟨c, hc, h⟩ := h
  obtain rfl : cond = .flag c := flagOf_ok hc
  split at h
  · exact withExtension_answers h (withExtension_imm h) hhost (listed_setcc c)
      ⟨rfl, rfl, rfl, rfl⟩ rfl fun hrm => .cons hrm .nil
  · cases h

theorem listed_cmovcc (c : Flag) (hs : s ≠ .byte) :
    Listed wide memory s [0x0f, 0x40 + UInt8.ofNat c.code.toNat] field
      { op := .cmovcc, width := some s, cond := some c, args := [.reg s, .rm s] } :=
  .wide hs (by cases c <;> rfl) fun _ => by cases c <;> rfl

theorem cmovcc_answers (hop : r.op = .cmovcc) (h : cmovcc mode r = .ok i)
    (hhost : i.rex.needed = true → mode.wide = true) : Answers mode r i := by
  obtain ⟨op, width, cond, dst, src, aux⟩ := r
  obtain rfl : op = .cmovcc := hop
  rw [cmovcc, bind_eq_ok] at h
  obtain ⟨s, hs, h⟩ := h
  obtain ⟨hs, hb⟩ := wideSizeOf_ok hs
  rw [bind_eq_ok] at h
  obtain ⟨c, hc, h⟩ := h
  obtain rfl : cond = .flag c := flagOf_ok hc
  have hr (args) : Concerns mode.wide ⟨.cmovcc, width, .flag c, dst, src, aux⟩
      [(dst, s), (src, s)] { op := .cmovcc, width := some s, cond := some c, args } :=
    ⟨rfl, hs.symm, rfl, by simp only [readsOf, sizeOf?, hs, Option.getD_some]⟩
  dsimp only at h
  split at h
  · split at h
    · exact withRegister_answers h (withRegister_imm h) hhost (fun _ => listed_cmovcc c hb) (hr _)
        rfl fun hrm hreg => .cons hreg (.cons hrm .nil)
    · cases h
  · cases h

theorem lookup_cdq (hs : s ≠ .byte) (v : Size) (hv : s = .byte ∨ v = s) :
    lookup wide v [0x99] none = some { op := .cdq, width := some s } := by
  obtain rfl := hv.resolve_left hs
  rfl

theorem cdq_answers (hop : r.op = .cdq) (h : cdq r = .ok i)
    (hhost : i.rex.needed = true → mode.wide = true) : Answers mode r i := by
  obtain ⟨op, width, cond, dst, src, aux⟩ := r
  obtain rfl : op = .cdq := hop
  rw [cdq, bind_eq_ok] at h
  obtain ⟨s, hs, h⟩ := h
  obtain ⟨hs, hb⟩ := wideSizeOf_ok hs
  cases h
  exact bare_answers rfl hhost rfl (lookup_cdq hb) ⟨rfl, hs.symm, rfl, rfl⟩ rfl .nil

/-! ## Control -/

theorem hostSize_ne_byte (wide : Bool) : hostSize wide ≠ .byte := by cases wide <;> decide

/-- The operand has the size of an address, although the instruction carries no size. -/
theorem listed_transfer (o : Transfer) : Listed wide memory .dword [0xff] (transferCode o)
    { op := .transfer o, args := [.rm (hostSize wide)] } :=
  .wide (by decide) rfl fun _ => by cases o <;> rfl

theorem transfer_answers {o : Transfer} (hop : r.op = .transfer o) (h : transfer mode o r = .ok i)
    (hhost : i.rex.needed = true → mode.wide = true) : Answers mode r i := by
  obtain ⟨op, width, cond, dst, src, aux⟩ := r
  obtain rfl : op = .transfer o := hop
  simp only [transfer] at h
  split at h
  · obtain ⟨hf, -, himm⟩ := withExtension_ok h
    refine hf.answers hhost (listed_transfer o) ⟨rfl, rfl, rfl, rfl⟩ ?_ (.cons ?_ .nil)
    · rw [himm]
      rfl
    · exact hf.finds_rm hhost (marked_of_ne (hostSize_ne_byte _))
  · cases h

theorem lookup_stack (o : Stack) (g : Gpr) (v : Size) (hv : Size.dword = .byte ∨ v = .dword) :
    lookup wide v [stackOpcode o + UInt8.ofNat g.low.toNat] none =
      some { op := .stack o, args := [.embedded (hostSize wide)] } := by
  obtain rfl := hv.resolve_left (by decide)
  cases o <;> cases g <;> rfl

theorem stack_answers {o : Stack} (hop : r.op = .stack o) (h : stack o r = .ok i)
    (hhost : i.rex.needed = true → mode.wide = true) : Answers mode r i := by
  obtain ⟨op, width, cond, dst, src, aux⟩ := r
  obtain rfl : op = .stack o := hop
  simp only [stack] at h
  split at h
  · split at h
    · cases h
    rw [bind_eq_ok] at h
    obtain ⟨g, hg, h⟩ := h
    obtain rfl := generalPurpose_ok hg
    cases h
    have hs : Sized .dword [stackOpcode o + UInt8.ofNat g.low.toNat]
        { opcode := [stackOpcode o + UInt8.ofNat g.low.toNat], rex := { b := g.extended } } :=
      ⟨rfl, .inr rfl⟩
    refine hs.answers hhost rfl ?_ (lookup_stack o g) ⟨rfl, rfl, rfl, rfl⟩ rfl (.cons ?_ .nil)
    · cases o <;> cases g <;> rfl
    · refine finds_embedded rfl ?_ rfl hhost (marked_of_ne (hostSize_ne_byte _))
      cases o <;> cases g <;> rfl
  · cases h

/-! ## Floating point -/

/-- A floating point instruction without memory. Its second byte is written as a part of the
opcode, and read as a ModRM byte. -/
def floatForm (b : UInt8) (field last : BitVec 3) : Instruction :=
  { opcode := [b], modrm := some (field, { mod := 3, rm := last }) }

theorem floatForm_answers (b : UInt8) (field last : BitVec 3) {e : Entry}
    {os : List (Operand × Size)} (hbytes : i.bytes = (floatForm b field last).bytes)
    (ho : (isOpcode [b] && hasModRM [b]) = true)
    (he : lookup mode.wide .dword [b] (some (field, { mod := 3, rm := last })) = some e)
    (hr : Concerns mode.wide r os e) (hc : e.args.findSome? Arg.constantSize = none)
    (hargs : List.Forall₂ (Finds mode (floatForm b field last)) os e.args) :
    Answers mode r i := by
  obtain ⟨ho, hyes⟩ := Bool.and_eq_true_iff.mp ho
  have hread : Readable mode.wide (floatForm b field last) := by
    constructor
    · exact fun h => absurd h Bool.false_ne_true
    · exact ho
    · exact hyes.symm
    · intro reg m h
      cases h
      exact ⟨regular_register last false, rfl, rfl⟩
  obtain ⟨d, hd, hdecode⟩ := Answers.of_entry hread he hr hc hargs
  exact ⟨d, hd, fun tail => by rw [hbytes]; exact hdecode tail⟩

theorem plain_answers {o : Plain} (hop : r.op = .plain o) (h : plain o r = .ok i) :
    Answers mode r i := by
  obtain ⟨op, width, cond, dst, src, aux⟩ := r
  obtain rfl : op = .plain o := hop
  simp only [plain] at h
  split at h
  · cases h
    have hone {b : UInt8} : Sized .dword [b] { opcode := [b] } := ⟨rfl, .inr rfl⟩
    have hr : Concerns mode.wide ⟨.plain o, width, cond, dst, src, aux⟩ [] { op := .plain o } :=
      ⟨rfl, rfl, rfl, rfl⟩
    cases o with
    | nop => exact hone.answers (absurd · Bool.false_ne_true) rfl rfl (fun _ _ => rfl) hr rfl .nil
    | ret => exact hone.answers (absurd · Bool.false_ne_true) rfl rfl (fun _ _ => rfl) hr rfl .nil
    | fchs => exact floatForm_answers 0xd9 4 0 rfl rfl rfl hr rfl .nil
    | fabs => exact floatForm_answers 0xd9 4 1 rfl rfl rfl hr rfl .nil
    | fsqrt => exact floatForm_answers 0xd9 7 2 rfl rfl rfl hr rfl .nil
  · cases h

theorem floatOperand_ok {o : Operand} (h : floatOperand r = .ok o) :
    (if r.dst.isNone then r.src else r.dst) = o := by
  obtain ⟨op, width, cond, dst, src, aux⟩ := r
  cases dst with
  | none =>
    cases src with
    | none => cases h
    | _ => exact Except.ok.inj h
  | _ =>
    cases src with
    | none => exact Except.ok.inj h
    | _ => cases h

theorem lookup_floatMemory {b : UInt8} {m : RM} (hm : m.mod ≠ 3)
    (hb : (0xd8 ≤ b && b < 0xe0) = true) (v : Size) :
    lookup wide v [b] (some (field, m)) = floatMemory b field := by
  rw [lookup, if_pos hb, if_neg hm]

theorem floatMemoryCode_listed {o : FloatMemory} {b : UInt8}
    (h : floatMemoryCode o s = some (b, field)) :
    s ≠ .byte ∧ Listed wide true .dword [b] field
      { op := .floatMemory o, width := some s, args := [.rm s] } := by
  cases o <;> cases s <;> cases h <;>
    exact ⟨by decide, rfl, fun v m _ hm => lookup_floatMemory (hm rfl) rfl v⟩

theorem floatMemory_answers {o : FloatMemory} (hop : r.op = .floatMemory o)
    (h : Encoding.floatMemory mode o r = .ok i) (hhost : i.rex.needed = true → mode.wide = true) :
    Answers mode r i := by
  obtain ⟨op, width, cond, dst, src, aux⟩ := r
  obtain rfl : op = .floatMemory o := hop
  rw [Encoding.floatMemory, bind_eq_ok] at h
  obtain ⟨place, hplace, h⟩ := h
  split at h
  · cases h
  next hmem =>
  split at h
  · next b ext hcode =>
    obtain ⟨s, hs, hcode⟩ := Option.bind_eq_some_iff.mp hcode
    obtain ⟨hb, hlisted⟩ := floatMemoryCode_listed hcode
    have hr : Concerns mode.wide ⟨.floatMemory o, width, cond, dst, src, aux⟩ [(place, s)]
        { op := .floatMemory o, width := some s, args := [.rm s] } := by
      refine ⟨rfl, hs.symm, rfl, ?_⟩
      rw [← floatOperand_ok hplace]
      simp only [readsOf, sizeOf?, hs, Option.getD_some]
    obtain ⟨hf, -, himm⟩ := withExtension_ok h
    refine hf.answers hhost ?_ hr ?_ (.cons (hf.finds_rm hhost (marked_of_ne hb)) .nil)
    · rw [show place.isMemory = true by simpa using hmem]
      exact hlisted
    · rw [himm]
      rfl
  · cases h

def floatStackField : FloatStack → BitVec 3
  | .fcomip => 6 | .fucomip => 5 | .ffree => 0

theorem floatStack_bytes (o : FloatStack) (k : Fin 8) :
    Instruction.bytes
        { opcode := [(floatStackOpcode o).1, (floatStackOpcode o).2 + UInt8.ofNat k.val] } =
      (floatForm (floatStackOpcode o).1 (floatStackField o) (.ofFin k)).bytes := by
  cases o <;> revert k <;> decide

theorem lookup_floatStack (o : FloatStack) {last : BitVec 3} (v : Size) :
    lookup wide v [(floatStackOpcode o).1] (some (floatStackField o, { mod := 3, rm := last })) =
      some { op := .floatStack o, args := [.float] } := by
  cases o <;> rfl

theorem floatStack_answers {o : FloatStack} (hop : r.op = .floatStack o)
    (h : floatStack o r = .ok i) : Answers mode r i := by
  obtain ⟨op, width, cond, dst, src, aux⟩ := r
  obtain rfl : op = .floatStack o := hop
  rw [floatStack, bind_eq_ok] at h
  obtain ⟨place, hplace, h⟩ := h
  split at h
  · next k =>
    have hr : Concerns mode.wide ⟨.floatStack o, width, cond, dst, src, aux⟩
        [(.reg (.st k), .dword)] { op := .floatStack o, args := [.float] } := by
      refine ⟨rfl, rfl, rfl, ?_⟩
      rw [← floatOperand_ok hplace]
      rfl
    have hfloat (b field) :
        Finds mode (floatForm b field (.ofFin k)) (.reg (.st k), .dword) .float :=
      ⟨.float (.ofFin k), rfl, rfl⟩
    cases h
    exact floatForm_answers _ (floatStackField o) (.ofFin k) (floatStack_bytes o k)
      (by cases o <;> rfl) (lookup_floatStack o .dword) hr rfl (.cons (hfloat _ _) .nil)
  · cases h

/-! ## All families -/

theorem written_ok {x : Except Rejection Instruction}
    (h : some (do return some (← x)) = some (Except.ok (some i))) : x = .ok i := by
  obtain ⟨j, hj, h⟩ := bind_eq_ok.mp (Option.some.inj h)
  cases h
  exact hj

theorem family_answers (h : family mode r = some (.ok (some i)))
    (hhost : i.rex.needed = true → mode.wide = true) : Answers mode r i := by
  unfold family at h
  split at h
  · cases h
  · cases h
  · next hop => exact alu_answers hop (written_ok h) hhost
  · next hop => exact mov_answers hop (Option.some.inj h) hhost
  · next hop => exact movabs_answers hop (written_ok h) hhost
  · next hop => exact test_answers hop (written_ok h) hhost
  · next hop => exact unary_answers hop (written_ok h) hhost
  · next hop => exact imul_answers hop (written_ok h) hhost
  · next hop => exact count_answers hop (written_ok h) hhost
  · next hop => exact shift_answers hop (written_ok h) hhost
  · next hop => exact doubleShift_answers hop (written_ok h) hhost
  · next hop => exact extend_answers hop (written_ok h) hhost
  · next hop => exact lea_answers hop (written_ok h) hhost
  · next hop => exact setcc_answers hop (written_ok h) hhost
  · next hop => exact cmovcc_answers hop (written_ok h) hhost
  · next hop => exact cdq_answers hop (written_ok h) hhost
  · next hop => exact transfer_answers hop (written_ok h) hhost
  · next hop => exact stack_answers hop (written_ok h) hhost
  · next hop => exact plain_answers hop (written_ok h)
  · next hop => exact floatMemory_answers hop (written_ok h) hhost
  · next hop => exact floatStack_answers hop (written_ok h)

theorem forHost_ok {j : Instruction} (h : forHost mode j = .ok i) :
    i = j ∧ (i.rex.needed = true → mode.wide = true) := by
  unfold forHost at h
  split at h
  · cases h
  · next hno =>
    cases h
    refine ⟨rfl, fun hn => ?_⟩
    simpa [hn] using hno

/-- An instruction is written if the family of the request has one, and the host can run it. -/
theorem encode_eq_some_iff : Encoding.encode mode r = .ok (some i) ↔
    family mode r = some (.ok (some i)) ∧ (i.rex.needed = true → mode.wide = true) := by
  constructor
  · intro h
    unfold Encoding.encode at h
    split at h
    · cases h
    · cases h
    · cases h
    · next j hfamily =>
      split at h
      · cases h
      · next hj =>
        cases h
        obtain ⟨rfl, hhost⟩ := forHost_ok hj
        exact ⟨hfamily, hhost⟩
  · rintro ⟨hfamily, hhost⟩
    have hj : forHost mode i = .ok i := by
      rw [forHost, if_neg]
      simpa using hhost
    simp only [Encoding.encode, hfamily, hj]

theorem encode_eq_none_iff :
    Encoding.encode mode r = .ok none ↔ family mode r = some (.ok none) := by
  constructor
  · intro h
    unfold Encoding.encode at h
    split at h
    · cases h
    · cases h
    · next hfamily => exact hfamily
    · split at h <;> cases h
  · intro hfamily
    simp only [Encoding.encode, hfamily]

theorem encode_answers (h : Encoding.encode mode r = .ok (some i)) : Answers mode r i := by
  obtain ⟨hfamily, hhost⟩ := encode_eq_some_iff.mp h
  exact family_answers hfamily hhost

theorem written_ne_none {x : Except Rejection Instruction} :
    some (do return some (← x)) ≠ some (Except.ok (none : Option Instruction)) := by
  cases x with
  | error e => exact fun h => nomatch h
  | ok i => exact fun h => nomatch h

theorem isIdle_of_mov (hop : r.op = .mov) (h : mov mode r = .ok none) : r.IsIdle := by
  obtain ⟨op, width, cond, dst, src, aux⟩ := r
  rw [mov, bind_eq_ok] at h
  obtain ⟨s, -, h⟩ := h
  dsimp only at h
  split at h
  · split at h
    · next hsame =>
      obtain ⟨hsame, -⟩ := Bool.and_eq_true_iff.mp hsame
      obtain rfl := of_decide_eq_true hsame
      exact ⟨hop, rfl, rfl⟩
    · obtain ⟨j, -, h⟩ := bind_eq_ok.mp h
      cases h
  -- all other moves are refused or have an instruction
  all_goals repeat' split at h
  all_goals first
    | cases h
    | (obtain ⟨j, -, h⟩ := bind_eq_ok.mp h; cases h)

/-- The only request that is accepted and comes to no instruction. -/
theorem isIdle_of_encode_eq_none (h : Encoding.encode mode r = .ok none) : r.IsIdle := by
  have hfamily := encode_eq_none_iff.mp h
  unfold family at hfamily
  split at hfamily
  case h_4 hop => exact isIdle_of_mov hop (Option.some.inj hfamily)
  all_goals exact absurd hfamily (by first | exact written_ne_none | exact fun h => nomatch h)

/-- Whatever bytes come after an instruction that was written for a request, the processor reads
the instruction only, and takes it for what was asked. -/
theorem decode_encode (mode : AddressingMode) (r : Request) (i : Instruction)
    (h : Encoding.encode mode r = .ok (some i)) :
    ∃ d, Asked mode r d ∧ ∀ tail, decode mode.wide (i.bytes ++ tail) = some (d, tail) := by
  unfold Encoding.encode at h
  split at h
  · cases h
  · cases h
  · cases h
  · next j hfamily =>
    split at h
    · cases h
    · next hj =>
      cases h
      obtain ⟨rfl, hhost⟩ := forHost_ok hj
      exact family_answers hfamily hhost

/-- A byte register that needs a mark is compared with a field of the state, whose base needs a
SIB byte. -/
theorem decode_encode_byte_of_state :
    ∃ i, Encoding.encode (.baseRelative ⟨.r12, by decide⟩ 0x7000)
        { op := .alu .cmp, width := 8, dst := .state 0x7010, src := .reg (.gpr .si) } =
          .ok (some i) ∧
      i.bytes = [0x41, 0x38, 0xb4, 0x24, 0x10, 0, 0, 0] ∧
      ∃ d, Asked (.baseRelative ⟨.r12, by decide⟩ 0x7000)
        { op := .alu .cmp, width := 8, dst := .state 0x7010, src := .reg (.gpr .si) } d ∧
        ∀ tail, decode true (i.bytes ++ tail) = some (d, tail) :=
  ⟨_, rfl, by decide, decode_encode _ _ _ rfl⟩

end Processor

end HostCode
