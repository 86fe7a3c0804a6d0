import HostCode.Proofs.Processor.Forms

/-! # Integer instructions are understood

For each family of integer instructions, the processor decodes what was written to the request
that it was written for. A family has a few forms, and each of them a row in the opcode map.
-/

namespace HostCode.Processor

open Encoding

variable {mode : AddressingMode} {r : Request} {i : Instruction} {s : Size} {wide memory : Bool}
  {field : BitVec 3}

theorem sizeOf_ok (h : Encoding.sizeOf r = .ok s) : Size.ofBits? r.width = some s := by
  unfold Encoding.sizeOf at h
  split at h
  · next hs =>
    cases h
    exact hs
  · cases h

theorem wideSizeOf_ok (h : wideSizeOf r = .ok s) : Size.ofBits? r.width = some s ∧ s ≠ .byte := by
  unfold wideSizeOf at h
  split at h
  · cases h
  · cases h
  · next hne hs =>
    cases h
    exact ⟨hs, hne⟩

theorem addImmediate_ok {x : Except Rejection Instruction} {t : Size} {v : Int64}
    (h : (do return addImmediate (← x) t v) = .ok i) :
    ∃ j, x = .ok j ∧ i = { j with imm := some ⟨t, v⟩ } := by
  obtain ⟨j, hj, h⟩ := bind_eq_ok.mp h
  exact ⟨j, hj, (Except.ok.inj h).symm⟩

theorem sized_bare (s : Size) (opcode : List UInt8) {imm : Option Immediate} :
    Sized s opcode { bare s opcode with imm } := by
  have hw : (sizeRex s).w = decide (s = .qword) := by rw [sizeRex_eq]
  exact sized_of hw

theorem bare_answers {opcode : List UInt8} {e : Entry} {os : List (Operand × Size)}
    {imm : Option Immediate} (hi : i = { bare s opcode with imm })
    (hhost : i.rex.needed = true → mode.wide = true)
    (ho : (isOpcode opcode && !hasModRM opcode) = true)
    (he : ∀ v, s = .byte ∨ v = s → lookup mode.wide v opcode none = some e)
    (hr : Concerns mode.wide r os e) (hc : e.args.findSome? Arg.constantSize = imm.map (·.size))
    (hargs : List.Forall₂ (Finds mode i) os e.args) : Answers mode r i := by
  subst hi
  exact (sized_bare s opcode).answers hhost rfl ho he hr hc hargs

/-! ## Arithmetic -/

theorem listed_alu_rm (a : Alu) : Listed wide memory s (opcodeFor s (aluOpcode a 1)) field
    { op := .alu a, width := some s, args := [.rm s, .reg s] } := by
  apply Listed.pair
  · intro s
    cases a <;> cases s <;> rfl
  · cases a <;> exact fun _ _ => rfl
  · intro v m
    cases a <;> cases v <;> rfl

theorem listed_alu_reg (a : Alu) : Listed wide memory s (opcodeFor s (aluOpcode a 3)) field
    { op := .alu a, width := some s, args := [.reg s, .rm s] } := by
  apply Listed.pair
  · intro s
    cases a <;> cases s <;> rfl
  · cases a <;> exact fun _ _ => rfl
  · intro v m
    cases a <;> cases v <;> rfl

theorem listed_alu_byte (a : Alu) : Listed wide memory .byte [0x80] (aluCode a)
    { op := .alu a, width := some .byte, args := [.rm .byte, .constant .byte] } where
  known := rfl
  entry v m _ _ := by cases a <;> rfl

theorem listed_alu_short (a : Alu) (hs : s ≠ .byte) : Listed wide memory s [0x83] (aluCode a)
    { op := .alu a, width := some s, args := [.rm s, .constant .byte] } :=
  .wide hs rfl fun _ => by cases a <;> rfl

theorem listed_alu_full (a : Alu) (hs : s ≠ .byte) : Listed wide memory s [0x81] (aluCode a)
    { op := .alu a, width := some s, args := [.rm s, .constant s.immediate] } :=
  .wide hs rfl fun _ => by cases a <;> rfl

theorem lookup_alu_accumulator (a : Alu) (hs : s ≠ .byte) (v : Size) (hv : s = .byte ∨ v = s) :
    lookup wide v [aluOpcode a 5] none =
      some { op := .alu a, width := some s, args := [.accumulator s, .constant s.immediate] } := by
  obtain rfl := hv.resolve_left hs
  cases a <;> rfl

theorem alu_answers {a : Alu} (hop : r.op = .alu a) (h : alu mode a r = .ok i)
    (hhost : i.rex.needed = true → mode.wide = true) : Answers mode r i := by
  obtain ⟨op, width, cond, dst, src, aux⟩ := r
  obtain rfl : op = .alu a := hop
  rw [alu, bind_eq_ok] at h
  obtain ⟨s, hs, h⟩ := h
  replace hs := sizeOf_ok hs
  have hr (args) : Concerns mode.wide ⟨.alu a, width, cond, dst, src, aux⟩ [(dst, s), (src, s)]
      { op := .alu a, width := some s, args } :=
    ⟨rfl, hs.symm, rfl, by simp only [readsOf, sizeOf?, hs, Option.getD_some]⟩
  dsimp only at h
  split at h
  · split at h
    · exact withRegister_answers h (withRegister_imm h) hhost (fun _ => listed_alu_rm a) (hr _) rfl
        fun hrm hreg => .cons hrm (.cons hreg .nil)
    · cases h
  · -- bytes, short constants, the accumulator and all the rest have a form each
    split at h
    · cases h
    split at h
    · next hb =>
      subst hb
      obtain ⟨j, hj, rfl⟩ := addImmediate_ok h
      exact withExtension_answers hj rfl hhost (listed_alu_byte a) (hr _) rfl
        fun hrm => .cons hrm (.cons (finds_constant rfl) .nil)
    next hb =>
    split at h
    · obtain ⟨j, hj, rfl⟩ := addImmediate_ok h
      exact withExtension_answers hj rfl hhost (listed_alu_short a hb) (hr _) rfl
        fun hrm => .cons hrm (.cons (finds_constant rfl) .nil)
    split at h
    · next hax =>
      subst hax
      cases h
      exact bare_answers rfl hhost (by cases a <;> rfl) (lookup_alu_accumulator a hb) (hr _) rfl
        (.cons finds_accumulator (.cons (finds_constant rfl) .nil))
    · obtain ⟨j, hj, rfl⟩ := addImmediate_ok h
      exact withExtension_answers hj rfl hhost (listed_alu_full a hb) (hr _) rfl
        fun hrm => .cons hrm (.cons (finds_constant rfl) .nil)
  · split at h
    · split at h
      · exact withRegister_answers h (withRegister_imm h) hhost (fun _ => listed_alu_reg a) (hr _)
          rfl fun hrm hreg => .cons hreg (.cons hrm .nil)
      · cases h
    · cases h

/-! ## Moves -/

theorem listed_mov_rm : Listed wide memory s (opcodeFor s 0x89) field
    { op := .mov, width := some s, args := [.rm s, .reg s] } := by
  apply Listed.pair
  · intro s
    cases s <;> rfl
  · exact fun _ _ => rfl
  · intro v m
    cases v <;> rfl

theorem listed_mov_reg : Listed wide memory s (opcodeFor s 0x8b) field
    { op := .mov, width := some s, args := [.reg s, .rm s] } := by
  apply Listed.pair
  · intro s
    cases s <;> rfl
  · exact fun _ _ => rfl
  · intro v m
    cases v <;> rfl

theorem listed_mov_constant : Listed wide memory s (opcodeFor s 0xc7) 0
    { op := .mov, width := some s, args := [.rm s, .constant s.immediate] } := by
  apply Listed.pair
  · intro s
    cases s <;> rfl
  · exact fun _ _ => rfl
  · intro v m
    cases v <;> rfl

/-- The register of a move from a constant is a part of the opcode. -/
def embeddedOpcode (s : Size) (g : Gpr) : UInt8 :=
  (if s = .byte then 0xb0 else 0xb8) + UInt8.ofNat g.low.toNat

theorem extract_embeddedOpcode (s : Size) (g : Gpr) :
    (embeddedOpcode s g).toBitVec.extractLsb' 0 3 = g.low := by
  unfold embeddedOpcode
  split <;> cases g <;> rfl

theorem lookup_mov_embedded (g : Gpr) (v : Size) (hv : s = .byte ∨ v = s) :
    lookup wide v [embeddedOpcode s g] none =
      some { op := .mov, width := some s, args := [.embedded s, .constant s] } := by
  rcases hv with rfl | rfl
  · cases g <;> rfl
  · cases v <;> cases g <;> rfl

theorem embedded_rex (mode : AddressingMode) (s : Size) (g : Gpr) :
    ((sizeRex s).merge { b := g.extended }).merge
        (if s = .byte then byteRex mode (.gpr g) else {}) =
      ⟨s = .qword, false, false, g.extended, s = .byte && (byteRex mode (.gpr g)).bare⟩ := by
  rw [sizeRex_eq, byteRex_eq]
  by_cases hb : s = .byte <;> simp [Rex.merge, hb]

theorem embedded_answers {g : Gpr} {v : Int64} {bits : UInt8}
    (hi : i = ⟨s = .word,
      ⟨s = .qword, false, false, g.extended, s = .byte && (byteRex mode (.gpr g)).bare⟩,
      [embeddedOpcode s g], none, some ⟨s, v⟩⟩)
    (hhost : i.rex.needed = true → mode.wide = true)
    (hr : Concerns mode.wide r [(.reg (.gpr g), s), (.imm v bits, s)]
      { op := .mov, width := some s, args := [.embedded s, .constant s] }) :
    Answers mode r i := by
  subst hi
  refine (sized_of rfl).answers hhost rfl ?_ (lookup_mov_embedded g) hr rfl
    (.cons ?_ (.cons (finds_constant rfl) .nil))
  · cases s <;> cases g <;> rfl
  · refine finds_embedded rfl (extract_embeddedOpcode s g) rfl hhost fun hb hbare => ?_
    have hbare' : (byteRex mode (.gpr g)).bare = true := hbare
    simp [hb, hbare']

theorem mov_answers (hop : r.op = .mov) (h : mov mode r = .ok (some i))
    (hhost : i.rex.needed = true → mode.wide = true) : Answers mode r i := by
  obtain ⟨op, width, cond, dst, src, aux⟩ := r
  obtain rfl : op = .mov := hop
  rw [mov, bind_eq_ok] at h
  obtain ⟨s, hs, h⟩ := h
  replace hs := sizeOf_ok hs
  have hr (args) : Concerns mode.wide ⟨.mov, width, cond, dst, src, aux⟩ [(dst, s), (src, s)]
      { op := .mov, width := some s, args } :=
    ⟨rfl, hs.symm, rfl, by simp only [readsOf, sizeOf?, hs, Option.getD_some]⟩
  dsimp only at h
  split at h
  · split at h
    · -- a move to itself writes nothing
      obtain ⟨_, -, h⟩ := bind_eq_ok.mp h
      cases h
    · obtain ⟨j, hj, h⟩ := bind_eq_ok.mp h
      cases h
      exact withRegister_answers hj (withRegister_imm hj) hhost (fun _ => listed_mov_rm) (hr _) rfl
        fun hrm hreg => .cons hrm (.cons hreg .nil)
  · split at h
    · next hq =>
      obtain ⟨rfl, -⟩ : s = .qword ∧ _ := by simpa using hq
      obtain ⟨j, hj, h⟩ := bind_eq_ok.mp h
      cases h
      exact withExtension_answers hj rfl hhost listed_mov_constant (hr _) rfl
        fun hrm => .cons hrm (.cons (finds_constant rfl) .nil)
    split at h
    · cases h
    obtain ⟨g, hg, h⟩ := bind_eq_ok.mp h
    obtain rfl := generalPurpose_ok hg
    simp only [bare, embedded_rex] at h
    cases h
    exact embedded_answers rfl hhost (hr _)
  · split at h
    · obtain ⟨j, hj, h⟩ := bind_eq_ok.mp h
      cases h
      exact withRegister_answers hj (withRegister_imm hj) hhost (fun _ => listed_mov_reg) (hr _) rfl
        fun hrm hreg => .cons hreg (.cons hrm .nil)
    · cases h
  · split at h
    · obtain ⟨j, hj, h⟩ := bind_eq_ok.mp h
      cases h
      exact withRegister_answers hj (withRegister_imm hj) hhost (fun _ => listed_mov_rm) (hr _) rfl
        fun hrm hreg => .cons hrm (.cons hreg .nil)
    · cases h
  · split at h
    · cases h
    · obtain ⟨j, hj, h⟩ := bind_eq_ok.mp h
      cases h
      exact withExtension_answers hj rfl hhost listed_mov_constant (hr _) rfl
        fun hrm => .cons hrm (.cons (finds_constant rfl) .nil)
  · cases h

theorem lookup_movabs_load (v : Size) (hv : s = .byte ∨ v = s) :
    lookup wide v (opcodeFor s 0xa1) none = some {
      op := .movabs, width := some s, args := [.accumulator s, .offset (hostSize wide) s] } := by
  rcases hv with rfl | rfl
  · rfl
  · cases v <;> rfl

theorem lookup_movabs_store (v : Size) (hv : s = .byte ∨ v = s) :
    lookup wide v (opcodeFor s 0xa3) none = some {
      op := .movabs, width := some s, args := [.offset (hostSize wide) s, .accumulator s] } := by
  rcases hv with rfl | rfl
  · rfl
  · cases v <;> rfl

theorem movabs_finish_ok {opcode : UInt8} {a : HostAddress}
    (h : movabs.finish mode s opcode a = .ok i) :
    i = { bare s (opcodeFor s opcode) with imm := some ⟨hostSize mode.wide, a.toInt64⟩ } ∧
      a.toNat < 2 ^ (hostSize mode.wide).bits := by
  simp only [movabs.finish] at h
  split at h
  · next hw =>
    cases h
    rw [hw]
    exact ⟨rfl, a.toNat_lt⟩
  · next hw =>
    split at h
    · next ha =>
      cases h
      rw [Bool.eq_false_iff.mpr hw]
      exact ⟨rfl, ha⟩
    · cases h

theorem movabs_answers (hop : r.op = .movabs) (h : movabs mode r = .ok i)
    (hhost : i.rex.needed = true → mode.wide = true) : Answers mode r i := by
  obtain ⟨op, width, cond, dst, src, aux⟩ := r
  obtain rfl : op = .movabs := hop
  rw [movabs, bind_eq_ok] at h
  obtain ⟨s, hs, h⟩ := h
  replace hs := sizeOf_ok hs
  have hr (args) : Concerns mode.wide ⟨.movabs, width, cond, dst, src, aux⟩ [(dst, s), (src, s)]
      { op := .movabs, width := some s, args } :=
    ⟨rfl, hs.symm, rfl, by simp only [readsOf, sizeOf?, hs, Option.getD_some]⟩
  dsimp only at h
  split at h
  · obtain ⟨rfl, ha⟩ := movabs_finish_ok h
    exact bare_answers rfl hhost (by cases s <;> rfl) lookup_movabs_load (hr _) rfl
      (.cons finds_accumulator (.cons (finds_offset rfl ha) .nil))
  · obtain ⟨rfl, ha⟩ := movabs_finish_ok h
    exact bare_answers rfl hhost (by cases s <;> rfl) lookup_movabs_store (hr _) rfl
      (.cons (finds_offset rfl ha) (.cons finds_accumulator .nil))
  · cases h

/-! ## Tests -/

theorem listed_test_rm : Listed wide memory s (opcodeFor s 0x85) field
    { op := .test, width := some s, args := [.rm s, .reg s] } := by
  apply Listed.pair
  · intro s
    cases s <;> rfl
  · exact fun _ _ => rfl
  · intro v m
    cases v <;> rfl

theorem listed_test_constant : Listed wide memory s (opcodeFor s 0xf7) 0
    { op := .test, width := some s, args := [.rm s, .constant s.immediate] } := by
  apply Listed.pair
  · intro s
    cases s <;> rfl
  · exact fun _ _ => rfl
  · intro v m
    cases v <;> rfl

theorem lookup_test_accumulator (hs : s ≠ .byte) (v : Size) (hv : s = .byte ∨ v = s) :
    lookup wide v [0xa9] none =
      some { op := .test, width := some s, args := [.accumulator s, .constant s.immediate] } := by
  obtain rfl := hv.resolve_left hs
  rfl

theorem test_answers (hop : r.op = .test) (h : test mode r = .ok i)
    (hhost : i.rex.needed = true → mode.wide = true) : Answers mode r i := by
  obtain ⟨op, width, cond, dst, src, aux⟩ := r
  obtain rfl : op = .test := hop
  rw [test, bind_eq_ok] at h
  obtain ⟨s, hs, h⟩ := h
  replace hs := sizeOf_ok hs
  have hr (args) : Concerns mode.wide ⟨.test, width, cond, dst, src, aux⟩ [(dst, s), (src, s)]
      { op := .test, width := some s, args } :=
    ⟨rfl, hs.symm, rfl, by simp only [readsOf, sizeOf?, hs, Option.getD_some]⟩
  dsimp only at h
  split at h
  · cases h
  split at h
  · exact withRegister_answers h (withRegister_imm h) hhost (fun _ => listed_test_rm) (hr _) rfl
      fun hrm hreg => .cons hrm (.cons hreg .nil)
  · split at h
    · cases h
    split at h
    · next hax =>
      obtain ⟨hb, rfl⟩ : s ≠ .byte ∧ dst = .reg (.gpr .ax) := by simpa using hax
      cases h
      exact bare_answers rfl hhost rfl (lookup_test_accumulator hb) (hr _) rfl
        (.cons finds_accumulator (.cons (finds_constant rfl) .nil))
    · obtain ⟨j, hj, rfl⟩ := addImmediate_ok h
      exact withExtension_answers hj rfl hhost listed_test_constant (hr _) rfl
        fun hrm => .cons hrm (.cons (finds_constant rfl) .nil)
  · cases h

/-! ## One operand -/

theorem listed_unary (u : Unary) : Listed wide memory s (opcodeFor s 0xf7) (unaryCode u)
    { op := .unary u, width := some s, args := [.rm s] } := by
  apply Listed.pair
  · intro s
    cases s <;> rfl
  · cases u <;> exact fun _ _ => rfl
  · intro v m
    cases u <;> cases v <;> rfl

theorem listed_count (c : Count) : Listed wide memory s (opcodeFor s 0xff) (countCode c)
    { op := .count c, width := some s, args := [.rm s] } := by
  apply Listed.pair
  · intro s
    cases s <;> rfl
  · cases c <;> exact fun _ _ => rfl
  · intro v m
    cases c <;> cases v <;> rfl

theorem listed_imul_single : Listed wide memory s (opcodeFor s 0xf7) 5
    { op := .imul, width := some s, args := [.rm s] } := by
  apply Listed.pair
  · intro s
    cases s <;> rfl
  · exact fun _ _ => rfl
  · intro v m
    cases v <;> rfl

theorem single_answers {opcode : UInt8} {ext : BitVec 3} (h : single mode opcode ext r = .ok i)
    (hhost : i.rex.needed = true → mode.wide = true)
    (he : ∀ s, Listed mode.wide r.dst.isMemory s (opcodeFor s opcode) ext
      { op := r.op, width := some s, args := [.rm s] })
    (hr : ∀ s, Size.ofBits? r.width = some s → r.src.isNone = true →
      Concerns mode.wide r [(r.dst, s)] { op := r.op, width := some s, args := [.rm s] }) :
    Answers mode r i := by
  obtain ⟨s, hs, h⟩ := bind_eq_ok.mp h
  split at h
  · next hsrc =>
    exact withExtension_answers h (withExtension_imm h) hhost (he s)
      (hr s (sizeOf_ok hs) (Bool.and_eq_true_iff.mp hsrc).2) rfl fun hrm => .cons hrm .nil
  · cases h

theorem unary_answers {u : Unary} (hop : r.op = .unary u)
    (h : single mode 0xf7 (unaryCode u) r = .ok i)
    (hhost : i.rex.needed = true → mode.wide = true) : Answers mode r i := by
  obtain ⟨op, width, cond, dst, src, aux⟩ := r
  obtain rfl : op = .unary u := hop
  exact single_answers h hhost (fun _ => listed_unary u) fun s hs _ =>
    ⟨rfl, hs.symm, rfl, by simp only [readsOf, sizeOf?, hs, Option.getD_some]⟩

theorem count_answers {c : Count} (hop : r.op = .count c)
    (h : single mode 0xff (countCode c) r = .ok i)
    (hhost : i.rex.needed = true → mode.wide = true) : Answers mode r i := by
  obtain ⟨op, width, cond, dst, src, aux⟩ := r
  obtain rfl : op = .count c := hop
  exact single_answers h hhost (fun _ => listed_count c) fun s hs _ =>
    ⟨rfl, hs.symm, rfl, by simp only [readsOf, sizeOf?, hs, Option.getD_some]⟩

/-! ## Products -/

theorem listed_imul_reg (hs : s ≠ .byte) : Listed wide memory s [0x0f, 0xaf] field
    { op := .imul, width := some s, args := [.reg s, .rm s] } :=
  .wide hs rfl fun _ => rfl

theorem listed_imul_short (hs : s ≠ .byte) : Listed wide memory s [0x6b] field
    { op := .imul, width := some s, args := [.reg s, .rm s, .constant .byte] } :=
  .wide hs rfl fun _ => rfl

theorem listed_imul_full (hs : s ≠ .byte) : Listed wide memory s [0x69] field
    { op := .imul, width := some s, args := [.reg s, .rm s, .constant s.immediate] } :=
  .wide hs rfl fun _ => rfl

theorem imul_answers (hop : r.op = .imul) (h : imul mode r = .ok i)
    (hhost : i.rex.needed = true → mode.wide = true) : Answers mode r i := by
  obtain ⟨op, width, cond, dst, src, aux⟩ := r
  obtain rfl : op = .imul := hop
  unfold imul at h
  split at h
  · exact single_answers h hhost (fun _ => listed_imul_single) fun s hs hsrc =>
      ⟨rfl, hs.symm, rfl, by
        simp only at hsrc
        simp only [readsOf, sizeOf?, hs, Option.getD_some, hsrc, if_true]⟩
  next hsrc =>
  rw [bind_eq_ok] at h
  obtain ⟨s, hs, h⟩ := h
  obtain ⟨hs, hb⟩ := wideSizeOf_ok hs
  have hsrc' : src.isNone = false := Bool.eq_false_iff.mpr hsrc
  have hr (args) (haux : aux.isNone = false) : Concerns mode.wide
      ⟨.imul, width, cond, dst, src, aux⟩ [(dst, s), (src, s), (aux, s)]
      { op := .imul, width := some s, args } := by
    refine ⟨rfl, hs.symm, rfl, ?_⟩
    simp only [readsOf, sizeOf?, hs, Option.getD_some, hsrc', haux]
    rfl
  dsimp only at h
  split at h
  · split at h
    · cases h
    split at h
    · refine withRegister_answers h (withRegister_imm h) hhost (fun _ => listed_imul_reg hb)
        ⟨rfl, hs.symm, rfl, ?_⟩ rfl fun hrm hreg => .cons hreg (.cons hrm .nil)
      simp only [readsOf, sizeOf?, hs, Option.getD_some, hsrc']
      rfl
    · split at h
      · obtain ⟨j, hj, rfl⟩ := addImmediate_ok h
        exact withRegister_answers hj rfl hhost (fun _ => listed_imul_short hb) (hr _ rfl) rfl
          fun hrm hreg => .cons hreg (.cons hrm (.cons (finds_constant rfl) .nil))
      · obtain ⟨j, hj, rfl⟩ := addImmediate_ok h
        exact withRegister_answers hj rfl hhost (fun _ => listed_imul_full hb) (hr _ rfl) rfl
          fun hrm hreg => .cons hreg (.cons hrm (.cons (finds_constant rfl) .nil))
    · cases h
  · cases h

/-! ## Shifts -/

theorem listed_shift_constant (o : Shift) : Listed wide memory s (opcodeFor s 0xc1) (shiftCode o)
    { op := .shift o, width := some s, args := [.rm s, .constant .byte] } := by
  apply Listed.pair
  · intro s
    cases s <;> rfl
  · cases o <;> exact fun _ _ => rfl
  · intro v m
    cases o <;> cases v <;> rfl

theorem listed_shift_counter (o : Shift) : Listed wide memory s (opcodeFor s 0xd3) (shiftCode o)
    { op := .shift o, width := some s, args := [.rm s, .counter] } := by
  apply Listed.pair
  · intro s
    cases s <;> rfl
  · cases o <;> exact fun _ _ => rfl
  · intro v m
    cases o <;> cases v <;> rfl

theorem shift_answers {o : Shift} (hop : r.op = .shift o) (h : shift mode o r = .ok i)
    (hhost : i.rex.needed = true → mode.wide = true) : Answers mode r i := by
  obtain ⟨op, width, cond, dst, src, aux⟩ := r
  obtain rfl : op = .shift o := hop
  rw [shift, bind_eq_ok] at h
  obtain ⟨s, hs, h⟩ := h
  replace hs := sizeOf_ok hs
  have hr (args) : Concerns mode.wide ⟨.shift o, width, cond, dst, src, aux⟩
      [(dst, s), (src, .byte)] { op := .shift o, width := some s, args } :=
    ⟨rfl, hs.symm, rfl, by simp only [readsOf, sizeOf?, hs, Option.getD_some]⟩
  dsimp only at h
  split at h
  · cases h
  cases src with
  | imm v bits =>
    obtain ⟨j, hj, rfl⟩ := addImmediate_ok h
    exact withExtension_answers hj rfl hhost (listed_shift_constant o) (hr _) rfl
      fun hrm => .cons hrm (.cons (finds_constant rfl) .nil)
  | reg q =>
    cases q with
    | gpr g =>
      cases g with
      | cx =>
        exact withExtension_answers h (withExtension_imm h) hhost (listed_shift_counter o) (hr _)
          rfl fun hrm => .cons hrm (.cons finds_counter .nil)
      | _ => cases h
    | _ => cases h
  | _ => cases h

theorem listed_doubleShift_constant (o : DoubleShift) (hs : s ≠ .byte) :
    Listed wide memory s [0x0f, doubleShiftOpcode o] field
      { op := .doubleShift o, width := some s, args := [.rm s, .reg s, .constant .byte] } :=
  .wide hs (by cases o <;> rfl) fun _ => by cases o <;> rfl

theorem listed_doubleShift_counter (o : DoubleShift) (hs : s ≠ .byte) :
    Listed wide memory s [0x0f, doubleShiftOpcode o + 1] field
      { op := .doubleShift o, width := some s, args := [.rm s, .reg s, .counter] } :=
  .wide hs (by cases o <;> rfl) fun _ => by cases o <;> rfl

theorem doubleShift_answers {o : DoubleShift} (hop : r.op = .doubleShift o)
    (h : doubleShift mode o r = .ok i) (hhost : i.rex.needed = true → mode.wide = true) :
    Answers mode r i := by
  obtain ⟨op, width, cond, dst, src, aux⟩ := r
  obtain rfl : op = .doubleShift o := hop
  rw [doubleShift, bind_eq_ok] at h
  obtain ⟨s, hs, h⟩ := h
  obtain ⟨hs, hb⟩ := wideSizeOf_ok hs
  have hr (args) : Concerns mode.wide ⟨.doubleShift o, width, cond, dst, src, aux⟩
      [(dst, s), (src, s), (aux, .byte)] { op := .doubleShift o, width := some s, args } :=
    ⟨rfl, hs.symm, rfl, by simp only [readsOf, sizeOf?, hs, Option.getD_some]⟩
  dsimp only at h
  split at h
  · split at h
    · cases h
    cases aux with
    | imm v bits =>
      obtain ⟨j, hj, rfl⟩ := addImmediate_ok h
      exact withRegister_answers hj rfl hhost (fun _ => listed_doubleShift_constant o hb) (hr _) rfl
        fun hrm hreg => .cons hrm (.cons hreg (.cons (finds_constant rfl) .nil))
    | reg q =>
      cases q with
      | gpr g =>
        cases g with
        | cx =>
          exact withRegister_answers h (withRegister_imm h) hhost
            (fun _ => listed_doubleShift_counter o hb) (hr _) rfl
            fun hrm hreg => .cons hrm (.cons hreg (.cons finds_counter .nil))
        | _ => cases h
      | _ => cases h
    | _ => cases h
  · cases h

end HostCode.Processor
