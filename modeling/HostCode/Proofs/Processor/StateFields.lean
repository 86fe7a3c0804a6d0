import HostCode.Proofs.Processor.Jumps
import HostCode.Proofs.Processor.RoundTrip

/-! # Fields of the state

A field of the emulated processor's state is given by its address. Whether a request for it has
an encoding, and how long that is, can be told without the address: the address decides only
whether its distance from the state base fits, and what the displacement is.
-/

namespace HostCode

def Operand.redirect (a a' : HostAddress) : Operand → Operand
  | .state b => .state (if b = a then a' else b)
  | o => o

def Request.redirect (a a' : HostAddress) (r : Request) : Request :=
  { r with dst := r.dst.redirect a a', src := r.src.redirect a a', aux := r.aux.redirect a a' }

@[simp] theorem Operand.redirect_state (a a' : HostAddress) :
    redirect a a' (.state a) = .state a' := by
  simp [redirect]

@[simp] theorem Operand.redirect_reg (a a' : HostAddress) (q : Register) :
    redirect a a' (.reg q) = .reg q := rfl

@[simp] theorem Operand.redirect_imm (a a' : HostAddress) (v : Int64) (bits : UInt8) :
    redirect a a' (.imm v bits) = .imm v bits := rfl

theorem Operand.redirect_self (a : HostAddress) (o : Operand) : o.redirect a a = o := by
  cases o with
  | state b =>
    by_cases hb : b = a <;> simp [redirect, hb]
  | _ => rfl

theorem Request.redirect_self (a : HostAddress) (r : Request) : r.redirect a a = r := by
  simp only [redirect, Operand.redirect_self]

@[simp] theorem Operand.isRM_state (a : HostAddress) : (Operand.state a).isRM = true := rfl

@[simp] theorem Operand.isMemory_state (a : HostAddress) : (Operand.state a).isMemory = true := rfl

theorem Rex.merge_right_comm (p q t : Rex) : (p.merge q).merge t = (p.merge t).merge q := by
  simp only [merge, Bool.or_right_comm]

namespace Processor

open Encoding

def fill (j : Instruction) (field : BitVec 3) (m : RM) : Instruction :=
  { j with rex := j.rex.merge m.rex, modrm := some (field, m) }

/-- As a function of the address of a field, what is asked for is refused throughout, or it is
always the same instruction with the field in it. -/
def Resolves {α : Type} (mode : AddressingMode) (wrap : Instruction → α)
    (x : HostAddress → Except Rejection α) : Prop :=
  (∀ a, ∃ e, x a = .error e) ∨
    ∃ j field, ∀ a, x a = (RM.state mode a).map fun m => wrap (fill j field m)

section Blocks

variable {α β : Type} {mode : AddressingMode} {wrap : Instruction → α}
  {x y : HostAddress → Except Rejection α} {s : Size} {opcode : List UInt8} {q : Register}
  {field : BitVec 3}

theorem map_eq_bind {ε : Type} (x : Except ε α) (g : α → β) :
    x.map g = x >>= fun u => pure (g u) := by
  cases x <;> rfl

theorem resolves_unsupported {r : HostAddress → Request} :
    Resolves mode wrap fun a => unsupported (r a) := .inl fun _ => ⟨_, rfl⟩

theorem Resolves.bind (z : Except Rejection β) {k : HostAddress → β → Except Rejection α}
    (h : ∀ u, Resolves mode wrap fun a => k a u) : Resolves mode wrap fun a => z >>= k a := by
  cases z with
  | error e => exact .inl fun a => ⟨e, rfl⟩
  | ok u => exact h u

theorem Resolves.ite (c : Prop) [Decidable c] (hx : Resolves mode wrap x)
    (hy : Resolves mode wrap y) : Resolves mode wrap fun a => if c then x a else y a := by
  by_cases hc : c
  · simpa only [if_pos hc] using hx
  · simpa only [if_neg hc] using hy

theorem Resolves.map {wrap' : Instruction → β} {g : α → β} (h : Resolves mode wrap x)
    (hg : ∀ j, ∃ j', ∀ field m, g (wrap (fill j field m)) = wrap' (fill j' field m)) :
    Resolves mode wrap' fun a => do return g (← x a) := by
  obtain h | ⟨j, field, h⟩ := h
  · refine .inl fun a => ?_
    obtain ⟨e, he⟩ := h a
    exact ⟨e, by simp only [he]; rfl⟩
  · obtain ⟨j', hj'⟩ := hg j
    refine .inr ⟨j', field, fun a => ?_⟩
    simp only [h, ← hj']
    cases RM.state mode a <;> rfl

theorem Resolves.written {x : HostAddress → Except Rejection Instruction}
    (h : Resolves mode id x) : Resolves mode some fun a => do return some (← x a) :=
  h.map fun j => ⟨j, fun _ _ => rfl⟩

theorem Resolves.addImmediate {x : HostAddress → Except Rejection Instruction}
    (h : Resolves mode id x) (t : Size) (v : Int64) :
    Resolves mode id fun a => do return Encoding.addImmediate (← x a) t v :=
  h.map fun j => ⟨{ j with imm := some ⟨t, v⟩ }, fun _ _ => rfl⟩

theorem Resolves.mark {x : HostAddress → Except Rejection Instruction} (h : Resolves mode id x)
    (p : Rex) :
    Resolves mode id fun a => do
      let i ← x a
      return { i with rex := i.rex.merge p } := by
  refine h.map fun j => ⟨{ j with rex := j.rex.merge p }, fun field m => ?_⟩
  simp only [id, fill, Rex.merge_right_comm]

theorem resolves_withRegister :
    Resolves mode id fun a => withRegister mode s opcode (.state a) q := by
  refine .bind (generalPurpose q) fun g => .inr ⟨{
    sizeByte := s = .word
    rex := ((sizeRex s).merge { r := g.extended }).merge (if s = .byte then byteRex mode q else {})
    opcode }, g.low, fun a => ?_⟩
  rw [map_eq_bind]
  simp only [fill, operandByteRex]
  congr 1
  funext m
  rw [Rex.merge_right_comm]
  by_cases hs : s = .byte <;> simp [hs, Rex.merge]

theorem resolves_withExtension :
    Resolves mode id fun a => withExtension mode s opcode (.state a) field := by
  refine .inr ⟨{ sizeByte := s = .word, rex := sizeRex s, opcode }, field, fun a => ?_⟩
  rw [map_eq_bind]
  simp only [withExtension, fill, operandByteRex]
  congr 1
  funext m
  by_cases hs : s = .byte <;> simp [hs, Rex.merge]

end Blocks

/-! ## Families -/

section Families

variable {mode : AddressingMode} {r : Request} {a : HostAddress} {field : BitVec 3}

theorem alu_resolves (o : Alu) (h : r.dst = .state a ∨ r.src = .state a) :
    Resolves mode id fun a' => alu mode o (r.redirect a a') := by
  obtain ⟨op, width, cond, dst, src, aux⟩ := r
  refine .bind (Encoding.sizeOf ⟨op, width, cond, dst, src, aux⟩) fun s => ?_
  obtain rfl | rfl := h <;> simp only [Request.redirect, Operand.redirect_state]
  · cases src with
    | reg q => exact resolves_withRegister
    | imm v bits =>
      simp only [Operand.redirect_imm, Operand.isRM_state, Bool.not_true, Bool.false_or,
        decide_eq_true_eq, reduceCtorEq, if_false]
      refine .ite (bits = 64) resolves_unsupported (.ite (s = .byte) ?_ (.ite (bits = 8) ?_ ?_))
      · exact resolves_withExtension.addImmediate .byte v
      · exact resolves_withExtension.addImmediate .byte v
      · exact resolves_withExtension.addImmediate s.immediate v
    | _ => exact resolves_unsupported
  · cases dst with
    | reg d => exact resolves_withRegister
    | _ => exact resolves_unsupported

theorem mov_resolves (h : r.dst = .state a ∨ r.src = .state a) :
    Resolves mode some fun a' => mov mode (r.redirect a a') := by
  obtain ⟨op, width, cond, dst, src, aux⟩ := r
  refine .bind (Encoding.sizeOf ⟨op, width, cond, dst, src, aux⟩) fun s => ?_
  obtain rfl | rfl := h <;> simp only [Request.redirect, Operand.redirect_state]
  · cases src with
    | reg q => exact resolves_withRegister.written
    | imm v bits =>
      simp only [Operand.redirect_imm, Operand.isMemory_state, Bool.not_true, Bool.false_or,
        decide_eq_true_eq]
      refine .ite (bits = 64) resolves_unsupported (resolves_withExtension.map fun j => ?_)
      exact ⟨{ j with imm := some ⟨s.immediate, v⟩ }, fun _ _ => rfl⟩
    | _ => exact resolves_unsupported
  · cases dst with
    | reg d => exact resolves_withRegister.written
    | _ => exact resolves_unsupported

theorem movabs_resolves (h : r.dst = .state a ∨ r.src = .state a) :
    Resolves mode id fun a' => movabs mode (r.redirect a a') := by
  obtain ⟨op, width, cond, dst, src, aux⟩ := r
  refine .bind (Encoding.sizeOf ⟨op, width, cond, dst, src, aux⟩) fun s => .inl fun a' => ?_
  obtain rfl | rfl := h <;> simp only [Request.redirect, Operand.redirect_state]
  · exact ⟨_, rfl⟩
  · split
    · contradiction
    · contradiction
    · exact ⟨_, rfl⟩

theorem test_resolves (h : r.dst = .state a ∨ r.src = .state a) :
    Resolves mode id fun a' => test mode (r.redirect a a') := by
  obtain ⟨op, width, cond, dst, src, aux⟩ := r
  refine .bind (Encoding.sizeOf ⟨op, width, cond, dst, src, aux⟩) fun s => ?_
  obtain rfl | rfl := h <;> simp only [Request.redirect, Operand.redirect_state]
  · cases src with
    | reg q => exact resolves_withRegister
    | imm v bits =>
      simp only [Operand.redirect_imm, Operand.isRM_state, Bool.not_true, reduceCtorEq, if_false,
        decide_false, Bool.and_false, Bool.false_eq_true]
      exact .ite (bits = 64) resolves_unsupported
        (resolves_withExtension.addImmediate s.immediate v)
    | _ => exact resolves_unsupported
  · simp only [ite_self]
    exact resolves_unsupported

theorem single_resolves {b : UInt8} (h : r.dst = .state a) :
    Resolves mode id fun a' => single mode b field (r.redirect a a') := by
  obtain ⟨op, width, cond, dst, src, aux⟩ := r
  refine .bind (Encoding.sizeOf ⟨op, width, cond, dst, src, aux⟩) fun s => ?_
  obtain rfl := h
  simp only [Request.redirect, Operand.redirect_state]
  cases src with
  | none => exact resolves_withExtension
  | _ => exact resolves_unsupported

theorem imul_resolves
    (h : r.dst = .state a ∨ r.src.isNone = false ∧ (r.src = .state a ∨ r.aux = .state a)) :
    Resolves mode id fun a' => imul mode (r.redirect a a') := by
  obtain ⟨op, width, cond, dst, src, aux⟩ := r
  obtain rfl | ⟨hsrc, rfl | rfl⟩ := h
  · cases src with
    | none => exact single_resolves rfl
    | _ =>
      refine .bind (wideSizeOf ⟨op, width, cond, .none, .none, .none⟩) fun s => ?_
      simp only [Request.redirect, Operand.redirect_state]
      exact resolves_unsupported
  · refine .bind (wideSizeOf ⟨op, width, cond, .none, .none, .none⟩) fun s => ?_
    simp only [Request.redirect, Operand.redirect_state]
    cases dst with
    | reg d =>
      cases aux with
      | none => exact resolves_withRegister
      | imm v bits =>
        exact .ite (bits = 8) (resolves_withRegister.addImmediate .byte v)
          (resolves_withRegister.addImmediate s.immediate v)
      | _ => exact resolves_unsupported
    | _ => exact resolves_unsupported
  · cases src with
    | none => cases hsrc
    | _ =>
      refine .bind (wideSizeOf ⟨op, width, cond, .none, .none, .none⟩) fun s => ?_
      simp only [Request.redirect, Operand.redirect_state]
      cases dst <;> exact resolves_unsupported

theorem shift_resolves (o : Shift) (h : r.dst = .state a ∨ r.src = .state a) :
    Resolves mode id fun a' => shift mode o (r.redirect a a') := by
  obtain ⟨op, width, cond, dst, src, aux⟩ := r
  obtain rfl | rfl := h <;> simp only [Request.redirect, Operand.redirect_state] <;>
    refine .bind (Encoding.sizeOf ⟨op, width, cond, .none, .none, .none⟩) fun s => ?_
  · cases src with
    | imm v bits => exact resolves_withExtension.addImmediate .byte v
    | reg q =>
      cases q with
      | gpr g =>
        cases g with
        | cx => exact resolves_withExtension
        | _ => exact resolves_unsupported
      | _ => exact resolves_unsupported
    | _ => exact resolves_unsupported
  · simp only [ite_self]
    exact resolves_unsupported

theorem doubleShift_resolves (o : DoubleShift)
    (h : r.dst = .state a ∨ r.src = .state a ∨ r.aux = .state a) :
    Resolves mode id fun a' => doubleShift mode o (r.redirect a a') := by
  obtain ⟨op, width, cond, dst, src, aux⟩ := r
  obtain rfl | rfl | rfl := h <;> simp only [Request.redirect, Operand.redirect_state] <;>
    refine .bind (wideSizeOf ⟨op, width, cond, .none, .none, .none⟩) fun s => ?_
  · cases src with
    | reg q =>
      cases aux with
      | imm v bits => exact resolves_withRegister.addImmediate .byte v
      | reg c =>
        cases c with
        | gpr g =>
          cases g with
          | cx => exact resolves_withRegister
          | _ => exact resolves_unsupported
        | _ => exact resolves_unsupported
      | _ => exact resolves_unsupported
    | _ => exact resolves_unsupported
  · exact resolves_unsupported
  · cases src with
    | reg q =>
      simp only [Operand.redirect_reg, ite_self]
      exact resolves_unsupported
    | _ => exact resolves_unsupported

theorem extend_resolves (o : Extend) (h : r.dst = .state a ∨ r.src = .state a) :
    Resolves mode id fun a' => extend mode o (r.redirect a a') := by
  obtain ⟨op, width, cond, dst, src, aux⟩ := r
  refine .bind (Encoding.sizeOf ⟨op, width, cond, dst, src, aux⟩) fun s => ?_
  refine .ite (s.bits ≤ (extendSource o).bits) (.inl fun _ => ⟨_, rfl⟩) ?_
  obtain rfl | rfl := h <;> simp only [Request.redirect, Operand.redirect_state]
  · exact resolves_unsupported
  · cases dst with
    | reg d =>
      -- memory needs no mark, also where a byte of it is the source
      by_cases hbyte : extendSource o = .byte
      · simp only [hbyte, if_true]
        exact resolves_withRegister.mark {}
      · simp only [hbyte, if_false]
        exact resolves_withRegister.map fun j => ⟨j, fun _ _ => rfl⟩
    | _ => exact resolves_unsupported

theorem lea_resolves (h : r.dst = .state a ∨ r.src = .state a) :
    Resolves mode id fun a' => lea mode (r.redirect a a') := by
  obtain ⟨op, width, cond, dst, src, aux⟩ := r
  refine .bind (wideSizeOf ⟨op, width, cond, dst, src, aux⟩) fun s => ?_
  obtain rfl | rfl := h <;> simp only [Request.redirect, Operand.redirect_state]
  · exact resolves_unsupported
  · cases dst with
    | reg d => exact resolves_withRegister
    | _ => exact resolves_unsupported

theorem setcc_resolves (h : r.dst = .state a) :
    Resolves mode id fun a' => setcc mode (r.redirect a a') := by
  obtain ⟨op, width, cond, dst, src, aux⟩ := r
  refine .ite (width ≠ 0 ∧ width ≠ 8) (.inl fun _ => ⟨_, rfl⟩) ?_
  refine .bind (Encoding.flagOf ⟨op, width, cond, dst, src, aux⟩) fun c => ?_
  obtain rfl := h
  simp only [Request.redirect, Operand.redirect_state]
  cases src with
  | none => exact resolves_withExtension
  | _ => exact resolves_unsupported

theorem cmovcc_resolves (h : r.dst = .state a ∨ r.src = .state a) :
    Resolves mode id fun a' => cmovcc mode (r.redirect a a') := by
  obtain ⟨op, width, cond, dst, src, aux⟩ := r
  refine .bind (wideSizeOf ⟨op, width, cond, dst, src, aux⟩) fun s => ?_
  refine .bind (Encoding.flagOf ⟨op, width, cond, dst, src, aux⟩) fun c => ?_
  obtain rfl | rfl := h <;> simp only [Request.redirect, Operand.redirect_state]
  · exact resolves_unsupported
  · cases dst with
    | reg d => exact resolves_withRegister
    | _ => exact resolves_unsupported

theorem transfer_resolves (o : Transfer) (h : r.dst = .state a) :
    Resolves mode id fun a' => transfer mode o (r.redirect a a') := by
  obtain ⟨op, width, cond, dst, src, aux⟩ := r
  obtain rfl := h
  simp only [transfer, Request.redirect, Operand.redirect_state]
  cases src with
  | none => exact resolves_withExtension
  | _ => exact resolves_unsupported

theorem stack_resolves (o : Stack) (h : r.dst = .state a) :
    Resolves mode id fun a' => stack o (r.redirect a a') := by
  obtain ⟨op, width, cond, dst, src, aux⟩ := r
  obtain rfl := h
  simp only [stack, Request.redirect, Operand.redirect_state]
  exact resolves_unsupported

theorem floatOperand_redirect (h : (if r.dst.isNone then r.src else r.dst) = .state a) :
    (∀ a', floatOperand (r.redirect a a') = .ok (.state a')) ∨
      ∀ a', ∃ e, floatOperand (r.redirect a a') = .error e := by
  obtain ⟨op, width, cond, dst, src, aux⟩ := r
  cases dst with
  | none =>
    obtain rfl : src = .state a := h
    simp only [floatOperand, Request.redirect, Operand.redirect_state]
    exact .inl fun _ => rfl
  | state b =>
    obtain rfl : b = a := Operand.state.inj h
    simp only [floatOperand, Request.redirect, Operand.redirect_state]
    cases src with
    | none => exact .inl fun _ => rfl
    | _ => exact .inr fun _ => ⟨_, rfl⟩
  | _ => cases h

theorem floatMemory_resolves (o : FloatMemory)
    (h : (if r.dst.isNone then r.src else r.dst) = .state a) :
    Resolves mode id fun a' => Encoding.floatMemory mode o (r.redirect a a') := by
  obtain h | h := floatOperand_redirect h
  · have hwidth (a') : (r.redirect a a').width = r.width := rfl
    simp only [Encoding.floatMemory, h, hwidth]
    generalize (Size.ofBits? r.width).bind (floatMemoryCode o) = code
    cases code with
    | none => exact .inl fun _ => ⟨_, rfl⟩
    | some code => exact resolves_withExtension
  · refine .inl fun a' => ?_
    obtain ⟨e, he⟩ := h a'
    simp only [Encoding.floatMemory, he]
    exact ⟨_, rfl⟩

theorem floatStack_resolves (o : FloatStack)
    (h : (if r.dst.isNone then r.src else r.dst) = .state a) :
    Resolves mode id fun a' => floatStack o (r.redirect a a') := by
  refine .inl fun a' => ?_
  obtain h | h := floatOperand_redirect h
  · simp only [floatStack, h]
    exact ⟨_, rfl⟩
  · obtain ⟨e, he⟩ := h a'
    simp only [floatStack, he]
    exact ⟨_, rfl⟩

section Reads

variable {o o₁ o₂ o₃ : Operand} {s s₁ s₂ s₃ : Size}

theorem eq_of_mem_one (h : (o, s) ∈ [(o₁, s₁)]) : o₁ = o := by
  cases List.mem_singleton.mp h
  rfl

theorem eq_of_mem_two (h : (o, s) ∈ [(o₁, s₁), (o₂, s₂)]) : o₁ = o ∨ o₂ = o :=
  (List.mem_cons.mp h).imp (fun h => (congrArg Prod.fst h).symm) eq_of_mem_one

theorem eq_of_mem_three (h : (o, s) ∈ [(o₁, s₁), (o₂, s₂), (o₃, s₃)]) :
    o₁ = o ∨ o₂ = o ∨ o₃ = o :=
  (List.mem_cons.mp h).imp (fun h => (congrArg Prod.fst h).symm) eq_of_mem_two

end Reads

theorem imul_reads {s : Size} (hop : r.op = .imul) (h : (.state a, s) ∈ readsOf mode.wide r) :
    r.dst = .state a ∨ r.src.isNone = false ∧ (r.src = .state a ∨ r.aux = .state a) := by
  simp only [readsOf, hop] at h
  split at h
  · exact .inl (eq_of_mem_one h)
  next hsrc =>
  refine (?_ : _ ∨ _).imp_right fun h => ⟨Bool.eq_false_iff.mpr hsrc, h⟩
  split at h
  · exact (eq_of_mem_two h).imp_right .inl
  · exact eq_of_mem_three h

/-- Whatever the operation is, a field that it reads goes to the r/m field or is refused. -/
theorem family_resolves {s : Size} (h : (.state a, s) ∈ readsOf mode.wide r) :
    ∃ x, Resolves mode some x ∧ ∀ a', family mode (r.redirect a a') = some (x a') := by
  obtain ⟨op, width, cond, dst, src, aux⟩ := r
  cases op with
  | none => cases h
  | unnamed n => cases h
  | alu o => exact ⟨_, (alu_resolves o (eq_of_mem_two h)).written, fun _ => rfl⟩
  | mov => exact ⟨_, mov_resolves (eq_of_mem_two h), fun _ => rfl⟩
  | movabs => exact ⟨_, (movabs_resolves (eq_of_mem_two h)).written, fun _ => rfl⟩
  | test => exact ⟨_, (test_resolves (eq_of_mem_two h)).written, fun _ => rfl⟩
  | unary o => exact ⟨_, (single_resolves (eq_of_mem_one h)).written, fun _ => rfl⟩
  | imul => exact ⟨_, (imul_resolves (imul_reads rfl h)).written, fun _ => rfl⟩
  | count o => exact ⟨_, (single_resolves (eq_of_mem_one h)).written, fun _ => rfl⟩
  | shift o => exact ⟨_, (shift_resolves o (eq_of_mem_two h)).written, fun _ => rfl⟩
  | doubleShift o => exact ⟨_, (doubleShift_resolves o (eq_of_mem_three h)).written, fun _ => rfl⟩
  | extend o =>
    have h' : dst = .state a ∨ src = .state a := by cases o <;> exact eq_of_mem_two h
    exact ⟨_, (extend_resolves o h').written, fun _ => rfl⟩
  | lea => exact ⟨_, (lea_resolves (eq_of_mem_two h)).written, fun _ => rfl⟩
  | setcc => exact ⟨_, (setcc_resolves (eq_of_mem_one h)).written, fun _ => rfl⟩
  | cmovcc => exact ⟨_, (cmovcc_resolves (eq_of_mem_two h)).written, fun _ => rfl⟩
  | cdq => cases h
  | transfer o => exact ⟨_, (transfer_resolves o (eq_of_mem_one h)).written, fun _ => rfl⟩
  | stack o => exact ⟨_, (stack_resolves o (eq_of_mem_one h)).written, fun _ => rfl⟩
  | plain o => cases h
  | floatMemory o => exact ⟨_, (floatMemory_resolves o (eq_of_mem_one h)).written, fun _ => rfl⟩
  | floatStack o => exact ⟨_, (floatStack_resolves o (eq_of_mem_one h)).written, fun _ => rfl⟩

end Families

/-! ## Addresses -/

/-- The register that the addresses of fields start from. -/
def stateBase? : AddressingMode → Option Gpr
  | .absolute => none
  | .baseRelative b _ => some b.val

/-- The code can address a field there. -/
def InReach (mode : AddressingMode) (a : HostAddress) : Prop :=
  match mode with
  | .absolute => a.toNat < 2 ^ 32
  | .baseRelative _ v => (a.toNat - v.toNat : Int).natAbs ≤ 0x7fffffff

instance (mode : AddressingMode) (a : HostAddress) : Decidable (InReach mode a) :=
  match mode with
  | .absolute => inferInstanceAs (Decidable (_ < _))
  | .baseRelative _ _ => inferInstanceAs (Decidable (_ ≤ _))

def LeadsTo (mode : AddressingMode) (d : Int32) (a : HostAddress) : Prop :=
  match mode with
  | .absolute => d.toUInt32.toNat = a.toNat
  | .baseRelative _ v => v.toNat + d.toInt = a.toNat

/-- The r/m operand of a field, whose displacement always has 32 bits. -/
def stateField (mode : AddressingMode) (d : Int32) : RM :=
  match mode with
  | .absolute => { mod := 0, rm := 5, disp := .dword d }
  | .baseRelative b _ => .based b.val (2, .dword d)

/-- The address that an operand stands for, with what the registers hold. -/
def Address.effective (wide : Bool) (regs : Gpr → Nat) (x : Address) : Nat :=
  let base := (x.base.map regs).getD 0
  let index := (x.index.map fun p => regs p.1 * p.2).getD 0
  ((base + index + x.disp.toInt) % (2 ^ width wide : Nat)).toNat

variable {mode : AddressingMode} {r : Request} {a : HostAddress} {s : Size} {d d' : Int32}

theorem state_of_inReach (h : InReach mode a) :
    ∃ d, RM.state mode a = .ok (stateField mode d) ∧ LeadsTo mode d a := by
  cases mode with
  | absolute =>
    refine ⟨a.toUInt32.toInt32, if_pos h, ?_⟩
    simp only [LeadsTo, UInt32.toUInt32_toInt32, UInt64.toNat_toUInt32]
    exact Nat.mod_eq_of_lt h
  | baseRelative b v =>
    have hd : displacement a v = .ok (Int32.ofInt (a.toNat - v.toNat)) := if_pos h
    refine ⟨_, by simp only [RM.state, hd]; rfl, ?_⟩
    simp only [LeadsTo, toInt_displacement hd]
    omega

theorem state_of_not_inReach (h : ¬ InReach mode a) :
    RM.state mode a = .error (.displacement ⟨a, mode.baseValue, 32⟩) := by
  cases mode with
  | absolute => exact if_neg h
  | baseRelative b v =>
    have hd : displacement a v = .error ⟨a, v, 32⟩ := if_neg h
    simp only [RM.state, hd]
    rfl

theorem state_ok {m : RM} (h : RM.state mode a = .ok m) : ∃ d, m = stateField mode d := by
  by_cases ha : InReach mode a
  · obtain ⟨d, hd, -⟩ := state_of_inReach ha
    rw [hd] at h
    exact ⟨d, (Except.ok.inj h).symm⟩
  · rw [state_of_not_inReach ha] at h
    cases h

theorem LeadsTo.unique (h : LeadsTo mode d a) (h' : LeadsTo mode d' a) : d = d' := by
  cases mode with
  | absolute =>
    have hnat : d.toUInt32.toNat = d'.toUInt32.toNat := h.trans h'.symm
    exact Int32.toBitVec_inj.mp (BitVec.eq_of_toNat_eq hnat)
  | baseRelative b v =>
    simp only [LeadsTo] at h h'
    exact Int32.toInt_inj.mp (by omega)

theorem LeadsTo.effective (h : LeadsTo mode d a) {regs : Gpr → Nat}
    (hregs : ∀ b, stateBase? mode = some b → regs b = mode.baseValue.toNat) :
    Address.effective mode.wide regs ⟨stateBase? mode, none, d⟩ = a.toNat := by
  cases mode with
  | absolute =>
    have hd : d.toInt % (2 ^ 32 : Nat) = d.toUInt32.toNat := by
      have hint : d.toInt = d.toBitVec.toInt := rfl
      rw [hint, BitVec.toInt_eq_toNat_bmod, Int.bmod_emod]
      exact Int.emod_eq_of_lt (by omega) (by have := d.toUInt32.toNat_lt; omega)
    have hsum : Address.effective false regs ⟨none, none, d⟩ =
        (d.toInt % (2 ^ 32 : Nat)).toNat := by
      simp [Address.effective, width]
    exact hsum.trans (by rw [hd]; exact h)
  | baseRelative b v =>
    have hb : regs b.val = v.toNat := hregs _ rfl
    have hsum : Address.effective true regs ⟨some b.val, none, d⟩ =
        ((v.toNat + d.toInt) % (2 ^ 64 : Nat)).toNat := by
      simp [Address.effective, width, hb]
    have ha := a.toNat_lt
    simp only [LeadsTo] at h
    refine hsum.trans ?_
    rw [h]
    omega

theorem Means.exists_leadsTo {p : Place} (h : Means mode s (.state a) p) :
    ∃ d, p = .memory s ⟨stateBase? mode, none, d⟩ ∧ LeadsTo mode d a := by
  cases mode with
  | absolute => exact h
  | baseRelative b v => exact h

theorem rex_stateField : (stateField mode d).rex = (stateField mode d').rex := by
  cases mode <;> rfl

theorem length_fields_stateField {field : BitVec 3} :
    ((stateField mode d).fields field).flatten.length =
      ((stateField mode d').fields field).flatten.length := by
  cases mode <;> simp [stateField, RM.based, RM.fields, Displacement.fields]

theorem length_bytes_fill (j : Instruction) (field : BitVec 3) (m : RM) :
    (fill j field m).bytes.length =
      { j with rex := j.rex.merge m.rex, modrm := none }.bytes.length +
        (m.fields field).flatten.length := by
  obtain ⟨sizeByte, rex, opcode, modrm, imm⟩ := j
  dsimp only [Instruction.bytes, Instruction.fields, fill]
  simp only [List.flatten_append, List.length_append, List.flatten_nil, List.length_nil]
  omega

theorem length_fill (j : Instruction) (field : BitVec 3) (d d' : Int32) :
    (fill j field (stateField mode d)).bytes.length =
      (fill j field (stateField mode d')).bytes.length := by
  rw [length_bytes_fill, length_bytes_fill, rex_stateField, length_fields_stateField]

theorem eq_some_of_family {i : Instruction} {o : Option Instruction}
    (hfamily : family mode r = some (.ok (some i))) (h : Encoding.encode mode r = .ok o) :
    o = some i := by
  simp only [Encoding.encode, hfamily] at h
  split at h
  · cases h
  · next hj =>
    cases h
    rw [(forHost_ok hj).1]

/-- A request that is accepted with some field is accepted with every field in reach, as the same
instruction with another displacement. -/
theorem exists_fill {a₀ : HostAddress} {o : Option Instruction}
    (hread : (.state a, s) ∈ readsOf mode.wide r)
    (hother : Encoding.encode mode (r.redirect a a₀) = .ok o) :
    ∃ j field d₀, o = some (fill j field (stateField mode d₀)) ∧
      (∀ d, RM.state mode a = .ok (stateField mode d) →
        Encoding.encode mode r = .ok (some (fill j field (stateField mode d)))) ∧
      ∀ e, RM.state mode a = .error e → Encoding.encode mode r = .error (.rejected r e) := by
  obtain ⟨x, hx, hfamily⟩ := family_resolves hread
  have hself : family mode r = some (x a) := by
    have h := hfamily a
    rwa [Request.redirect_self] at h
  obtain hx | ⟨j, field, hx⟩ := hx
  · obtain ⟨e, he⟩ := hx a₀
    simp only [Encoding.encode, hfamily, he] at hother
    cases hother
  · cases hm : RM.state mode a₀ with
    | error e =>
      simp only [Encoding.encode, hfamily, hx, hm, Except.map] at hother
      cases hother
    | ok m =>
      obtain ⟨d₀, rfl⟩ := state_ok hm
      have hwritten : family mode (r.redirect a a₀) =
          some (.ok (some (fill j field (stateField mode d₀)))) := by
        rw [hfamily, hx, hm]
        rfl
      obtain rfl := eq_some_of_family hwritten hother
      obtain ⟨-, hhost⟩ := encode_eq_some_iff.mp hother
      refine ⟨j, field, d₀, rfl, fun d hd => encode_eq_some_iff.mpr ⟨?_, ?_⟩, fun e he => ?_⟩
      · rw [hself, hx, hd]
        rfl
      · simpa only [fill, @rex_stateField mode d d₀] using hhost
      · simp only [Encoding.encode, hself, hx, he, Except.map]

/-- A field that a request reads is addressed from the state base, without an index and with a
displacement of 32 bits. If the request is encodable at all, then it is with all the fields in
reach, by instructions of one length. -/
theorem state_field_resolved (mode : AddressingMode) (r : Request) (a a₀ : HostAddress) (s : Size)
    (o : Option Instruction) (hread : (.state a, s) ∈ readsOf mode.wide r)
    (hother : Encoding.encode mode (r.redirect a a₀) = .ok o) :
    (InReach mode a → ∃ i j field d x, o = some j ∧ Encoding.encode mode r = .ok (some i) ∧
      i.bytes.length = j.bytes.length ∧ i.modrm = some (field, stateField mode x.disp) ∧
      (∀ tail, decode mode.wide (i.bytes ++ tail) = some (d, tail)) ∧ .memory s x ∈ d.operands ∧
      x.base = stateBase? mode ∧ x.index = none ∧
      ∀ regs, (∀ b, stateBase? mode = some b → regs b = mode.baseValue.toNat) →
        x.effective mode.wide regs = a.toNat) ∧
    (¬ InReach mode a → Encoding.encode mode r =
      .error (.rejected r (.displacement ⟨a, mode.baseValue, 32⟩))) := by
  obtain ⟨j, field, d₀, rfl, haccept, hreject⟩ := exists_fill hread hother
  refine ⟨fun ha => ?_, fun ha => hreject _ (state_of_not_inReach ha)⟩
  obtain ⟨disp, hstate, hleads⟩ := state_of_inReach ha
  have hencode := haccept disp hstate
  obtain ⟨d, hasked, hdecode⟩ := encode_answers hencode
  obtain ⟨p, hp, hmeans⟩ := hasked.exists_place hread
  obtain ⟨disp', rfl, hleads'⟩ := hmeans.exists_leadsTo
  obtain rfl := hleads.unique hleads'
  exact ⟨_, _, field, d, _, rfl, hencode, length_fill j field _ _, rfl, hdecode, hp, rfl, rfl,
    fun _ => hleads.effective⟩

/-- The first field that can be addressed lies before the base, which is in a register that needs
a SIB byte. -/
theorem state_field_resolved_first :
    InReach (.baseRelative ⟨.r12, by decide⟩ 0x80000000) 1 ∧
      ∃ i d x, Encoding.encode (.baseRelative ⟨.r12, by decide⟩ 0x80000000)
          { op := .alu .add, width := 32, dst := .state 1, src := .reg (.gpr .ax) } =
            .ok (some i) ∧
        (∀ tail, decode true (i.bytes ++ tail) = some (d, tail)) ∧
        .memory .dword x ∈ d.operands ∧ x.base = some .r12 ∧ x.index = none ∧
        x.effective true (fun _ => 0x80000000) = 1 := by
  have hreach : InReach (.baseRelative ⟨.r12, by decide⟩ 0x80000000) 1 := by decide
  obtain ⟨i, -, -, d, x, -, hi, -, -, hd, hx, hbase, hindex, heff⟩ :=
    (state_field_resolved (.baseRelative ⟨.r12, by decide⟩ 0x80000000)
      { op := .alu .add, width := 32, dst := .state 1, src := .reg (.gpr .ax) }
      1 0x80000000 .dword _ (.head _) rfl).1 hreach
  exact ⟨hreach, i, d, x, hi, hd, hx, hbase, hindex, heff _ fun _ _ => rfl⟩

/-- An instruction without operands should refuse all of them, and this one overlooks those that it
gets. A field among them is not checked, either. -/
theorem unread_field_out_of_reach :
    Encoding.encode (.baseRelative ⟨.r15, by decide⟩ 0)
        { op := .cdq, width := 32, dst := .state 0x100000000 } = .ok (some { opcode := [0x99] }) ∧
      ¬ InReach (.baseRelative ⟨.r15, by decide⟩ 0) 0x100000000 :=
  ⟨rfl, by decide⟩

end Processor

end HostCode
