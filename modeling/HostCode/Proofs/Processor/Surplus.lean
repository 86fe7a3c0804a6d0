import HostCode.Error
import HostCode.Proofs.Processor.RoundTrip

/-! # Surplus operands

A request has room for three operands, and most families read fewer. What a family reads takes part
in the instruction, and a surplus destination or source is refused. But a third operand is looked
at only by the families that read one, and the extension of the accumulator looks at none, so there
a surplus operand makes no difference.
-/

namespace HostCode

inductive Slot | dst | src | aux
  deriving DecidableEq, Repr

namespace Request

def operandAt (r : Request) : Slot → Operand
  | .dst => r.dst
  | .src => r.src
  | .aux => r.aux

def replace (r : Request) (o : Operand) : Slot → Request
  | .dst => { r with dst := o }
  | .src => { r with src := o }
  | .aux => { r with aux := o }

def Has (r : Request) (t : Slot) : Prop := (r.operandAt t).isNone = false

/-- The families that read a third operand: double shifts, and products of more than one
operand. -/
def readsThird (r : Request) : Bool :=
  match r.op with
  | .doubleShift _ => true
  | .imul => !r.src.isNone
  | _ => false

/-- The slots that are read, in the order of the operands. -/
def slots (r : Request) : List Slot :=
  match r.op with
  | .alu _ | .mov | .movabs | .test | .lea | .cmovcc | .shift _ | .extend _ => [.dst, .src]
  | .unary _ | .count _ | .setcc | .transfer _ | .stack _ => [.dst]
  | .imul =>
    if r.src.isNone then [.dst] else if r.aux.isNone then [.dst, .src] else [.dst, .src, .aux]
  | .doubleShift _ => [.dst, .src, .aux]
  | .floatMemory _ | .floatStack _ => [if r.dst.isNone then .src else .dst]
  | .none | .cdq | .plain _ | .unnamed _ => []

/-- The slot is not looked at, whatever is in it. -/
def Overlooks (r : Request) (t : Slot) : Prop := r.op = .cdq ∨ t = .aux ∧ r.readsThird = false

@[simp] theorem operandAt_replace (r : Request) (o : Operand) (t : Slot) :
    (r.replace o t).operandAt t = o := by
  cases t <;> rfl

@[simp] theorem op_replace (r : Request) (o : Operand) (t : Slot) : (r.replace o t).op = r.op := by
  cases t <;> rfl

/-- Which slots are read depends on the operation and on which operands there are. -/
theorem slots_replace {r : Request} {t : Slot} {o : Operand} (hr : r.Has t)
    (ho : o.isNone = false) : (r.replace o t).slots = r.slots := by
  have hshape : ∀ u, ((r.replace o t).operandAt u).isNone = (r.operandAt u).isNone := by
    intro u
    by_cases hu : u = t
    · rw [hu, operandAt_replace, ho, hr]
    · cases t <;> cases u <;> first | rfl | exact absurd rfl hu
  have hdst : (r.replace o t).dst.isNone = r.dst.isNone := hshape .dst
  have hsrc : (r.replace o t).src.isNone = r.src.isNone := hshape .src
  have haux : (r.replace o t).aux.isNone = r.aux.isNone := hshape .aux
  simp only [slots, op_replace, hdst, hsrc, haux]

theorem aux_not_mem_slots {r : Request} (h : r.readsThird = false) : .aux ∉ r.slots := by
  obtain ⟨op, width, cond, dst, src, aux⟩ := r
  cases op with
  | imul =>
    cases src with
    | none => exact of_decide_eq_true rfl
    | _ => cases h
  | doubleShift o => cases h
  | floatMemory o | floatStack o => cases dst <;> exact of_decide_eq_true rfl
  | _ => exact of_decide_eq_true rfl

theorem not_mem_slots_of_overlooks {r : Request} {t : Slot} (h : r.Overlooks t) : t ∉ r.slots := by
  obtain hop | ⟨rfl, hthird⟩ := h
  · rw [slots, hop]
    exact List.not_mem_nil
  · exact aux_not_mem_slots hthird

end Request

namespace Processor

open Encoding

variable {mode : AddressingMode} {r : Request} {i : Instruction} {t : Slot}

theorem map_fst_readsOf (wide : Bool) (r : Request) :
    (readsOf wide r).map Prod.fst = r.slots.map r.operandAt := by
  obtain ⟨op, width, cond, dst, src, aux⟩ := r
  unfold readsOf Request.slots
  cases op with
  | imul =>
    dsimp only
    split
    · rfl
    · split <;> rfl
  | floatMemory o => cases dst <;> rfl
  | floatStack o => cases dst <;> rfl
  | extend o => cases o <;> rfl
  | _ => rfl

/-! ## What is overlooked -/

theorem family_replace (h : r.Overlooks t) (o : Operand) :
    family mode (r.replace o t) = family mode r := by
  obtain ⟨op, width, cond, dst, src, aux⟩ := r
  obtain rfl | ⟨rfl, hthird⟩ := h
  · cases t <;> rfl
  · cases op with
    | imul =>
      cases src with
      | none => rfl
      | _ => cases hthird
    | doubleShift o => cases hthird
    | _ => rfl

/-- Only the errors tell requests apart that come to the same in their families. -/
theorem encode_of_family {r' : Request} {x : Option Instruction}
    (hfamily : family mode r' = family mode r) (h : Encoding.encode mode r = .ok x) :
    Encoding.encode mode r' = .ok x := by
  cases x with
  | some i => rwa [encode_eq_some_iff, hfamily, ← encode_eq_some_iff]
  | none =>
    rw [encode_eq_none_iff] at h ⊢
    rw [hfamily, h]

/-! ## What takes part -/

theorem operands_of_slots (h : Encoding.encode mode r = .ok (some i)) :
    ∃ d, (∀ tail, decode mode.wide (i.bytes ++ tail) = some (d, tail)) ∧
      List.Forall₂ (fun t p => ∃ s, Means mode s (r.operandAt t) p) r.slots d.operands := by
  obtain ⟨d, hasked, hdecode⟩ := encode_answers h
  refine ⟨d, hdecode, ?_⟩
  have hmeans : List.Forall₂ (fun o p => ∃ s, Means mode s o p)
      ((readsOf mode.wide r).map Prod.fst) d.operands := by
    rw [List.forall₂_map_left_iff]
    exact hasked.operands.imp fun _ _ hp => ⟨_, hp⟩
  rwa [map_fst_readsOf, List.forall₂_map_left_iff] at hmeans

theorem encode_unnamed_ne (ht : t ∈ r.slots) {c : UInt8} (ho : r.operandAt t = .unnamed c)
    (x : Option Instruction) : Encoding.encode mode r ≠ .ok x := by
  intro h
  cases x with
  | some i =>
    obtain ⟨d, -, hmeans⟩ := operands_of_slots h
    obtain ⟨p, -, s, hp⟩ := exists_mem_of_forall₂ hmeans ht
    rw [ho] at hp
    exact hp
  | none =>
    obtain ⟨hop, hreg, hsame⟩ := isIdle_of_encode_eq_none h
    rw [Request.slots, hop] at ht
    simp only [List.mem_cons, List.not_mem_nil, or_false] at ht
    obtain rfl | rfl := ht
    · rw [show r.dst = _ from ho] at hreg
      cases hreg
    · rw [hsame, show r.src = _ from ho] at hreg
      cases hreg

/-! ## What is refused -/

def Unsupported {α : Type} (x : Except Rejection α) : Prop :=
  ∃ e, x = .error e ∧ e.isUnsupported = true

theorem unsupported_unsupported {α : Type} : Unsupported (unsupported (α := α) r) :=
  ⟨_, rfl, rfl⟩

theorem Unsupported.bind {α β : Type} {x : Except Rejection α} (h : Unsupported x)
    (k : α → Except Rejection β) : Unsupported (x >>= k) := by
  obtain ⟨e, rfl, he⟩ := h
  exact ⟨e, rfl, he⟩

theorem unsupported_bind {α β : Type} {x : Except Rejection α} {k : α → Except Rejection β}
    (h : (∃ u, x = .ok u) ∨ Unsupported x) (hk : ∀ u, Unsupported (k u)) :
    Unsupported (x >>= k) := by
  obtain ⟨u, rfl⟩ | hx := h
  · exact hk u
  · exact hx.bind k

theorem sizeOf_cases (r : Request) :
    (∃ s, Encoding.sizeOf r = .ok s) ∨ Unsupported (Encoding.sizeOf r) := by
  unfold Encoding.sizeOf
  split
  · exact .inl ⟨_, rfl⟩
  · exact .inr ⟨_, rfl, rfl⟩

theorem flagOf_cases (r : Request) :
    (∃ c, Encoding.flagOf r = .ok c) ∨ Unsupported (Encoding.flagOf r) := by
  unfold Encoding.flagOf
  split
  · exact .inl ⟨_, rfl⟩
  · exact .inr ⟨_, rfl, rfl⟩

theorem single_unsupported {b : UInt8} {ext : BitVec 3} (h : r.src.isNone = false) :
    Unsupported (single mode b ext r) := by
  refine unsupported_bind (sizeOf_cases r) fun s => ?_
  rw [h, Bool.and_false]
  exact unsupported_unsupported

theorem setcc_unsupported (h : r.src.isNone = false) : Unsupported (setcc mode r) := by
  unfold setcc
  by_cases hwidth : r.width ≠ 0 ∧ r.width ≠ 8
  · rw [if_pos hwidth]
    exact ⟨.width r.width, rfl, rfl⟩
  · rw [if_neg hwidth, h, Bool.and_false]
    exact unsupported_bind (flagOf_cases r) fun c => unsupported_unsupported

theorem transfer_unsupported (o : Transfer) (h : r.src.isNone = false) :
    Unsupported (transfer mode o r) := by
  rw [transfer, h, Bool.and_false]
  exact unsupported_unsupported

theorem stack_unsupported (o : Stack) (h : r.src.isNone = false) : Unsupported (stack o r) := by
  unfold stack
  split
  · rw [h]
    exact unsupported_unsupported
  · exact unsupported_unsupported

theorem plain_unsupported (o : Plain) (h : r.dst.isNone = false ∨ r.src.isNone = false) :
    Unsupported (plain o r) := by
  rw [plain, if_neg]
  · exact unsupported_unsupported
  · rw [Bool.and_eq_true]
    rintro ⟨hdst, hsrc⟩
    simp [hdst, hsrc] at h

theorem floatOperand_unsupported (hr : r.Has t) (haux : t ≠ .aux)
    (hslot : t ∉ [if r.dst.isNone then Slot.src else .dst]) : Unsupported (floatOperand r) := by
  obtain ⟨op, width, cond, dst, src, aux⟩ := r
  cases t with
  | dst =>
    cases dst with
    | none => cases hr
    | _ => exact absurd (.head _) hslot
  | src =>
    cases dst with
    | none => exact absurd (.head _) hslot
    | _ =>
      cases src with
      | none => cases hr
      | _ => exact unsupported_unsupported
  | aux => exact absurd rfl haux

/-- Every family refuses an operand that it looks at and does not read. -/
theorem family_unsupported {x : Except Rejection (Option Instruction)} (hr : r.Has t)
    (hslot : t ∉ r.slots) (hlooks : ¬r.Overlooks t) (h : family mode r = some x) :
    Unsupported x := by
  -- Outside the families that read the third operand, the surplus one is the first or the second.
  have hthird (h : r.readsThird = false) : t ≠ .aux := fun haux => hlooks (.inr ⟨haux, h⟩)
  have hsecond (hread : .dst ∈ r.slots) (h : r.readsThird = false) : t = .src := by
    cases t with
    | dst => exact absurd hread hslot
    | src => rfl
    | aux => exact absurd rfl (hthird h)
  obtain ⟨op, width, cond, dst, src, aux⟩ := r
  cases op with
  | none => cases h
  | unnamed c => cases h
  | cdq => exact absurd (.inl rfl) hlooks
  | alu | mov | movabs | test | lea | cmovcc | shift | extend =>
    exact absurd (hsecond (.head _) rfl ▸ .tail _ (.head _)) hslot
  | unary | count =>
    obtain rfl := hsecond (.head _) rfl
    cases h
    exact (single_unsupported hr).bind _
  | setcc =>
    obtain rfl := hsecond (.head _) rfl
    cases h
    exact (setcc_unsupported hr).bind _
  | transfer o =>
    obtain rfl := hsecond (.head _) rfl
    cases h
    exact (transfer_unsupported o hr).bind _
  | stack o =>
    obtain rfl := hsecond (.head _) rfl
    cases h
    exact (stack_unsupported o hr).bind _
  | plain o =>
    cases h
    refine (plain_unsupported o ?_).bind _
    cases t with
    | dst => exact .inl hr
    | src => exact .inr hr
    | aux => exact absurd rfl (hthird rfl)
  | imul =>
    refine absurd ?_ hslot
    cases src with
    | none =>
      obtain rfl := hsecond (.head _) rfl
      cases hr
    | _ =>
      cases aux with
      | none =>
        cases t with
        | dst | src => exact of_decide_eq_true rfl
        | aux => cases hr
      | _ => cases t <;> exact of_decide_eq_true rfl
  | doubleShift o =>
    refine absurd ?_ hslot
    cases t <;> exact of_decide_eq_true rfl
  | floatMemory o =>
    cases h
    exact ((floatOperand_unsupported hr (hthird rfl) hslot).bind _).bind _
  | floatStack o =>
    cases h
    exact ((floatOperand_unsupported hr (hthird rfl) hslot).bind _).bind _

theorem kind_rejected {e : Rejection} (he : e.isUnsupported = true) :
    (Error.encode (.rejected r e)).kind = .unsupported := by
  cases e <;> first | rfl | cases he

theorem encode_unsupported (hr : r.Has t) (hslot : t ∉ r.slots) (hlooks : ¬r.Overlooks t)
    (hknown : Encoding.encode mode r ≠ .error (.unknown r.op)) :
    ∃ e, Encoding.encode mode r = .error e ∧ (Error.encode e).kind = .unsupported := by
  cases hfamily : family mode r with
  | none => exact absurd (by simp only [Encoding.encode, hfamily]) hknown
  | some x =>
    obtain ⟨e, rfl, he⟩ := family_unsupported hr hslot hlooks hfamily
    exact ⟨.rejected r e, by simp only [Encoding.encode, hfamily], kind_rejected he⟩

/-! ## Every operand of an accepted request -/

/-- An operand of an accepted request is in a slot that is read, and is then one of those that the
processor finds in the instruction, or its slot is overlooked, and then the answer is the same with
any other operand there, and with none. What is neither read nor overlooked is refused. -/
theorem overlooked_iff (mode : AddressingMode) (r : Request) (t : Slot) (hr : r.Has t) :
    (∀ x, Encoding.encode mode r = .ok x →
      (t ∈ r.slots ↔ ¬r.Overlooks t) ∧
      (r.Overlooks t ↔ ∀ o, Encoding.encode mode (r.replace o t) = .ok x)) ∧
    (∀ i, Encoding.encode mode r = .ok (some i) →
      ∃ d, (∀ tail, decode mode.wide (i.bytes ++ tail) = some (d, tail)) ∧
        List.Forall₂ (fun t p => ∃ s, Means mode s (r.operandAt t) p) r.slots d.operands) ∧
    (t ∉ r.slots → ¬r.Overlooks t → Encoding.encode mode r ≠ .error (.unknown r.op) →
      ∃ e, Encoding.encode mode r = .error e ∧ (Error.encode e).kind = .unsupported) := by
  refine ⟨fun x h => ?_, fun i h => operands_of_slots h, encode_unsupported hr⟩
  have hread : t ∈ r.slots ↔ ¬r.Overlooks t := by
    refine ⟨fun hslot hlooks => Request.not_mem_slots_of_overlooks hlooks hslot, fun hlooks => ?_⟩
    by_contra hslot
    have hknown : Encoding.encode mode r ≠ .error (.unknown r.op) := by
      rw [h]
      exact fun he => nomatch he
    obtain ⟨e, he, -⟩ := encode_unsupported hr hslot hlooks hknown
    rw [h] at he
    cases he
  refine ⟨hread, fun hlooks o => encode_of_family (family_replace hlooks o) h, fun hsame => ?_⟩
  by_contra hlooks
  have hslot : t ∈ (r.replace (.unnamed 6) t).slots := by
    rw [Request.slots_replace hr rfl]
    exact hread.mpr hlooks
  exact encode_unnamed_ne hslot (Request.operandAt_replace ..) x (hsame (.unnamed 6))

/-- The factor of a product is not overlooked. -/
theorem overlooked_iff_factor :
    Request.Has
      { op := .imul, width := 32, dst := .reg (.gpr .ax), src := .reg (.gpr .bx)
        aux := .imm 5 8 } .aux ∧
    ∃ i, i.bytes = [0x6b, 0xc3, 5] ∧
      Encoding.encode .absolute
        { op := .imul, width := 32, dst := .reg (.gpr .ax), src := .reg (.gpr .bx)
          aux := .imm 5 8 } = .ok (some i) ∧
      ¬∀ o, Encoding.encode .absolute
        { op := .imul, width := 32, dst := .reg (.gpr .ax), src := .reg (.gpr .bx)
          aux := o } = .ok (some i) := by
  refine ⟨rfl, _, ?_, rfl, fun hsame => ?_⟩
  · decide
  · obtain ⟨hread, hoverlooks⟩ := (overlooked_iff .absolute
      { op := .imul, width := 32, dst := .reg (.gpr .ax), src := .reg (.gpr .bx)
        aux := .imm 5 8 } .aux rfl).1 _ rfl
    exact hread.mp (.tail _ (.tail _ (.head _))) (hoverlooks.mpr hsame)

/-- A third operand of an addition and an operand of the extension of the accumulator are accepted,
and come to the same bytes as without them. -/
theorem surplus_accepted :
    (∃ i, i.bytes = [0x01, 0xd8] ∧
      Encoding.encode .absolute
        { op := .alu .add, width := 32, dst := .reg (.gpr .ax), src := .reg (.gpr .bx)
          aux := .reg (.gpr .cx) } = .ok (some i) ∧
      Encoding.encode .absolute
        { op := .alu .add, width := 32, dst := .reg (.gpr .ax), src := .reg (.gpr .bx) } =
        .ok (some i)) ∧
    ∃ i, i.bytes = [0x99] ∧
      Encoding.encode .absolute { op := .cdq, width := 32, dst := .reg (.gpr .ax) } =
        .ok (some i) ∧
      Encoding.encode .absolute { op := .cdq, width := 32 } = .ok (some i) :=
  ⟨⟨_, by decide, rfl, rfl⟩, _, by decide, rfl, rfl⟩

end Processor

end HostCode
