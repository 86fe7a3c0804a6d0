import HostCode.Proofs.Processor.Constants

/-! # One request on both kinds of hosts

What a request comes to depends on the host in few places: in how the state is addressed, in the
REX byte that tells the low bytes of four registers from the high bytes of four others, and in
the length of a full address. So what a narrow host accepts, a wide host accepts too, and their
instructions differ by nothing but that.
-/

namespace HostCode

/-- The registers whose low byte can be named on wide hosts only, with a REX byte. -/
def Register.isLowByte : Register → Bool
  | .gpr .sp | .gpr .bp | .gpr .si | .gpr .di => true
  | _ => false

def Operand.isLowByte : Operand → Bool
  | .reg q => q.isLowByte
  | _ => false

namespace Request

def byteOperands (r : Request) : List Operand :=
  match r.op with
  | .alu _ | .mov | .test | .unary _ | .imul | .count _ | .shift _ =>
    if r.width = 8 then [r.dst, r.src] else []
  | .extend .movsxb | .extend .movzxb => [r.src]
  | .setcc => [r.dst]
  | _ => []

def namesLowByte (r : Request) : Bool := r.byteOperands.any Operand.isLowByte

structure Stateless (r : Request) : Prop where
  dst : ∀ a, r.dst ≠ .state a
  src : ∀ a, r.src ≠ .state a

theorem of_operands {r : Request} {P : Operand → Prop} (hnone : P .none)
    (h : ∀ p ∈ r.operands, P p) : P r.dst ∧ P r.src := by
  have hmem {p : Operand} (hp : p ∈ [r.dst, r.src, r.aux]) : P p := by
    cases p with
    | none => exact hnone
    | _ => exact h _ (List.mem_filter.mpr ⟨hp, rfl⟩)
  exact ⟨hmem (by simp), hmem (by simp)⟩

end Request

namespace Encoding

/-! ## Instructions that differ by the host -/

/-- The instructions differ at most in the REX byte and in the operand in the r/m field. -/
structure Kin (i j : Instruction) : Prop where
  sizeByte : j.sizeByte = i.sizeByte
  opcode : j.opcode = i.opcode
  field : j.modrm.map Prod.fst = i.modrm.map Prod.fst
  imm : j.imm = i.imm

theorem Kin.refl (i : Instruction) : Kin i i := ⟨rfl, rfl, rfl, rfl⟩

def marked (m : Bool) (i : Instruction) : Instruction :=
  { i with rex := i.rex.merge { bare := m } }

@[simp] theorem marked_false (i : Instruction) : marked false i = i := by
  obtain ⟨sizeByte, rex, opcode, modrm, imm⟩ := i
  simp [marked, Rex.merge]

theorem byteRex_isLowByte (mode : AddressingMode) (q : Register) :
    byteRex mode q = { bare := mode.wide && q.isLowByte } := by
  unfold byteRex Register.isLowByte
  split <;> simp

theorem operandByteRex_isLowByte (mode : AddressingMode) (o : Operand) :
    operandByteRex mode o = { bare := mode.wide && o.isLowByte } := by
  cases o with
  | reg q => exact byteRex_isLowByte mode q
  | _ => simp [operandByteRex, Operand.isLowByte]

/-- `x` is for a narrow host what `y` is for a wide one. If both are instructions, they differ by
the host only. Without a field of the state, they are refused alike, or they differ by the REX
byte that `m` asks for. -/
structure Tracks {α : Type} (wrap : Instruction → α) (stateless : Prop) (m : Bool)
    (x y : Except Rejection α) : Prop where
  kin : ∀ u v, x = .ok u → y = .ok v → ∃ i j, u = wrap i ∧ v = wrap j ∧ Kin i j
  marks : stateless → (∃ e, x = .error e ∧ y = .error e) ∨
    ∃ i, x = .ok (wrap i) ∧ y = .ok (wrap (marked m i))

section Blocks

variable {α β : Type} {wrap : Instruction → α} {stateless : Prop} {m : Bool}
  {x y x' y' : Except Rejection α} {r : Request} {base : BaseRegister} {value : HostAddress}
  {s : Size} {opcode : List UInt8} {rm : Operand} {q : Register} {ext : BitVec 3}

theorem tracks_error (e : Rejection) : Tracks wrap stateless m (.error e) (.error e) where
  kin u v hu := by cases hu
  marks _ := .inl ⟨e, rfl, rfl⟩

theorem tracks_unsupported : Tracks wrap stateless m (unsupported r) (unsupported r) :=
  tracks_error _

theorem tracks_same (x : Except Rejection Instruction) : Tracks id stateless false x x where
  kin u v hu hv := by
    cases hu.symm.trans hv
    exact ⟨u, u, rfl, rfl, .refl u⟩
  marks _ := by
    cases x with
    | error e => exact .inl ⟨e, rfl, rfl⟩
    | ok i => exact .inr ⟨i, rfl, by rw [marked_false]; rfl⟩

theorem tracks_ok {i j : Instruction} (hk : Kin i j) (hm : j = marked m i) :
    Tracks wrap stateless m (.ok (wrap i)) (.ok (wrap j)) where
  kin u v hu hv := by
    cases hu
    cases hv
    exact ⟨i, j, rfl, rfl, hk⟩
  marks _ := .inr ⟨i, rfl, by rw [hm]⟩

theorem Tracks.bind (z : Except Rejection β) {k k' : β → Except Rejection α}
    (h : ∀ u, z = .ok u → Tracks wrap stateless m (k u) (k' u)) :
    Tracks wrap stateless m (z >>= k) (z >>= k') := by
  cases z with
  | error e => exact tracks_error e
  | ok u => exact h u rfl

theorem Tracks.ite (c : Prop) [Decidable c] (hx : c → Tracks wrap stateless m x y)
    (hy : ¬ c → Tracks wrap stateless m x' y') :
    Tracks wrap stateless m (if c then x else x') (if c then y else y') := by
  by_cases hc : c
  · simpa only [if_pos hc] using hx hc
  · simpa only [if_neg hc] using hy hc

theorem Tracks.map {x y : Except Rejection Instruction} {g : Instruction → α}
    {f : Instruction → Instruction} (h : Tracks id stateless m x y)
    (hg : ∀ i, g i = wrap (f i)) (hk : ∀ i j, Kin i j → Kin (f i) (f j))
    (hm : ∀ i, f (marked m i) = marked m (f i)) :
    Tracks wrap stateless m (do return g (← x)) (do return g (← y)) where
  kin u v hu hv := by
    obtain ⟨i, rfl, hi⟩ := bind_eq_ok.mp hu
    obtain ⟨j, rfl, hj⟩ := bind_eq_ok.mp hv
    obtain ⟨_, _, rfl, rfl, hkin⟩ := h.kin i j rfl rfl
    cases hi
    cases hj
    exact ⟨f i, f j, hg i, hg j, hk i j hkin⟩
  marks hs := by
    rcases h.marks hs with ⟨e, rfl, rfl⟩ | ⟨i, rfl, rfl⟩
    · exact .inl ⟨e, rfl, rfl⟩
    · refine .inr ⟨f i, congrArg Except.ok (hg i), ?_⟩
      rw [← hm]
      exact congrArg Except.ok (hg _)

theorem Tracks.written {x y : Except Rejection Instruction} (h : Tracks id stateless m x y) :
    Tracks some stateless m (do return some (← x)) (do return some (← y)) :=
  h.map (f := id) (fun _ => rfl) (fun _ _ => id) fun _ => rfl

theorem Tracks.addImmediate {x y : Except Rejection Instruction} (h : Tracks id stateless m x y)
    (t : Size) (v : Int64) :
    Tracks wrap stateless m (do return wrap (Encoding.addImmediate (← x) t v))
      (do return wrap (Encoding.addImmediate (← y) t v)) :=
  h.map (f := fun i => Encoding.addImmediate i t v) (fun _ => rfl)
    (fun _ _ hk => { hk with imm := rfl }) fun _ => rfl

/-- On a wide host, a register that is read as a byte may ask for a REX byte. -/
theorem Tracks.operandByte {x y : Except Rejection Instruction}
    (h : Tracks id stateless false x y) (o : Operand) :
    Tracks id stateless o.isLowByte
      (do let i ← x; return { i with rex := i.rex.merge (operandByteRex .absolute o) })
      (do
        let i ← y
        return { i with
          rex := i.rex.merge (operandByteRex (.baseRelative base value) o) }) where
  kin u v hu hv := by
    obtain ⟨i, rfl, hi⟩ := bind_eq_ok.mp hu
    obtain ⟨j, rfl, hj⟩ := bind_eq_ok.mp hv
    obtain ⟨_, _, rfl, rfl, hk⟩ := h.kin i j rfl rfl
    cases hi
    cases hj
    exact ⟨_, _, rfl, rfl, { hk with }⟩
  marks hs := by
    rcases h.marks hs with ⟨e, rfl, rfl⟩ | ⟨i, rfl, rfl⟩
    · exact .inl ⟨e, rfl, rfl⟩
    · refine .inr ⟨_, rfl, congrArg Except.ok ?_⟩
      simp [marked, operandByteRex_isLowByte, AddressingMode.wide, Rex.merge]

theorem ofOperand_congr (h : ∀ a, rm ≠ .state a) (mode mode' : AddressingMode) :
    RM.ofOperand mode rm = RM.ofOperand mode' rm := by
  cases rm with
  | state a => exact absurd rfl (h a)
  | reg q => cases q <;> rfl
  | _ => rfl

theorem tracks_ofOperand (hrm : stateless → ∀ a, rm ≠ .state a) {f f' : RM → Instruction}
    (hk : ∀ n n', Kin (f n) (f' n')) (hm : ∀ n, f' n = marked m (f n)) :
    Tracks id stateless m (do return f (← RM.ofOperand .absolute rm))
      (do return f' (← RM.ofOperand (.baseRelative base value) rm)) where
  kin u v hu hv := by
    obtain ⟨n, -, hu⟩ := bind_eq_ok.mp hu
    obtain ⟨n', -, hv⟩ := bind_eq_ok.mp hv
    cases hu
    cases hv
    exact ⟨_, _, rfl, rfl, hk n n'⟩
  marks hs := by
    rw [ofOperand_congr (hrm hs) (.baseRelative base value) .absolute]
    cases RM.ofOperand .absolute rm with
    | error e => exact .inl ⟨e, rfl, rfl⟩
    | ok n => exact .inr ⟨f n, rfl, congrArg Except.ok (hm n)⟩

theorem withRegister_tracks (hrm : stateless → ∀ a, rm ≠ .state a)
    (hm : m = (s = .byte && (rm.isLowByte || q.isLowByte))) :
    Tracks id stateless m (withRegister .absolute s opcode rm q)
      (withRegister (.baseRelative base value) s opcode rm q) := by
  refine .bind (generalPurpose q) fun g _ =>
    tracks_ofOperand hrm (fun n n' => ⟨rfl, rfl, rfl, rfl⟩) fun n => ?_
  subst hm
  by_cases hb : s = .byte <;>
    simp [hb, marked, operandByteRex_isLowByte, byteRex_isLowByte, AddressingMode.wide, Rex.merge]

theorem withExtension_tracks (hrm : stateless → ∀ a, rm ≠ .state a)
    (hm : m = (s = .byte && rm.isLowByte)) :
    Tracks id stateless m (withExtension .absolute s opcode rm ext)
      (withExtension (.baseRelative base value) s opcode rm ext) := by
  refine tracks_ofOperand hrm (fun n n' => ⟨rfl, rfl, rfl, rfl⟩) fun n => ?_
  subst hm
  by_cases hb : s = .byte <;>
    simp [hb, marked, operandByteRex_isLowByte, AddressingMode.wide, Rex.merge]

theorem withRegister_tracks_of_ne (hs : s ≠ .byte) (hrm : stateless → ∀ a, rm ≠ .state a) :
    Tracks id stateless false (withRegister .absolute s opcode rm q)
      (withRegister (.baseRelative base value) s opcode rm q) :=
  withRegister_tracks hrm (by simp [hs])

theorem eq_byte_iff {bits : UInt8} (h : Size.ofBits? bits = some s) : s = .byte ↔ bits = 8 := by
  obtain rfl := Processor.ofBits?_eq_some h
  cases s <;> decide

theorem Tracks.sized {k k' : Size → Except Rejection α}
    (h : ∀ s, (s = .byte ↔ r.width = 8) → Tracks wrap stateless m (k s) (k' s)) :
    Tracks wrap stateless m (sizeOf r >>= k) (sizeOf r >>= k') :=
  .bind _ fun s hs => h s (eq_byte_iff (Processor.sizeOf_ok hs))

theorem Tracks.wideSized {k k' : Size → Except Rejection α}
    (h : ∀ s, s ≠ .byte → r.width ≠ 8 → Tracks wrap stateless m (k s) (k' s)) :
    Tracks wrap stateless m (wideSizeOf r >>= k) (wideSizeOf r >>= k') := by
  refine .bind _ fun s hs => ?_
  obtain ⟨hbits, hne⟩ := Processor.wideSizeOf_ok hs
  exact h s hne fun h8 => hne ((eq_byte_iff hbits).mpr h8)

end Blocks

/-! ## Families -/

section Families

variable {r : Request} {base : BaseRegister} {value : HostAddress} {s : Size}

theorem namesLowByte_eq (hop : r.byteOperands = if r.width = 8 then [r.dst, r.src] else [])
    (hs : s = .byte ↔ r.width = 8) :
    r.namesLowByte = (s = .byte && (r.dst.isLowByte || r.src.isLowByte)) := by
  rw [Request.namesLowByte, hop]
  by_cases hb : s = .byte
  · simp [hb, hs.mp hb]
  · simp [hb, mt hs.mpr hb]

theorem alu_tracks (o : Alu) (hop : r.op = .alu o) :
    Tracks id r.Stateless r.namesLowByte (alu .absolute o r)
      (alu (.baseRelative base value) o r) := by
  refine .sized fun s hs => ?_
  have hlow := namesLowByte_eq (by rw [Request.byteOperands, hop]) hs
  obtain ⟨op, width, cond, dst, src, aux⟩ := r
  dsimp only at hlow ⊢
  cases src with
  | reg q =>
    exact .ite _ (fun _ => withRegister_tracks (fun h => h.dst) hlow) fun _ => tracks_unsupported
  | imm v bits =>
    have hdst := hlow.trans (congrArg _ (Bool.or_false _))
    refine .ite _ (fun _ => tracks_unsupported) fun _ => .ite _ (fun hb => ?_) fun hb =>
      .ite _ (fun _ => ?_) fun _ => .ite _ (fun _ => ?_) fun _ => ?_
    · exact (withExtension_tracks (fun h => h.dst) hdst).addImmediate .byte v
    · exact (withExtension_tracks (fun h => h.dst) hdst).addImmediate .byte v
    -- the short form for the accumulator is not for bytes
    · rw [hlow, decide_eq_false hb, Bool.false_and]
      exact tracks_same _
    · exact (withExtension_tracks (fun h => h.dst) hdst).addImmediate s.immediate v
  | _ =>
    cases dst with
    | reg d =>
      -- the source is the r/m operand, and the destination the register beside it
      rw [Bool.or_comm] at hlow
      exact .ite _ (fun _ => withRegister_tracks (fun h => h.src) hlow) fun _ => tracks_unsupported
    | _ => exact tracks_unsupported

theorem mov_tracks (hop : r.op = .mov) (hr : ¬ r.IsIdle) :
    Tracks some r.Stateless r.namesLowByte (mov .absolute r)
      (mov (.baseRelative base value) r) := by
  refine .sized fun s hs => ?_
  have hlow := namesLowByte_eq (by rw [Request.byteOperands, hop]) hs
  obtain ⟨op, width, cond, dst, src, aux⟩ := r
  dsimp only at hlow ⊢
  cases dst with
  | reg d =>
    cases src with
    | reg q =>
      have hne : d ≠ q := by
        rintro rfl
        exact hr ⟨hop, rfl, rfl⟩
      simp only [decide_eq_false hne, Bool.false_and, Bool.false_eq_true, if_false]
      exact (withRegister_tracks (fun h => h.dst) hlow).written
    | imm v bits =>
      have hdst := hlow.trans (congrArg _ (Bool.or_false _))
      refine .ite _ (fun _ => ?_) fun _ => .ite _ (fun _ => tracks_unsupported) fun _ => ?_
      · exact (withExtension_tracks (fun h => h.dst) hdst).addImmediate .dword v
      · refine .bind (generalPurpose d) fun g _ => tracks_ok ⟨rfl, rfl, rfl, rfl⟩ ?_
        rw [hdst]
        by_cases hb : s = .byte <;>
          simp [hb, marked, Encoding.addImmediate, Operand.isLowByte, byteRex_isLowByte,
            AddressingMode.wide, Rex.merge]
    | _ =>
      rw [Bool.or_comm] at hlow
      exact .ite _ (fun _ => (withRegister_tracks (fun h => h.src) hlow).written)
        fun _ => tracks_unsupported
  | _ =>
    cases src with
    | reg q =>
      exact .ite _ (fun _ => (withRegister_tracks (fun h => h.dst) hlow).written)
        fun _ => tracks_unsupported
    | imm v bits =>
      have hdst := hlow.trans (congrArg _ (Bool.or_false _))
      exact .ite _ (fun _ => tracks_unsupported) fun _ =>
        (withExtension_tracks (fun h => h.dst) hdst).addImmediate s.immediate v
    | _ => exact tracks_unsupported

theorem test_tracks (hop : r.op = .test) :
    Tracks id r.Stateless r.namesLowByte (test .absolute r)
      (test (.baseRelative base value) r) := by
  refine .sized fun s hs => .ite _ (fun _ => tracks_unsupported) fun _ => ?_
  have hlow := namesLowByte_eq (by rw [Request.byteOperands, hop]) hs
  obtain ⟨op, width, cond, dst, src, aux⟩ := r
  dsimp only at hlow ⊢
  cases src with
  | reg q => exact withRegister_tracks (fun h => h.dst) hlow
  | imm v bits =>
    have hdst := hlow.trans (congrArg _ (Bool.or_false _))
    refine .ite _ (fun _ => tracks_unsupported) fun _ => .ite _ (fun hb => ?_) fun _ => ?_
    · simp only [Bool.and_eq_true, decide_eq_true_eq] at hb
      rw [hlow, decide_eq_false hb.1, Bool.false_and]
      exact tracks_same _
    · exact (withExtension_tracks (fun h => h.dst) hdst).addImmediate s.immediate v
  | _ => exact tracks_unsupported

theorem single_tracks (opcode : UInt8) (ext : BitVec 3)
    (hop : r.byteOperands = if r.width = 8 then [r.dst, r.src] else []) :
    Tracks id r.Stateless r.namesLowByte (single .absolute opcode ext r)
      (single (.baseRelative base value) opcode ext r) := by
  refine .sized fun s hs => .ite _ (fun hform => ?_) fun _ => tracks_unsupported
  have hlow := namesLowByte_eq hop hs
  have hsrc : r.src.isLowByte = false := by
    cases hr : r.src with
    | none => rfl
    | _ => simp [hr, Operand.isNone] at hform
  rw [hsrc, Bool.or_false] at hlow
  exact withExtension_tracks (fun h => h.dst) hlow

theorem imul_tracks (hop : r.op = .imul) :
    Tracks id r.Stateless r.namesLowByte (imul .absolute r)
      (imul (.baseRelative base value) r) := by
  have hbytes : r.byteOperands = if r.width = 8 then [r.dst, r.src] else [] := by
    rw [Request.byteOperands, hop]
  refine .ite _ (fun _ => single_tracks 0xf7 5 hbytes) fun _ => .wideSized fun s hs h8 => ?_
  have hlow : r.namesLowByte = false := by
    rw [Request.namesLowByte, hbytes, if_neg h8]
    rfl
  rw [hlow]
  obtain ⟨op, width, cond, dst, src, aux⟩ := r
  cases dst with
  | reg d =>
    refine .ite _ (fun _ => tracks_unsupported) fun _ => ?_
    cases aux with
    | none => exact withRegister_tracks_of_ne hs fun h => h.src
    | imm v bits =>
      refine .ite _ (fun _ => ?_) fun _ => ?_
      · exact (withRegister_tracks_of_ne hs fun h => h.src).addImmediate .byte v
      · exact (withRegister_tracks_of_ne hs fun h => h.src).addImmediate s.immediate v
    | _ => exact tracks_unsupported
  | _ => exact tracks_unsupported

theorem shift_tracks (o : Shift) (hop : r.op = .shift o) :
    Tracks id r.Stateless r.namesLowByte (shift .absolute o r)
      (shift (.baseRelative base value) o r) := by
  refine .sized fun s hs => .ite _ (fun _ => tracks_unsupported) fun _ => ?_
  have hlow := namesLowByte_eq (by rw [Request.byteOperands, hop]) hs
  obtain ⟨op, width, cond, dst, src, aux⟩ := r
  dsimp only at hlow ⊢
  cases src with
  | imm v bits =>
    have hdst := hlow.trans (congrArg _ (Bool.or_false _))
    exact (withExtension_tracks (fun h => h.dst) hdst).addImmediate .byte v
  | reg q =>
    cases q with
    | gpr g =>
      cases g with
      | cx => exact withExtension_tracks (fun h => h.dst) (hlow.trans (congrArg _ (Bool.or_false _)))
      | _ => exact tracks_unsupported
    | _ => exact tracks_unsupported
  | _ => exact tracks_unsupported

theorem doubleShift_tracks (o : DoubleShift) :
    Tracks id r.Stateless false (doubleShift .absolute o r)
      (doubleShift (.baseRelative base value) o r) := by
  refine .wideSized fun s hs _ => ?_
  obtain ⟨op, width, cond, dst, src, aux⟩ := r
  cases src with
  | reg q =>
    refine .ite _ (fun _ => tracks_unsupported) fun _ => ?_
    cases aux with
    | imm v bits => exact (withRegister_tracks_of_ne hs fun h => h.dst).addImmediate .byte v
    | reg c =>
      cases c with
      | gpr g =>
        cases g with
        | cx => exact withRegister_tracks_of_ne hs fun h => h.dst
        | _ => exact tracks_unsupported
      | _ => exact tracks_unsupported
    | _ => exact tracks_unsupported
  | _ => exact tracks_unsupported

theorem extend_tracks (o : Extend) (hop : r.op = .extend o) :
    Tracks id r.Stateless r.namesLowByte (extend .absolute o r)
      (extend (.baseRelative base value) o r) := by
  refine .sized fun s _ => .ite _ (fun _ => tracks_error _) fun hlong => ?_
  have hs : s ≠ .byte := by
    rintro rfl
    cases o <;> exact hlong (by decide)
  dsimp only
  split
  · refine .ite _ (fun _ => tracks_unsupported) fun _ => ?_
    have hform (d : Register) : Tracks id r.Stateless false
        (withRegister .absolute s (extendOpcode o) r.src d)
        (withRegister (.baseRelative base value) s (extendOpcode o) r.src d) :=
      withRegister_tracks_of_ne hs fun h => h.src
    have hlow : r.namesLowByte = (extendSource o = .byte && r.src.isLowByte) := by
      cases o <;> simp [Request.namesLowByte, Request.byteOperands, hop, extendSource]
    by_cases hb : extendSource o = .byte
    · simp only [hb, if_true, hlow, decide_true, Bool.true_and]
      exact (hform _).operandByte r.src
    · simp only [hb, if_false, hlow, decide_false, Bool.false_and]
      exact (hform _).map (fun _ => rfl) (fun _ _ => id) fun _ => rfl
  · exact tracks_unsupported

theorem lea_tracks :
    Tracks id r.Stateless false (lea .absolute r) (lea (.baseRelative base value) r) := by
  refine .wideSized fun s hs _ => ?_
  split
  · exact .ite _ (fun _ => withRegister_tracks_of_ne hs fun h => h.src) fun _ => tracks_unsupported
  · exact tracks_unsupported

theorem setcc_tracks (hop : r.op = .setcc) :
    Tracks id r.Stateless r.namesLowByte (setcc .absolute r)
      (setcc (.baseRelative base value) r) := by
  refine .ite _ (fun _ => tracks_error _) fun _ => .bind _ fun c _ =>
    .ite _ (fun _ => withExtension_tracks (fun h => h.dst) ?_) fun _ => tracks_unsupported
  rw [Request.namesLowByte, Request.byteOperands, hop]
  exact Bool.or_false _

theorem cmovcc_tracks :
    Tracks id r.Stateless false (cmovcc .absolute r) (cmovcc (.baseRelative base value) r) := by
  refine .wideSized fun s hs _ => .bind _ fun c _ => ?_
  split
  · exact .ite _ (fun _ => withRegister_tracks_of_ne hs fun h => h.src) fun _ => tracks_unsupported
  · exact tracks_unsupported

theorem transfer_tracks (o : Transfer) :
    Tracks id r.Stateless false (transfer .absolute o r)
      (transfer (.baseRelative base value) o r) :=
  .ite _ (fun _ => withExtension_tracks (fun h => h.dst) rfl) fun _ => tracks_unsupported

theorem floatMemory_tracks (o : FloatMemory) :
    Tracks id r.Stateless false (floatMemory .absolute o r)
      (floatMemory (.baseRelative base value) o r) := by
  refine .bind _ fun place hplace => .ite _ (fun _ => tracks_unsupported) fun _ => ?_
  have hstate (h : r.Stateless) (a : HostAddress) : place ≠ .state a := by
    rw [← Processor.floatOperand_ok hplace]
    split
    · exact h.src a
    · exact h.dst a
  split
  · exact withExtension_tracks hstate rfl
  · exact tracks_error _

theorem Tracks.unmarked {x y : Except Rejection Instruction} (h : Tracks id r.Stateless false x y)
    (hop : r.byteOperands = []) :
    Tracks some r.Stateless r.namesLowByte (do return some (← x)) (do return some (← y)) := by
  rw [Request.namesLowByte, hop]
  exact h.written

theorem family_tracks (hr : ¬ r.IsIdle) (hop : r.op ≠ .movabs) :
    ∀ x, family .absolute r = some x →
      ∃ y, family (.baseRelative base value) r = some y ∧
        Tracks some r.Stateless r.namesLowByte x y := by
  have hsome {x y : Except Rejection (Option Instruction)}
      (h : Tracks some r.Stateless r.namesLowByte x y) :
      ∀ x', some x = some x' →
        ∃ y', some y = some y' ∧ Tracks some r.Stateless r.namesLowByte x' y' := by
    intro x' hx
    cases hx
    exact ⟨y, rfl, h⟩
  unfold family
  split
  · intro x h
    cases h
  · intro x h
    cases h
  · next hop => exact hsome (alu_tracks _ hop).written
  · next hop => exact hsome (mov_tracks hop hr)
  · next h => exact absurd h hop
  · next hop => exact hsome (test_tracks hop).written
  · next hop => exact hsome (single_tracks _ _ (by rw [Request.byteOperands, hop])).written
  · next hop => exact hsome (imul_tracks hop).written
  · next hop => exact hsome (single_tracks _ _ (by rw [Request.byteOperands, hop])).written
  · next hop => exact hsome (shift_tracks _ hop).written
  · next hop => exact hsome ((doubleShift_tracks _).unmarked (by rw [Request.byteOperands, hop]))
  · next hop => exact hsome (extend_tracks _ hop).written
  · next hop => exact hsome (lea_tracks.unmarked (by rw [Request.byteOperands, hop]))
  · next hop => exact hsome (setcc_tracks hop).written
  · next hop => exact hsome (cmovcc_tracks.unmarked (by rw [Request.byteOperands, hop]))
  · next hop => exact hsome ((tracks_same _).unmarked (by rw [Request.byteOperands, hop]))
  · next hop => exact hsome ((transfer_tracks _).unmarked (by rw [Request.byteOperands, hop]))
  · next hop => exact hsome ((tracks_same _).unmarked (by rw [Request.byteOperands, hop]))
  · next hop => exact hsome ((tracks_same _).unmarked (by rw [Request.byteOperands, hop]))
  · next hop => exact hsome ((floatMemory_tracks _).unmarked (by rw [Request.byteOperands, hop]))
  · next hop => exact hsome ((tracks_same _).unmarked (by rw [Request.byteOperands, hop]))

/-- The accumulator is moved to or from a full address, which is as long as the addresses of the
host. -/
theorem movabs_ok {i : Instruction} (h : movabs .absolute r = .ok i) (base : BaseRegister)
    (value : HostAddress) :
    ∃ a j, (r.dst = .abs a ∨ r.src = .abs a) ∧ i = addImmediate j .dword a.toInt64 ∧
      movabs (.baseRelative base value) r = .ok (addImmediate j .qword a.toInt64) := by
  unfold movabs at h ⊢
  obtain ⟨s, hs, h⟩ := bind_eq_ok.mp h
  rw [hs]
  obtain ⟨op, width, cond, dst, src, aux⟩ := r
  dsimp only at h
  split at h
  · obtain ⟨rfl, -⟩ := Processor.movabs_finish_ok h
    exact ⟨_, bare s _, .inr rfl, rfl, rfl⟩
  · obtain ⟨rfl, -⟩ := Processor.movabs_finish_ok h
    exact ⟨_, bare s _, .inl rfl, rfl, rfl⟩
  · cases h

end Families

/-! ## Both hosts -/

section Hosts

open Processor

variable {r : Request} {base : BaseRegister} {value : HostAddress} {i j : Instruction}

/-- Without a REX byte, an instruction begins with its size byte, if it has one. With an empty
REX byte, that follows the size byte. -/
theorem bytes_marked (hi : i.rex.needed = false) (m : Bool) :
    ∃ rest, i.bytes = (if i.sizeByte then [0x66] else []) ++ rest ∧
      (marked m i).bytes =
        (if i.sizeByte then [0x66] else []) ++ (if m then [0x40] else []) ++ rest := by
  obtain ⟨sizeByte, ⟨w, r, x, b, bare⟩, opcode, modrm, imm⟩ := i
  simp only [Rex.needed, Bool.or_eq_false_iff] at hi
  obtain ⟨⟨⟨⟨rfl, rfl⟩, rfl⟩, rfl⟩, rfl⟩ := hi
  have hempty : Rex.byte { bare := true } = 0x40 := by decide
  refine ⟨Instruction.bytes ⟨false, {}, opcode, modrm, imm⟩, ?_, ?_⟩
  · cases sizeByte <;> rfl
  · cases sizeByte <;> cases m <;>
      simp [marked, Rex.merge, Instruction.bytes, Instruction.fields, Rex.needed, hempty]

theorem encode_of_stateless (hr : ¬ r.IsIdle) (hop : r.op ≠ .movabs) (hs : r.Stateless)
    (h : encode .absolute r = .ok (some i)) :
    encode (.baseRelative base value) r = .ok (some (marked r.namesLowByte i)) := by
  obtain ⟨hfamily, -⟩ := encode_eq_some_iff.mp h
  obtain ⟨y, hy, ht⟩ := family_tracks hr hop _ hfamily
  rcases ht.marks hs with ⟨e, he, -⟩ | ⟨i', hi', rfl⟩
  · cases he
  · cases hi'
    exact encode_eq_some_iff.mpr ⟨hy, fun _ => rfl⟩

theorem kin_of_encode (hr : ¬ r.IsIdle) (hop : r.op ≠ .movabs)
    (hi : encode .absolute r = .ok (some i))
    (hj : encode (.baseRelative base value) r = .ok (some j)) : Kin i j := by
  obtain ⟨hfi, -⟩ := encode_eq_some_iff.mp hi
  obtain ⟨hfj, -⟩ := encode_eq_some_iff.mp hj
  obtain ⟨y, hy, ht⟩ := family_tracks hr hop _ hfi
  obtain rfl := Option.some.inj (hy.symm.trans hfj)
  obtain ⟨_, _, hi', hj', hk⟩ := ht.kin _ _ rfl rfl
  cases hi'
  cases hj'
  exact hk

theorem exists_of_encode {mode : AddressingMode} {o : Option Instruction} (hr : ¬ r.IsIdle)
    (h : encode mode r = .ok o) : ∃ i, o = some i := by
  cases o with
  | none => exact absurd (isIdle_of_encode_eq_none h) hr
  | some i => exact ⟨i, rfl⟩

theorem encode_movabs_iff {mode : AddressingMode} (hop : r.op = .movabs) :
    encode mode r = .ok (some i) ↔
      movabs mode r = .ok i ∧ (i.rex.needed = true → mode.wide = true) := by
  rw [encode_eq_some_iff]
  refine and_congr_left fun _ => ?_
  simp only [family, hop]
  refine ⟨written_ok, fun h => ?_⟩
  rw [h]
  rfl

/-- What a narrow host accepts, a wide host accepts. Without fields of the state and full
addresses, the bytes are the same, but for the empty REX byte that names the low byte of a
register. In any case the size byte, the opcode, the middle of the ModRM byte and the constant
are the same, except that a full address is as long as the addresses of the host. -/
theorem encodings_agree (r : Request) (hr : ¬ r.IsIdle) (base : BaseRegister)
    (value : HostAddress) :
    ((∀ p ∈ r.operands, ∀ a, p ≠ .state a ∧ p ≠ .abs a) →
      ∀ o, encode .absolute r = .ok o →
        ∃ i j rest, o = some i ∧ encode (.baseRelative base value) r = .ok (some j) ∧
          i.bytes = (if i.sizeByte then [0x66] else []) ++ rest ∧
          j.bytes = (if i.sizeByte then [0x66] else []) ++
            (if r.namesLowByte then [0x40] else []) ++ rest) ∧
    (r.op ≠ .movabs →
      ∀ o o', encode .absolute r = .ok o → encode (.baseRelative base value) r = .ok o' →
        ∃ i j, o = some i ∧ o' = some j ∧ Kin i j) ∧
    (r.op = .movabs →
      ∀ o, encode .absolute r = .ok o →
        ∃ i a, o = some (addImmediate i .dword a) ∧
          encode (.baseRelative base value) r = .ok (some (addImmediate i .qword a))) := by
  refine ⟨fun hp o h => ?_, fun hop o o' h h' => ?_, fun hop o h => ?_⟩
  · obtain ⟨i, rfl⟩ := exists_of_encode hr h
    obtain ⟨hdst, hsrc⟩ := Request.of_operands (by simp) hp
    have hop : r.op ≠ .movabs := by
      intro hop
      obtain ⟨a, -, ha | ha, -, -⟩ := movabs_ok ((encode_movabs_iff hop).mp h).1 base value
      · exact (hdst a).2 ha
      · exact (hsrc a).2 ha
    have hrex : i.rex.needed = false := by
      cases hn : i.rex.needed with
      | false => rfl
      | true => cases (encode_eq_some_iff.mp h).2 hn
    obtain ⟨rest, hi, hj⟩ := bytes_marked hrex r.namesLowByte
    exact ⟨i, _, rest, rfl,
      encode_of_stateless hr hop ⟨fun a => (hdst a).1, fun a => (hsrc a).1⟩ h, hi, hj⟩
  · obtain ⟨i, rfl⟩ := exists_of_encode hr h
    obtain ⟨j, rfl⟩ := exists_of_encode hr h'
    exact ⟨i, j, rfl, rfl, kin_of_encode hr hop h h'⟩
  · obtain ⟨i, rfl⟩ := exists_of_encode hr h
    obtain ⟨a, j, -, rfl, hj⟩ := movabs_ok ((encode_movabs_iff hop).mp h).1 base value
    exact ⟨j, a.toInt64, rfl, (encode_movabs_iff hop).mpr ⟨hj, fun _ => rfl⟩⟩

/-- A byte is extended to 16 bits, with a size byte before the empty REX byte, and a field of the
state is added. -/
theorem encodings_agree_low_byte :
    (∃ i j rest,
      encode .absolute
          { op := .extend .movzxb, width := 16, dst := .reg (.gpr .ax), src := .reg (.gpr .si) } =
        .ok (some i) ∧
      encode (.baseRelative ⟨.r14, by decide⟩ 0x1000)
          { op := .extend .movzxb, width := 16, dst := .reg (.gpr .ax), src := .reg (.gpr .si) } =
        .ok (some j) ∧
      i.bytes = 0x66 :: rest ∧ j.bytes = 0x66 :: 0x40 :: rest) ∧
    ∃ i j,
      encode .absolute
          { op := .alu .add, width := 32, dst := .reg (.gpr .ax), src := .state 0x1010 } =
        .ok (some i) ∧
      encode (.baseRelative ⟨.r14, by decide⟩ 0x1000)
          { op := .alu .add, width := 32, dst := .reg (.gpr .ax), src := .state 0x1010 } =
        .ok (some j) ∧ Kin i j := by
  constructor
  · obtain ⟨i, j, rest, hi, hj, hibytes, hjbytes⟩ :=
      (encodings_agree
        { op := .extend .movzxb, width := 16, dst := .reg (.gpr .ax), src := .reg (.gpr .si) }
        (by decide) ⟨.r14, by decide⟩ 0x1000).1
        (by simp [Request.operands, Operand.isNone]) _ rfl
    cases hi
    exact ⟨_, j, rest, rfl, hj, hibytes, hjbytes⟩
  · obtain ⟨i, j, hi, hj, hk⟩ :=
      (encodings_agree
        { op := .alu .add, width := 32, dst := .reg (.gpr .ax), src := .state 0x1010 }
        (by decide) ⟨.r14, by decide⟩ 0x1000).2.1 (by decide) _ _ rfl rfl
    cases hi
    cases hj
    exact ⟨_, _, rfl, rfl, hk⟩

/-- How long a full address is depends on the host. The move of one should refuse a third operand,
and overlooks it, so that a request can have a field of the state there. -/
theorem address_lengths_differ :
    ¬ ∀ (r : Request) (base : BaseRegister) (value : HostAddress) (i j : Instruction),
      (∃ a, .state a ∈ r.operands) → encode .absolute r = .ok (some i) →
      encode (.baseRelative base value) r = .ok (some j) → j.imm = i.imm := by
  intro h
  have himm := h
    { op := .movabs, width := 32, dst := .reg (.gpr .ax), src := .abs 0x1000, aux := .state 0 }
    ⟨.r14, by decide⟩ 0 _ _ ⟨0, by decide⟩ rfl rfl
  revert himm
  decide

end Hosts

end Encoding

end HostCode
