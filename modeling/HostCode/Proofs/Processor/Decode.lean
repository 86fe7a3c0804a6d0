import Mathlib.Algebra.Group.Nat.Defs
import Mathlib.Data.List.Forall2
import HostCode.Addressing
import HostCode.Request
import HostCode.Proofs.Processor.OpcodeMap

/-! # Decoding

An instruction as the processor understands it, and when that is what was asked for. A request
leaves some things open, such as the length of a constant, and names others in another way,
such as a field of the state by its address.
-/

namespace HostCode

def Gpr.ofCode (c : BitVec 4) : Gpr := Gpr.all.getD c.toNat .ax

theorem Gpr.ofCode_low (r : Gpr) : ofCode (BitVec.ofBool r.extended ++ r.low) = r := by
  cases r <;> decide

def Displacement.value : Displacement → Int32
  | none => 0
  | byte v => v.toInt32
  | dword v => v

namespace Processor

structure Address where
  base : Option Gpr
  index : Option (Gpr × Nat)
  disp : Int32
  deriving DecidableEq, Repr

inductive Place
  | register (r : Gpr) (s : Size)
  /-- The second byte of a register. -/
  | high (r : Gpr)
  | float (i : BitVec 3)
  | memory (s : Size) (a : Address)
  /-- Memory at a distance from the next instruction. -/
  | relative (s : Size) (disp : Int32)
  /-- Memory at an address that is a part of the instruction. -/
  | absolute (s : Size) (address : Nat)
  | constant (s : Size) (value : Nat)
  deriving DecidableEq, Repr

structure Decoded where
  op : Op
  width : Option Size
  cond : Option Flag
  operands : List Place
  deriving DecidableEq, Repr

/-- The register with a number. Without a REX byte, the numbers from four to seven stand for
the second bytes of the first four registers when they are bytes. -/
def register (extended : Bool) (s : Size) (c : BitVec 4) : Place :=
  if s = .byte ∧ extended = false ∧ 4 ≤ c ∧ c < 8 then .high (.ofCode (c - 4))
  else .register (.ofCode c) s

/-- The index and its scale. Four as the number of an index means that there is none. -/
def indexOf (x : Bool) (sib : Sib) : Option (Gpr × Nat) :=
  if BitVec.ofBool x ++ sib.index = 4 then none
  else some (.ofCode (BitVec.ofBool x ++ sib.index), 2 ^ sib.scale.toNat)

def rmPlace (wide extended : Bool) (s : Size) (m : RM) : Place :=
  if m.mod = 3 then register extended s (BitVec.ofBool m.b ++ m.rm) else
  match m.sib with
  | none =>
    if m.mod = 0 ∧ m.rm = 5 then
      if wide then .relative s m.disp.value else .memory s ⟨none, none, m.disp.value⟩
    else .memory s ⟨some (.ofCode (BitVec.ofBool m.b ++ m.rm)), none, m.disp.value⟩
  | some sib =>
    .memory s {
      base := if m.mod = 0 ∧ sib.base = 5 then none
        else some (.ofCode (BitVec.ofBool m.b ++ sib.base))
      index := indexOf m.x sib
      disp := m.disp.value }

namespace Arg

def constantSize : Arg → Option Size
  | constant s => some s
  | offset address _ => some address
  | _ => none

def place (wide : Bool) (f : Fields) (value : Nat) : Arg → Option Place
  | rm s => f.modrm.map fun (_, m) => rmPlace wide f.rex.bare s m
  | reg s => f.modrm.map fun (field, _) =>
    register f.rex.bare s (BitVec.ofBool f.rex.r ++ field)
  | embedded s => f.opcode.head?.map fun b =>
    register f.rex.bare s (BitVec.ofBool f.rex.b ++ b.toBitVec.extractLsb' 0 3)
  | accumulator s => some (.register .ax s)
  | counter => some (.register .cx .byte)
  | constant s => some (.constant s value)
  | offset _ s => some (.absolute s value)
  | float => f.modrm.map fun (_, m) => .float m.rm

end Arg

def takeConstant : Option Size → List UInt8 → Option (Nat × List UInt8)
  | none, bytes => some (0, bytes)
  | some s, bytes => takeNumber s.bytes bytes

/-- The instruction at the start of the bytes, and the bytes after it. -/
def decode (wide : Bool) (bytes : List UInt8) : Option (Decoded × List UInt8) :=
  match takeFields wide bytes with
  | none => none
  | some (f, bytes) =>
    match lookup wide f.size f.opcode f.modrm with
    | none => none
    | some e =>
      match takeConstant (e.args.findSome? Arg.constantSize) bytes with
      | none => none
      | some (value, bytes) =>
        (e.args.mapM (Arg.place wide f value)).map fun operands =>
          (⟨e.op, e.width, e.cond, operands⟩, bytes)

def constantOf (i : Instruction) : Nat :=
  (i.imm.map fun c => c.value.toUInt64.toNat % 2 ^ c.size.bits).getD 0

theorem two_pow_bits (s : Size) : 2 ^ s.bits = Nat.pow 256 s.bytes := by cases s <;> decide

theorem takeConstant_field (i : Instruction) (tail : List UInt8) :
    takeConstant (i.imm.map (·.size)) ((i.imm.map (·.field)).toList.flatten ++ tail) =
      some (constantOf i, tail) := by
  unfold constantOf
  cases i.imm with
  | none => rfl
  | some c =>
    have hfield : ((some c).map (·.field)).toList.flatten = c.field := by simp
    rw [hfield, Option.map_some, Option.map_some, Option.getD_some, two_pow_bits]
    exact takeNumber_littleEndian _ _ tail

/-- An instruction whose fields can be read, and whose entry in the opcode map fits to its
constant, is decoded as the entry says. -/
theorem decode_bytes {wide : Bool} {i : Instruction} {e : Entry} {operands : List Place}
    (h : Readable wide i) (he : lookup wide (fieldsOf i).size i.opcode i.modrm = some e)
    (hc : e.args.findSome? Arg.constantSize = i.imm.map (·.size))
    (ho : e.args.mapM (Arg.place wide (fieldsOf i) (constantOf i)) = some operands)
    (tail : List UInt8) :
    decode wide (i.bytes ++ tail) = some (⟨e.op, e.width, e.cond, operands⟩, tail) := by
  have he' : lookup wide (fieldsOf i).size (fieldsOf i).opcode (fieldsOf i).modrm = some e := he
  rw [decode, takeFields_bytes h]
  simp only [he', hc, takeConstant_field, ho]
  rfl

/-! ## What was asked for -/

def sizeOf? (r : Request) : Option Size :=
  match r.op with
  | .setcc => some .byte
  | .transfer _ | .stack _ | .plain _ | .floatStack _ => none
  | _ => Size.ofBits? r.width

def condOf? (r : Request) : Option Flag :=
  match r.op, r.cond with
  | .setcc, .flag c | .cmovcc, .flag c => some c
  | _, _ => none

/-- The operands that a request is about, each with the size at which it is used. -/
def readsOf (wide : Bool) (r : Request) : List (Operand × Size) :=
  let s := (sizeOf? r).getD .dword
  match r.op with
  | .alu _ | .mov | .movabs | .test | .lea | .cmovcc => [(r.dst, s), (r.src, s)]
  | .unary _ | .count _ | .setcc => [(r.dst, s)]
  | .imul =>
    if r.src.isNone then [(r.dst, s)]
    else if r.aux.isNone then [(r.dst, s), (r.src, s)]
    else [(r.dst, s), (r.src, s), (r.aux, s)]
  | .shift _ => [(r.dst, s), (r.src, .byte)]
  | .doubleShift _ => [(r.dst, s), (r.src, s), (r.aux, .byte)]
  | .extend .movsxb | .extend .movzxb => [(r.dst, s), (r.src, .byte)]
  | .extend .movsxw | .extend .movzxw => [(r.dst, s), (r.src, .word)]
  | .extend .movsxd => [(r.dst, s), (r.src, .dword)]
  | .transfer _ | .stack _ => [(r.dst, hostSize wide)]
  | .floatMemory _ | .floatStack _ => [(if r.dst.isNone then r.src else r.dst, s)]
  | .none | .cdq | .plain _ | .unnamed _ => []

/-- What a register means. As bytes, the registers from SP to DI are the second bytes of the
first four on narrow hosts. -/
def registerNamed (wide : Bool) (s : Size) (r : Gpr) : Place :=
  if s = .byte ∧ wide = false then
    match r with
    | .sp => .high .ax
    | .bp => .high .cx
    | .si => .high .dx
    | .di => .high .bx
    | r => .register r s
  else .register r s

/-- The operand of a request means the operand of an instruction. -/
def Means (mode : AddressingMode) (s : Size) : Operand → Place → Prop
  | .reg (.gpr r), p => p = registerNamed mode.wide s r
  | .reg (.st i), p => p = .float (BitVec.ofFin i)
  | .imm v _, p => ∃ t, p = .constant t (v.toUInt64.toNat % 2 ^ t.bits)
  | .mem (.gpr b) .none _ disp, p => p = .memory s ⟨some b, none, disp⟩
  | .mem (.gpr b) (.gpr i) scale disp, p => p = .memory s ⟨some b, some (i, scale.toNat), disp⟩
  | .state a, p =>
    match mode with
    | .absolute => ∃ d, p = .memory s ⟨none, none, d⟩ ∧ d.toUInt32.toNat = a.toNat
    | .baseRelative b v => ∃ d, p = .memory s ⟨some b.val, none, d⟩ ∧ v.toNat + d.toInt = a.toNat
  | .abs a, p => p = .absolute s a.toNat
  | _, _ => False

/-- The instruction is the one that was asked for. -/
structure Asked (mode : AddressingMode) (r : Request) (d : Decoded) : Prop where
  op : d.op = r.op
  width : d.width = sizeOf? r
  cond : d.cond = condOf? r
  operands : List.Forall₂ (fun o => Means mode o.2 o.1) (readsOf mode.wide r) d.operands

/-- The processor finds the operand of the request in the fields of the instruction. -/
def Finds (mode : AddressingMode) (i : Instruction) (o : Operand × Size) (a : Arg) : Prop :=
  ∃ p, a.place mode.wide (fieldsOf i) (constantOf i) = some p ∧ Means mode o.2 o.1 p

theorem exists_operands {mode : AddressingMode} {i : Instruction} {os : List (Operand × Size)}
    {args : List Arg} (h : List.Forall₂ (Finds mode i) os args) :
    ∃ operands, args.mapM (Arg.place mode.wide (fieldsOf i) (constantOf i)) = some operands ∧
      List.Forall₂ (fun o => Means mode o.2 o.1) os operands := by
  induction h with
  | nil => exact ⟨[], rfl, .nil⟩
  | cons hf _ ih =>
    obtain ⟨p, hp, hmeans⟩ := hf
    obtain ⟨ps, hps, hall⟩ := ih
    exact ⟨p :: ps, by simp [hp, hps], .cons hmeans hall⟩

theorem forall₂_of_mapM {α β : Type} {f : α → Option β} {as : List α} {bs : List β}
    (h : as.mapM f = some bs) : List.Forall₂ (fun a b => f a = some b) as bs := by
  induction as generalizing bs with
  | nil =>
    cases h
    exact .nil
  | cons a as ih =>
    simp only [List.mapM_cons, Option.bind_eq_bind, Option.bind_eq_some_iff] at h
    obtain ⟨b, hb, bs', hbs, h⟩ := h
    cases h
    exact .cons hb (ih hbs)

theorem exists_mem_of_forall₂ {α β : Type} {R : α → β → Prop} {as : List α} {bs : List β}
    (h : List.Forall₂ R as bs) {a : α} (ha : a ∈ as) : ∃ b ∈ bs, R a b := by
  induction h with
  | nil => cases ha
  | cons hab _ ih =>
    rcases List.mem_cons.mp ha with rfl | ha
    · exact ⟨_, List.mem_cons_self, hab⟩
    · obtain ⟨b, hb, hab⟩ := ih ha
      exact ⟨b, List.mem_cons_of_mem _ hb, hab⟩

theorem Asked.exists_place {mode : AddressingMode} {r : Request} {d : Decoded} (h : Asked mode r d)
    {o : Operand} {s : Size} (ho : (o, s) ∈ readsOf mode.wide r) :
    ∃ p ∈ d.operands, Means mode s o p :=
  exists_mem_of_forall₂ h.operands ho

/-- The bytes of the instruction are decoded to what was asked for, and no more bytes are
read. -/
def Answers (mode : AddressingMode) (r : Request) (i : Instruction) : Prop :=
  ∃ d, Asked mode r d ∧ ∀ tail, decode mode.wide (i.bytes ++ tail) = some (d, tail)

/-- The entry is about what the request asks for, and `os` are the operands to be found. -/
structure Concerns (wide : Bool) (r : Request) (os : List (Operand × Size)) (e : Entry) : Prop where
  op : e.op = r.op
  width : e.width = sizeOf? r
  cond : e.cond = condOf? r
  reads : readsOf wide r = os

theorem Answers.of_entry {mode : AddressingMode} {r : Request} {i : Instruction} {e : Entry}
    {os : List (Operand × Size)} (h : Readable mode.wide i)
    (he : lookup mode.wide (fieldsOf i).size i.opcode i.modrm = some e)
    (hr : Concerns mode.wide r os e) (hc : e.args.findSome? Arg.constantSize = i.imm.map (·.size))
    (hargs : List.Forall₂ (Finds mode i) os e.args) : Answers mode r i := by
  obtain ⟨operands, ho, hmeans⟩ := exists_operands hargs
  rw [← hr.reads] at hmeans
  exact ⟨_, ⟨hr.op, hr.width, hr.cond, hmeans⟩, decode_bytes h he hc ho⟩

end Processor

end HostCode
