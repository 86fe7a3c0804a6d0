import HostCode.Encoding.Field

/-! # Reading the fields of an instruction

A processor reads an instruction from the left: the operand size byte, on wide hosts the REX
byte, the opcode, and with most opcodes a ModRM byte, a SIB byte and a displacement. This is
the inverse of writing the fields one after another.
-/

namespace HostCode

def Displacement.size : Displacement → Nat
  | none => 0
  | byte _ => 1
  | dword _ => 4

theorem Displacement.length_fields (d : Displacement) : d.fields.flatten.length = d.size := by
  cases d with
  | none => rfl
  | byte v => rfl
  | dword v =>
    simp only [fields, List.flatten_cons, List.flatten_nil, List.append_nil, length_littleEndian]
    rfl

def RM.size (m : RM) : Nat := m.sib.toList.length + m.disp.size + 1

theorem RM.length_fields (m : RM) (reg : BitVec 3) : (m.fields reg).flatten.length = m.size := by
  simp only [fields, List.flatten_cons, List.flatten_append, List.length_append,
    Displacement.length_fields, size]
  cases m.sib <;> exact Nat.add_comm 1 _

theorem RM.size_le (m : RM) : m.size ≤ 6 := by
  obtain ⟨mod, rm, x, b, sib, disp⟩ := m
  cases sib <;> cases disp <;> simp [size, Displacement.size]

namespace Processor

/-- The fields before the constant at the end. A REX byte that is there counts as bare. -/
structure Fields where
  word : Bool
  rex : Rex
  opcode : List UInt8
  modrm : Option (BitVec 3 × RM)
  deriving DecidableEq, Repr

def takeNumber (n : Nat) (bytes : List UInt8) : Option (Nat × List UInt8) :=
  if n ≤ bytes.length then some (ofLittleEndian (bytes.take n), bytes.drop n) else none

def takeSizeByte : List UInt8 → Bool × List UInt8
  | [] => (false, [])
  | b :: bytes => if b = 0x66 then (true, bytes) else (false, b :: bytes)

/-- The REX byte has a four in its upper half, and a bit for each of its four meanings. -/
def rexOf? (b : UInt8) : Option Rex :=
  if b.toBitVec.extractLsb' 4 4 = 4 then
    some {
      w := b.toBitVec.getLsbD 3
      r := b.toBitVec.getLsbD 2
      x := b.toBitVec.getLsbD 1
      b := b.toBitVec.getLsbD 0
      bare := true }
  else none

def takeRex (wide : Bool) : List UInt8 → Rex × List UInt8
  | [] => ({}, [])
  | b :: bytes =>
    match if wide then rexOf? b else none with
    | some rex => (rex, bytes)
    | none => ({}, b :: bytes)

/-- An opcode is one byte, or two of which the first is `0f`. -/
def takeOpcode : List UInt8 → Option (List UInt8 × List UInt8)
  | [] => none
  | b :: bytes =>
    if b = 0x0f then
      match bytes with
      | [] => none
      | c :: bytes => some ([b, c], bytes)
    else some ([b], bytes)

/-- A ModRM byte with four in its last field announces a SIB byte. -/
def takeSib (rm : BitVec 3) : List UInt8 → Option (Option Sib × List UInt8)
  | [] => if rm = 4 then none else some (none, [])
  | b :: bytes =>
    if rm = 4 then
      some (some ⟨b.toBitVec.extractLsb' 6 2, b.toBitVec.extractLsb' 3 3,
        b.toBitVec.extractLsb' 0 3⟩, bytes)
    else some (none, b :: bytes)

/-- One byte, four bytes or none. Without a displacement, five would be the base of an address
that has only a displacement. -/
def takeDisplacement (mod : BitVec 2) (base : BitVec 3) (bytes : List UInt8) :
    Option (Displacement × List UInt8) :=
  if mod = 1 then
    (takeNumber 1 bytes).map fun (v, bytes) => (.byte (UInt8.ofNat v).toInt8, bytes)
  else if mod = 2 ∨ base = 5 then
    (takeNumber 4 bytes).map fun (v, bytes) => (.dword (UInt32.ofNat v).toInt32, bytes)
  else some (.none, bytes)

def takeModRM (rex : Rex) : List UInt8 → Option ((BitVec 3 × RM) × List UInt8)
  | [] => none
  | b :: bytes =>
    let mod := b.toBitVec.extractLsb' 6 2
    let reg := b.toBitVec.extractLsb' 3 3
    let rm := b.toBitVec.extractLsb' 0 3
    if mod = 3 then some ((reg, { mod, rm, x := rex.x, b := rex.b }), bytes) else
    match takeSib rm bytes with
    | none => none
    | some (sib, bytes) =>
      match takeDisplacement mod (sib.elim rm Sib.base) bytes with
      | none => none
      | some (disp, bytes) =>
        some ((reg, { mod, rm, x := rex.x, b := rex.b, sib, disp }), bytes)

def hasModRM : List UInt8 → Bool
  | [b] =>
    b < 0x40 && b % 8 < 4 ||
      [0x63, 0x69, 0x6b, 0x80, 0x81, 0x83, 0x84, 0x85, 0x88, 0x89, 0x8a, 0x8b, 0x8d, 0xc0, 0xc1,
        0xc6, 0xc7, 0xd2, 0xd3, 0xd8, 0xd9, 0xda, 0xdb, 0xdc, 0xdd, 0xde, 0xdf, 0xf6, 0xf7, 0xfe,
        0xff].contains b
  | _ => true

def takeFields (wide : Bool) (bytes : List UInt8) : Option (Fields × List UInt8) :=
  let (word, bytes) := takeSizeByte bytes
  let (rex, bytes) := takeRex wide bytes
  match takeOpcode bytes with
  | none => none
  | some (opcode, bytes) =>
    if hasModRM opcode then
      (takeModRM rex bytes).map fun (m, bytes) => (⟨word, rex, opcode, some m⟩, bytes)
    else some (⟨word, rex, opcode, none⟩, bytes)

/-! ## What was written is read -/

theorem takeNumber_littleEndian (n v : Nat) (tail : List UInt8) :
    takeNumber n (littleEndian n v ++ tail) = some (v % Nat.pow 256 n, tail) := by
  rw [takeNumber, if_pos (by simp)]
  rw [List.take_left' (length_littleEndian n v), List.drop_left' (length_littleEndian n v),
    ofLittleEndian_littleEndian]

theorem rexOf?_byte (p : Rex) : rexOf? p.byte = some { p with bare := true } := by
  obtain ⟨w, r, x, b, bare⟩ := p
  cases w <;> cases r <;> cases x <;> cases b <;> cases bare <;> decide

theorem extract_first (mod : BitVec 2) (reg rm : BitVec 3) :
    (mod ++ reg ++ rm).extractLsb' 6 2 = mod :=
  (BitVec.extractLsb'_append_eq_of_le (by decide)).trans BitVec.extractLsb'_append_eq_left

theorem extract_middle (mod : BitVec 2) (reg rm : BitVec 3) :
    (mod ++ reg ++ rm).extractLsb' 3 3 = reg :=
  (BitVec.extractLsb'_append_eq_of_le (by decide)).trans BitVec.extractLsb'_append_eq_right

theorem extract_last (mod : BitVec 2) (reg rm : BitVec 3) :
    (mod ++ reg ++ rm).extractLsb' 0 3 = rm :=
  BitVec.extractLsb'_append_eq_right

/-- A displacement has the length that the mode bits and the base announce. -/
def Announced (mod : BitVec 2) (base : BitVec 3) : Displacement → Prop
  | .none => mod = 0 ∧ base ≠ 5
  | .byte _ => mod = 1
  | .dword _ => mod = 2 ∨ mod = 0 ∧ base = 5

/-- The parts of the operand are those that its ModRM byte announces. -/
structure Regular (m : RM) : Prop where
  register : m.mod = 3 → m.sib = none ∧ m.disp = .none
  sib : m.mod ≠ 3 → (m.sib.isSome ↔ m.rm = 4)
  disp : m.mod ≠ 3 → Announced m.mod (m.sib.elim m.rm Sib.base) m.disp

theorem takeSib_fields {m : RM} (h : m.sib.isSome ↔ m.rm = 4) (tail : List UInt8) :
    takeSib m.rm ((m.sib.map fun s => [s.byte]).toList.flatten ++ tail) = some (m.sib, tail) := by
  cases hs : m.sib with
  | none =>
    have hrm : m.rm ≠ 4 := fun h4 => by simp [hs, h4] at h
    cases tail with
    | nil => exact if_neg hrm
    | cons b bytes => exact if_neg hrm
  | some s =>
    have hrm : m.rm = 4 := h.mp (by rw [hs]; rfl)
    simp [takeSib, hrm, Sib.byte, extract_first, extract_middle, extract_last]

theorem takeDisplacement_fields {mod : BitVec 2} {base : BitVec 3} {d : Displacement}
    (h : Announced mod base d) (tail : List UInt8) :
    takeDisplacement mod base (d.fields.flatten ++ tail) = some (d, tail) := by
  cases d with
  | none =>
    obtain ⟨rfl, hb⟩ := h
    rw [takeDisplacement, if_neg (by decide), if_neg]
    · rfl
    · rintro (h | h)
      · exact absurd h (by decide)
      · exact hb h
  | byte v =>
    obtain rfl : mod = 1 := h
    have hv : (Displacement.byte v).fields.flatten = littleEndian 1 v.toUInt8.toNat := by
      simp [Displacement.fields, littleEndian]
    have hlt : v.toUInt8.toNat < Nat.pow 256 1 := v.toUInt8.toNat_lt
    rw [takeDisplacement, if_pos rfl, hv, takeNumber_littleEndian, Nat.mod_eq_of_lt hlt]
    simp only [Option.map_some, UInt8.ofNat_toNat, Int8.toInt8_toUInt8]
  | dword v =>
    have hmod : ¬ mod = 1 := by
      rintro rfl
      rcases h with h | ⟨h, -⟩
      · exact absurd h (by decide)
      · exact absurd h (by decide)
    have hv : (Displacement.dword v).fields.flatten = littleEndian 4 v.toUInt32.toNat := by
      simp [Displacement.fields]
    have hlt : v.toUInt32.toNat < Nat.pow 256 4 := v.toUInt32.toNat_lt
    rw [takeDisplacement, if_neg hmod, if_pos (h.imp_right And.right), hv, takeNumber_littleEndian,
      Nat.mod_eq_of_lt hlt]
    simp only [Option.map_some, UInt32.ofNat_toNat, Int32.toInt32_toUInt32]

theorem takeModRM_fields {m : RM} (h : Regular m) (reg : BitVec 3) {p : Rex} (hx : p.x = m.x)
    (hb : p.b = m.b) (tail : List UInt8) :
    takeModRM p ((m.fields reg).flatten ++ tail) = some ((reg, m), tail) := by
  simp only [RM.fields, List.flatten_cons, List.flatten_append, List.cons_append, List.nil_append,
    List.append_assoc, takeModRM, extract_first, extract_middle, extract_last, hx, hb]
  by_cases hm : m.mod = 3
  · obtain ⟨hs, hd⟩ := h.register hm
    rw [if_pos hm]
    obtain ⟨mod, rm, x, b, sib, disp⟩ := m
    obtain rfl : sib = none := hs
    obtain rfl : disp = .none := hd
    rfl
  · rw [if_neg hm, takeSib_fields (h.sib hm)]
    simp only [takeDisplacement_fields (h.disp hm)]

def isOpcode : List UInt8 → Bool
  | [b] => b ≠ 0x66 && b ≠ 0x0f && (rexOf? b).isNone
  | [a, _] => a = 0x0f
  | _ => false

/-- The fields of an instruction that can be read back on a host. -/
structure Readable (wide : Bool) (i : Instruction) : Prop where
  rex : i.rex.needed = true → wide = true
  opcode : isOpcode i.opcode = true
  modrm : i.modrm.isSome = hasModRM i.opcode
  operand : ∀ reg m, i.modrm = some (reg, m) → Regular m ∧ i.rex.x = m.x ∧ i.rex.b = m.b

def fieldsOf (i : Instruction) : Fields :=
  ⟨i.sizeByte, { i.rex with bare := i.rex.needed }, i.opcode, i.modrm⟩

theorem takeSizeByte_fields (word : Bool) {rest : List UInt8} (h : rest.head? ≠ some 0x66) :
    takeSizeByte ((if word then [[0x66]] else []).flatten ++ rest) = (word, rest) := by
  cases word with
  | true => rfl
  | false =>
    cases rest with
    | nil => rfl
    | cons b bytes => exact if_neg fun hb => h (by rw [hb]; rfl)

theorem takeRex_fields {wide : Bool} {p : Rex} (hp : p.needed = true → wide = true) {b : UInt8}
    (hb : wide = true → rexOf? b = none) (rest : List UInt8) :
    takeRex wide ((if p.needed then [[p.byte]] else []).flatten ++ b :: rest) =
      ({ p with bare := p.needed }, b :: rest) := by
  cases hn : p.needed with
  | true =>
    rw [hp hn]
    have htake : takeRex true (p.byte :: b :: rest) = ({ p with bare := true }, b :: rest) := by
      simp only [takeRex, if_true, rexOf?_byte]
    exact htake
  | false =>
    obtain ⟨w, r, x, b', bare⟩ := p
    simp only [Rex.needed, Bool.or_eq_false_iff] at hn
    obtain ⟨⟨⟨⟨rfl, rfl⟩, rfl⟩, rfl⟩, -⟩ := hn
    cases wide with
    | false => rfl
    | true =>
      have htake : takeRex true (b :: rest) = ({}, b :: rest) := by
        simp only [takeRex, if_true, hb rfl]
      exact htake

theorem takeOpcode_one {b : UInt8} (hb : b ≠ 0x0f) (rest : List UInt8) :
    takeOpcode (b :: rest) = some ([b], rest) :=
  if_neg hb

theorem takeOpcode_two (b : UInt8) (rest : List UInt8) :
    takeOpcode (0x0f :: b :: rest) = some ([0x0f, b], rest) := rfl

theorem rexByte_ne (p : Rex) : p.byte ≠ 0x66 := by
  intro h
  have hr := rexOf?_byte p
  rw [h] at hr
  exact absurd hr (by simp [rexOf?])

theorem exists_cons_of_isOpcode {opcode : List UInt8} (h : isOpcode opcode = true) :
    ∃ b os, opcode = b :: os ∧ b ≠ 0x66 ∧ rexOf? b = none ∧
      ∀ rest, takeOpcode (b :: (os ++ rest)) = some (opcode, rest) := by
  match opcode with
  | [b] =>
    simp only [isOpcode, Bool.and_eq_true, decide_eq_true_eq, Option.isNone_iff_eq_none] at h
    obtain ⟨⟨hsize, h0f⟩, hrex⟩ := h
    exact ⟨b, [], rfl, hsize, hrex, takeOpcode_one h0f⟩
  | [a, b] =>
    obtain rfl : a = 0x0f := of_decide_eq_true h
    exact ⟨0x0f, [b], rfl, by decide, by decide, takeOpcode_two b⟩

def operandBytes : Option (BitVec 3 × RM) → List UInt8
  | some (reg, m) => (m.fields reg).flatten
  | none => []

/-- Reading the fields of an instruction gets to its constant. -/
theorem takeFields_bytes {wide : Bool} {i : Instruction} (h : Readable wide i)
    (tail : List UInt8) :
    takeFields wide (i.bytes ++ tail) =
      some (fieldsOf i, (i.imm.map (·.field)).toList.flatten ++ tail) := by
  obtain ⟨b, os, ho, hsize, hrex, htake⟩ := exists_cons_of_isOpcode h.opcode
  let rest := (i.imm.map (·.field)).toList.flatten ++ tail
  have hbytes : i.bytes ++ tail = (if i.sizeByte then [[0x66]] else []).flatten ++
      ((if i.rex.needed then [[i.rex.byte]] else []).flatten ++ 
        b :: (os ++ (operandBytes i.modrm ++ rest))) := by
    simp only [Instruction.bytes, Instruction.fields, List.flatten_append, List.flatten_cons,
      List.append_assoc, ho, List.cons_append, rest]
    cases i.modrm with
    | none => rfl
    | some rm => rfl
  have hhead : ((if i.rex.needed then [[i.rex.byte]] else []).flatten ++
      b :: (os ++ (operandBytes i.modrm ++ rest))).head? ≠ some 0x66 := by
    cases i.rex.needed with
    | true => exact fun hb => rexByte_ne i.rex (Option.some.inj hb)
    | false => exact fun hb => hsize (Option.some.inj hb)
  rw [hbytes, takeFields, takeSizeByte_fields _ hhead]
  simp only [takeRex_fields h.rex fun _ => hrex, htake]
  cases hm : i.modrm with
  | none =>
    have hno : hasModRM i.opcode = false := by rw [← h.modrm, hm]; rfl
    rw [hno, fieldsOf, hm]
    rfl
  | some rm =>
    obtain ⟨reg, m⟩ := rm
    have hyes : hasModRM i.opcode = true := by rw [← h.modrm, hm]; rfl
    have hfields : operandBytes (some (reg, m)) = (m.fields reg).flatten := rfl
    obtain ⟨hreg, hx, hb⟩ := h.operand reg m hm
    have hread := takeModRM_fields hreg reg (p := { i.rex with bare := i.rex.needed }) hx hb rest
    rw [hyes, if_pos rfl, hfields, hread, fieldsOf, hm]
    rfl

/-! ## What is read was written -/

theorem eq_of_takeNumber {n v : Nat} {bytes rest : List UInt8}
    (h : takeNumber n bytes = some (v, rest)) :
    v < Nat.pow 256 n ∧ bytes = littleEndian n v ++ rest := by
  unfold takeNumber at h
  split at h
  · next hn =>
    cases h
    have hnumber : littleEndian n (ofLittleEndian (bytes.take n)) = bytes.take n := by
      have hlength : (bytes.take n).length = n := List.length_take_of_le hn
      have hwritten := littleEndian_ofLittleEndian (bytes.take n)
      rwa [hlength] at hwritten
    constructor
    · rw [← hnumber, ofLittleEndian_littleEndian]
      exact Nat.mod_lt _ (Nat.pow_pos (by decide))
    · rw [hnumber, List.take_append_drop]
  · cases h

theorem ofBitVec_parts (b : UInt8) :
    .ofBitVec (b.toBitVec.extractLsb' 6 2 ++ b.toBitVec.extractLsb' 3 3 ++
      b.toBitVec.extractLsb' 0 3) = b := by
  have hupper : b.toBitVec.extractLsb' 6 2 ++ b.toBitVec.extractLsb' 3 3 =
      b.toBitVec.extractLsb' 3 5 := BitVec.extractLsb'_append_extractLsb'_eq_extractLsb' rfl
  have hwhole : b.toBitVec.extractLsb' 3 5 ++ b.toBitVec.extractLsb' 0 3 =
      b.toBitVec.extractLsb' 0 8 := BitVec.extractLsb'_append_extractLsb'_eq_extractLsb' rfl
  rw [hupper, hwhole, BitVec.extractLsb'_eq_self]

theorem eq_of_takeSib {rm : BitVec 3} {bytes rest : List UInt8} {sib : Option Sib}
    (h : takeSib rm bytes = some (sib, rest)) :
    (sib.isSome ↔ rm = 4) ∧ bytes = (sib.map fun s => [s.byte]).toList.flatten ++ rest := by
  cases bytes with
  | nil =>
    simp only [takeSib] at h
    split at h
    · cases h
    · next hrm =>
      cases h
      exact ⟨⟨fun h => absurd h (by decide), fun h => absurd h hrm⟩, rfl⟩
  | cons b bytes =>
    simp only [takeSib] at h
    split at h
    · next hrm =>
      cases h
      refine ⟨⟨fun _ => hrm, fun _ => rfl⟩, ?_⟩
      exact congrArg (· :: rest) (ofBitVec_parts b).symm
    · next hrm =>
      cases h
      exact ⟨⟨fun h => absurd h (by decide), fun h => absurd h hrm⟩, rfl⟩

theorem eq_of_takeDisplacement {mod : BitVec 2} {base : BitVec 3} {bytes rest : List UInt8}
    {d : Displacement} (hmod : mod ≠ 3) (h : takeDisplacement mod base bytes = some (d, rest)) :
    Announced mod base d ∧ bytes = d.fields.flatten ++ rest := by
  unfold takeDisplacement at h
  split at h
  · next h1 =>
    obtain ⟨⟨v, bytes'⟩, hv, h⟩ := Option.map_eq_some_iff.mp h
    cases h
    refine ⟨h1, (eq_of_takeNumber hv).2.trans ?_⟩
    simp [Displacement.fields, littleEndian]
  · next h1 =>
    have hrest : ∀ mod : BitVec 2, mod ≠ 3 → mod ≠ 1 → mod = 0 ∨ mod = 2 := by decide
    have h02 := hrest mod hmod h1
    split at h
    · next h25 =>
      obtain ⟨⟨v, bytes'⟩, hv, h⟩ := Option.map_eq_some_iff.mp h
      cases h
      obtain ⟨hlt, hbytes⟩ := eq_of_takeNumber hv
      constructor
      · rcases h02 with rfl | h2
        · exact .inr ⟨rfl, h25.resolve_left (by decide)⟩
        · exact .inl h2
      · have hv' : (UInt32.ofNat v).toNat = v := UInt32.toNat_ofNat_of_lt' hlt
        simp only [Displacement.fields, UInt32.toUInt32_toInt32, hv', List.flatten_cons,
          List.flatten_nil, List.append_nil, hbytes]
    · next h25 =>
      cases h
      exact ⟨⟨h02.resolve_right fun h2 => h25 (.inl h2), fun h5 => h25 (.inr h5)⟩, rfl⟩

/-- Reading and writing the r/m field are inverse to each other. -/
theorem takeModRM_eq_some_iff {p : Rex} {bytes rest : List UInt8} {reg : BitVec 3} {m : RM} :
    takeModRM p bytes = some ((reg, m), rest) ↔
      Regular m ∧ p.x = m.x ∧ p.b = m.b ∧ bytes = (m.fields reg).flatten ++ rest := by
  constructor
  · intro h
    cases bytes with
    | nil => cases h
    | cons b bytes =>
      simp only [takeModRM] at h
      split at h
      · next hm =>
        cases h
        refine ⟨⟨fun _ => ⟨rfl, rfl⟩, fun h => absurd hm h, fun h => absurd hm h⟩, rfl, rfl, ?_⟩
        exact congrArg (· :: rest) (ofBitVec_parts b).symm
      · next hm =>
        split at h
        · cases h
        next sib bytes' hs =>
        split at h
        · cases h
        next disp bytes'' hd =>
        cases h
        obtain ⟨hsib, rfl⟩ := eq_of_takeSib hs
        obtain ⟨hdisp, rfl⟩ := eq_of_takeDisplacement hm hd
        refine ⟨⟨fun h => absurd h hm, fun _ => hsib, fun _ => hdisp⟩, rfl, rfl, ?_⟩
        simp [RM.fields, ofBitVec_parts]
  · rintro ⟨hm, hx, hb, rfl⟩
    exact takeModRM_fields hm reg hx hb rest

end Processor

end HostCode
