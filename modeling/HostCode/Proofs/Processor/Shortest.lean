import HostCode.Proofs.Processor.Operands

/-! # The shortest form of an operand in memory

A place in memory has several forms in the r/m field: with or without a SIB byte, and with a
displacement of four bytes, of one or of none. Some of them mean another place for some bases:
the low bits of SP and R12 announce a SIB byte, and those of BP and R13 an address without a
base if there is no displacement. Every operand that has an address is accepted, and takes as
few bytes as any form that the processor reads as this address.
-/

namespace HostCode

theorem Gpr.low_ofCode : ∀ (x : Bool) (c : BitVec 3),
    (ofCode (BitVec.ofBool x ++ c)).low = c := by decide

namespace Processor

/-- The operands in memory that an instruction can have, each with its address. -/
inductive Locates : Register → Register → UInt8 → Int32 → Address → Prop
  | based (base : Gpr) (scale : UInt8) (disp : Int32) :
      Locates (.gpr base) .none scale disp ⟨some base, none, disp⟩
  | indexed (base : Gpr) {index : Gpr} (hi : index ≠ .sp) {scale : UInt8}
      (hs : scale ∈ [1, 2, 4, 8]) (disp : Int32) :
      Locates (.gpr base) (.gpr index) scale disp ⟨some base, some (index, scale.toNat), disp⟩

/-- What the r/m field at the start of the bytes names beside the bits of a REX byte, and the
bytes after it. -/
def takePlace (wide : Bool) (p : Rex) (s : Size) (bytes : List UInt8) :
    Option (Place × List UInt8) :=
  (takeModRM p bytes).map fun ((_, m), rest) => (rmPlace wide p.bare s m, rest)

/-- The operand is read as the address, and no fewer bytes are. On narrow hosts there is no REX
byte, and its bits are clear. -/
structure Shortest (wide : Bool) (a : Address) (m : RM) : Prop where
  /-- Beside its two REX bits, the operand is the address whatever comes after it. -/
  read : ∀ (p : Rex) (s : Size) (reg : BitVec 3) (tail : List UInt8), p.x = m.x → p.b = m.b →
    takePlace wide p s ((m.fields reg).flatten ++ tail) = some (.memory s a, tail)
  /-- Other bytes that are the address are no fewer, whatever the REX bits beside them. -/
  least : ∀ (p : Rex) (s : Size) (reg : BitVec 3) (bytes tail : List UInt8),
    takePlace wide p s (bytes ++ tail) = some (.memory s a, tail) →
      (m.fields reg).flatten.length ≤ bytes.length

variable {wide extended : Bool} {p : Rex} {s : Size} {bytes rest : List UInt8} {m : RM}
  {base index : Gpr} {disp : Int32} {a : Address}

theorem takePlace_eq_some_iff {q : Place} :
    takePlace wide p s bytes = some (q, rest) ↔
      ∃ reg m, Regular m ∧ p.x = m.x ∧ p.b = m.b ∧ bytes = (m.fields reg).flatten ++ rest ∧
        rmPlace wide p.bare s m = q := by
  constructor
  · intro h
    obtain ⟨⟨⟨reg, m⟩, rest'⟩, hm, h⟩ := Option.map_eq_some_iff.mp h
    cases h
    obtain ⟨hregular, hx, hb, hbytes⟩ := takeModRM_eq_some_iff.mp hm
    exact ⟨reg, m, hregular, hx, hb, hbytes, rfl⟩
  · rintro ⟨reg, m, hregular, hx, hb, hbytes, rfl⟩
    have hm := takeModRM_eq_some_iff.mpr ⟨hregular, hx, hb, hbytes⟩
    exact Option.map_eq_some_iff.mpr ⟨_, hm, rfl⟩

/-! ## The fewest bytes -/

/-- No displacement that stands for the same distance from the base takes fewer bytes. -/
theorem Displaces.size_shortest_le {low : BitVec 3} {form : BitVec 2 × Displacement}
    (h : Displaces low disp form) : (RM.shortest low disp).2.size ≤ form.2.size := by
  obtain ⟨mod, d⟩ := form
  cases d with
  | none =>
    have hzero : disp = 0 := h.value.symm
    have hlow : low ≠ 5 := h.announced.2
    have hform : RM.shortest low disp = (0, .none) := if_pos ⟨hzero, hlow⟩
    exact Nat.le_of_eq (congrArg (·.2.size) hform)
  | byte v =>
    have hvalue : v.toInt32 = disp := h.value
    have hfits : -128 ≤ disp.toInt ∧ disp.toInt ≤ 127 := by
      rw [← hvalue, Int8.toInt_toInt32]
      exact ⟨v.le_toInt, Int.le_of_lt_add_one v.toInt_lt⟩
    rw [RM.shortest, if_pos hfits]
    split
    · exact Nat.zero_le _
    · exact Nat.le_refl _
  | dword v =>
    unfold RM.shortest
    split
    · exact Nat.zero_le _
    · split
      · exact (by decide : 1 ≤ 4)
      · exact Nat.le_refl _

/-- What any operand has that is read as an address with a base. It cannot do without a SIB byte
if there is an index, or if the base has the low bits that announce one. -/
theorem Regular.displaces {i : Option (Gpr × Nat)} (hm : Regular m)
    (h : rmPlace wide extended s m = .memory s ⟨some base, i, disp⟩) :
    Displaces base.low disp (m.mod, m.disp) ∧ (base.low = 4 ∨ i.isSome → m.sib.isSome) := by
  obtain ⟨mod, rm, x, b, sib, d⟩ := m
  have hmod : mod ≠ 3 := by
    -- with three as its mode bits it would name a register
    rintro rfl
    simp only [rmPlace, if_pos] at h
    unfold Processor.register at h
    split at h <;> cases h
  have hdisp : Announced mod (sib.elim rm Sib.base) d := hm.disp hmod
  have hsib : sib.isSome ↔ rm = 4 := hm.sib hmod
  simp only [rmPlace, if_neg hmod] at h
  cases sib with
  | none =>
    have hrm : rm ≠ 4 := fun h4 => absurd (hsib.mpr h4) (by decide)
    dsimp only at h
    split at h
    · -- five without a displacement has no base: narrow hosts read an address, wide ones a distance
      split at h <;> cases h
    · next hno =>
      cases h
      simp only [Gpr.low_ofCode]
      refine ⟨⟨hmod, fun h0 h5 => hno ⟨h0, h5⟩, hdisp, rfl⟩, ?_⟩
      rintro (h4 | hi)
      · exact absurd h4 hrm
      · cases hi
  | some sib =>
    simp only [Place.memory.injEq, Address.mk.injEq, true_and] at h
    obtain ⟨hbase, -, hvalue⟩ := h
    split at hbase
    · cases hbase
    · next hno =>
      cases hbase
      simp only [Gpr.low_ofCode]
      exact ⟨⟨hmod, fun h0 h5 => hno ⟨h0, h5⟩, hdisp, hvalue⟩, fun _ => rfl⟩

theorem Shortest.of_place (hm : Regular m)
    (hplace : ∀ extended s, rmPlace wide extended s m = .memory s a)
    (hleast : ∀ extended s m', Regular m' → rmPlace wide extended s m' = .memory s a →
      m.size ≤ m'.size) : Shortest wide a m where
  read p s reg tail hx hb :=
    takePlace_eq_some_iff.mpr ⟨reg, m, hm, hx, hb, rfl, hplace p.bare s⟩
  least p s reg bytes tail h := by
    obtain ⟨reg', m', hm', -, -, hbytes, hplace'⟩ := takePlace_eq_some_iff.mp h
    have hread : bytes = (m'.fields reg').flatten := List.append_cancel_right hbytes
    rw [hread, RM.length_fields, RM.length_fields]
    exact hleast _ _ _ hm' hplace'

theorem shortest_based (wide : Bool) (base : Gpr) (disp : Int32) :
    Shortest wide ⟨some base, none, disp⟩ (.based base (RM.shortest base.low disp)) := by
  have hform := Displaces.shortest base.low disp
  refine .of_place hform.regular_based (hform.rmPlace_based wide) ?_
  intro extended s m hm h
  obtain ⟨hdisp, hsib⟩ := hm.displaces h
  have hle : (RM.shortest base.low disp).2.size ≤ m.disp.size := hdisp.size_shortest_le
  simp only [RM.size, RM.based]
  by_cases h4 : base.low = 4
  · obtain ⟨sib, hsome⟩ := Option.isSome_iff_exists.mp (hsib (.inl h4))
    simpa [h4, hsome] using hle
  · simp only [if_neg h4, Option.toList_none, List.length_nil]
    omega

theorem shortest_indexed (wide : Bool) (base : Gpr) (hi : index ≠ .sp) (scale : BitVec 2)
    (disp : Int32) :
    Shortest wide ⟨some base, some (index, 2 ^ scale.toNat), disp⟩
      (.indexed base index scale (RM.shortest base.low disp)) := by
  have hform := Displaces.shortest base.low disp
  refine .of_place hform.regular_indexed (hform.rmPlace_indexed hi wide) ?_
  intro extended s m hm h
  obtain ⟨hdisp, hsib⟩ := hm.displaces h
  have hle : (RM.shortest base.low disp).2.size ≤ m.disp.size := hdisp.size_shortest_le
  obtain ⟨sib, hsome⟩ := Option.isSome_iff_exists.mp (hsib (.inr rfl))
  simpa [RM.size, RM.indexed, hsome] using hle

/-! ## What is accepted -/

theorem exists_scaleBits_iff {n : UInt8} :
    (∃ k, RM.scaleBits? n = some k) ↔ n ∈ [1, 2, 4, 8] := by
  simp only [List.mem_cons, List.not_mem_nil, or_false]
  constructor
  · rintro ⟨k, hk⟩
    unfold RM.scaleBits? at hk
    grind
  · rintro (rfl | rfl | rfl | rfl)
    · exact ⟨0, rfl⟩
    · exact ⟨1, rfl⟩
    · exact ⟨2, rfl⟩
    · exact ⟨3, rfl⟩

theorem memory_indexed {n : UInt8} {scale : BitVec 2} (hi : index ≠ .sp)
    (hn : RM.scaleBits? n = some scale) :
    RM.memory (.gpr base) (.gpr index) n disp =
      .ok (.indexed base index scale (RM.shortest base.low disp)) := by
  simp only [RM.memory, if_neg hi, hn]

theorem exists_memory_iff (base index : Register) (scale : UInt8) (disp : Int32) :
    (∃ m, RM.memory base index scale disp = .ok m) ↔ ∃ a, Locates base index scale disp a := by
  constructor
  · rintro ⟨m, hm⟩
    have hdenotes : Denotes .absolute (.mem base index scale disp) m := denotes_memory hm
    cases hdenotes with
    | based => exact ⟨_, .based _ _ _⟩
    | indexed hi hn => exact ⟨_, .indexed _ hi (exists_scaleBits_iff.mp ⟨_, hn⟩) _⟩
  · rintro ⟨a, ha⟩
    cases ha with
    | based base => exact ⟨_, rfl⟩
    | indexed base hi hs =>
      obtain ⟨k, hk⟩ := exists_scaleBits_iff.mpr hs
      exact ⟨_, memory_indexed hi hk⟩

/-- Exactly the operands that have an address are accepted, and each takes its shortest form. -/
theorem memory_shortest (base index : Register) (scale : UInt8) (disp : Int32) :
    ((∃ m, RM.memory base index scale disp = .ok m) ↔ ∃ a, Locates base index scale disp a) ∧
      ∀ m a, RM.memory base index scale disp = .ok m → Locates base index scale disp a →
        ∀ wide, Shortest wide a m := by
  refine ⟨exists_memory_iff base index scale disp, ?_⟩
  intro m a hm ha wide
  cases ha with
  | based base =>
    cases hm
    exact shortest_based wide base disp
  | @indexed base index hi scale hs =>
    obtain ⟨k, hk⟩ := exists_scaleBits_iff.mpr hs
    rw [memory_indexed hi hk] at hm
    cases hm
    rw [← two_pow_scaleBits hk]
    exact shortest_indexed wide base hi k disp

/-- R13 takes a displacement of zero as a base, and R12 is no missing index. -/
theorem memory_shortest_r13_r12 :
    RM.memory (.gpr .r13) (.gpr .r12) 4 0 = .ok (.indexed .r13 .r12 2 (1, .byte 0)) ∧
      Locates (.gpr .r13) (.gpr .r12) 4 0 ⟨some .r13, some (.r12, 4), 0⟩ ∧
      ((RM.indexed .r13 .r12 2 (1, .byte 0)).fields 0).flatten = [0x44, 0xa5, 0x00] ∧
      Shortest true ⟨some .r13, some (.r12, 4), 0⟩ (.indexed .r13 .r12 2 (1, .byte 0)) := by
  have hm : RM.memory (.gpr .r13) (.gpr .r12) 4 0 = .ok (.indexed .r13 .r12 2 (1, .byte 0)) := rfl
  have ha : Locates (.gpr .r13) (.gpr .r12) 4 0 ⟨some .r13, some (.r12, 4), 0⟩ :=
    .indexed .r13 (by decide) (by decide) 0
  exact ⟨hm, ha, rfl, (memory_shortest (.gpr .r13) (.gpr .r12) 4 0).2 _ _ hm ha true⟩

end Processor

end HostCode
