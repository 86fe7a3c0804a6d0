import HostCode.Proofs.Processor.Layouts
import HostCode.Proofs.Processor.RoundTrip

/-! # Lengths of instructions

An instruction that the processor decodes has the length of the bytes that are read, and these
are never more than the longest instruction has. So whatever comes after an instruction that was
written for a request, its length is the number of its bytes.
-/

namespace HostCode.Decoder

open Processor (Fields Entry Arg Announced Regular hasModRM rexOf? takeNumber takeSizeByte takeRex
  takeOpcode takeModRM takeModRM_eq_some_iff takeFields takeConstant extract_first extract_middle
  extract_last lookup decode)

variable {wide : Bool} {f : Fields} {b : UInt8} {e : Entry}

/-! ## The opcode -/

theorem opcode_one {m : Modifiers} (hm : m.extension = none) (hb : b ≠ 0x0f) (rest : List UInt8) :
    opcode wide m (b :: rest) =
      (oneByte wide b.toNat (opcode.peek rest)).map fun l => (1, l, rest) := by
  rw [opcode]
  · rw [hm]
  all_goals
    intros
    exact hb ‹_›

theorem opcode_two (m : Modifiers) (h38 : b ≠ 0x38) (h3a : b ≠ 0x3a) (rest : List UInt8) :
    opcode wide m (0x0f :: b :: rest) =
      (twoByte wide m b.toNat (opcode.peek rest)).map fun l => (2, l, rest) := by
  rw [opcode]
  · intro _ _ h
    exact absurd h h38
  · intro _ _ h
    exact absurd h h3a

theorem takeOpcode_cases {bytes opcode rest : List UInt8}
    (h : takeOpcode bytes = some (opcode, rest)) :
    (∃ b, bytes = b :: rest ∧ opcode = [b] ∧ b ≠ 0x0f) ∨
      ∃ b, bytes = 0x0f :: b :: rest ∧ opcode = [0x0f, b] := by
  unfold takeOpcode at h
  split at h
  · cases h
  split at h
  · next hb =>
    subst hb
    split at h
    · cases h
    · cases h
      exact .inr ⟨_, rfl, rfl⟩
  · next hb =>
    cases h
    exact .inl ⟨_, rfl, rfl, hb⟩

theorem opcode_of_lookup {bytes rest : List UInt8}
    (ht : takeOpcode bytes = some (f.opcode, rest)) (hm : f.modrm.isSome = hasModRM f.opcode)
    (hrest : ∀ reg m, f.modrm = some (reg, m) → Begins rest reg m)
    (h : lookup wide f.size f.opcode f.modrm = some e) :
    ∃ n l, opcode wide (modifiersOf f) bytes = some (n, l, rest) ∧ n ≤ 2 ∧
      bytes.length = n + rest.length ∧ Suits wide f f.opcode e l := by
  rcases takeOpcode_cases ht with ⟨b, rfl, ho, hb⟩ | ⟨b, rfl, ho⟩
  · rw [ho] at hm h ⊢
    obtain ⟨l, hl, hsuits⟩ := lookup_one_suits hm hrest h
    refine ⟨1, l, ?_, by omega, by simp only [List.length_cons]; omega, hsuits⟩
    rw [opcode_one rfl hb, hl]
    rfl
  · rw [ho] at hm h ⊢
    obtain ⟨rm, hrm⟩ := Option.isSome_iff_exists.mp hm
    rw [hrm] at h
    obtain ⟨l, hl, hsuits⟩ := twoByte_suits (opcode.peek rest) h
    refine ⟨2, l, ?_, by omega, by simp only [List.length_cons]; omega, hsuits⟩
    rw [opcode_two, hl]
    · rfl
    · rintro rfl
      cases h
    · rintro rfl
      cases h

/-! ## What comes before and behind the opcode -/

theorem rexOf?_isSome : ∀ c : UInt8, (rexOf? c).isSome = (c &&& 0xf0 == 0x40) := by
  apply forall_byte
  decide +kernel

theorem rexOf?_some {c : UInt8} {p : Rex} (h : rexOf? c = some p) :
    p.w = (c &&& 8 != 0) ∧ isModifier c = false := by
  have hall : ∀ c : UInt8, (rexOf? c).all fun p => p.w = (c &&& 8 != 0) ∧ isModifier c = false := by
    apply forall_byte
    decide +kernel
  simpa [h] using hall c

theorem lookup_first {bytes rest : List UInt8} {v : Size} {opcode : List UInt8}
    {modrm : Option (BitVec 3 × RM)} (ht : takeOpcode bytes = some (opcode, rest))
    (h : lookup wide v opcode modrm = some e) :
    ∃ b bs, bytes = b :: bs ∧ isModifier b = false ∧ b ≠ 0xc4 ∧ b ≠ 0xc5 := by
  rcases takeOpcode_cases ht with ⟨b, rfl, rfl, -⟩ | ⟨b, rfl, -⟩
  · refine ⟨b, rest, rfl, ?_⟩
    have hno : b ∉ ([0xc4, 0xc5, 0xf0, 0xf2, 0xf3, 0x26, 0x2e, 0x36, 0x3e, 0x64, 0x65, 0x66,
        0x67] : List UInt8) := by
      intro hb
      cases modrm <;> fin_cases hb <;> cases h
    simp only [List.mem_cons, not_or] at hno
    simp only [isModifier, List.contains_eq_mem, List.mem_cons, decide_eq_false_iff_not, not_or]
    exact ⟨hno.2.2, hno.1, hno.2.1⟩
  · exact ⟨0x0f, b :: rest, rfl, by decide⟩

theorem modifiers_of_takeRex {m : Modifiers} (hm : m.extension = none) (hq : m.qword = false)
    {bytes rest : List UInt8} {rex : Rex} (ht : takeRex wide bytes = (rex, b :: rest))
    (hb : isModifier b = false) :
    ∃ n, modifiers wide m bytes = ({ m with qword := rex.w }, n, b :: rest) ∧ n ≤ 1 ∧
      bytes.length = n + (b :: rest).length := by
  obtain ⟨ext, word, qword, short, rep⟩ := m
  obtain rfl : ext = none := hm
  obtain rfl : qword = false := hq
  unfold takeRex at ht
  split at ht
  · cases ht
  · next c cs =>
    have hsome := rexOf?_isSome c
    split at ht
    · next p hp =>
      cases wide with
      | false => cases hp
      | true =>
        cases ht
        obtain ⟨hw, hno⟩ := rexOf?_some hp
        rw [if_pos rfl] at hp
        rw [hp] at hsome
        refine ⟨1, ?_, Nat.le_refl _, Nat.add_comm ..⟩
        simp [modifiers, hno, ← hsome, hw]
    · next hp =>
      cases ht
      refine ⟨0, ?_, Nat.zero_le _, (Nat.zero_add _).symm⟩
      cases wide with
      | false => simp [modifiers, hb]
      | true =>
        rw [if_pos rfl] at hp
        rw [hp] at hsome
        simp [modifiers, hb, ← hsome]

theorem modifiers_of_take {bytes bytes' rest : List UInt8} {word : Bool} {rex : Rex}
    (hs : takeSizeByte bytes = (word, bytes')) (ht : takeRex wide bytes' = (rex, b :: rest))
    (hb : isModifier b = false) :
    ∃ n, modifiers wide {} bytes = ({ word, qword := rex.w }, n, b :: rest) ∧ n ≤ 2 ∧
      bytes.length = n + (b :: rest).length := by
  unfold takeSizeByte at hs
  split at hs
  · cases hs
    cases ht
  split at hs
  · next hc =>
    subst hc
    cases hs
    obtain ⟨n, hn, hle, hlen⟩ :=
      modifiers_of_takeRex (m := { word := true }) rfl rfl ht hb
    refine ⟨n + 1, ?_, by omega, by rw [List.length_cons, hlen]; omega⟩
    have hadd : modifiers wide ({} : Modifiers) (0x66 :: bytes') =
      ((modifiers wide { word := true } bytes').1, (modifiers wide { word := true } bytes').2.1 + 1,
        (modifiers wide { word := true } bytes').2.2) := rfl
    rw [hadd, hn]
  · cases hs
    obtain ⟨n, hn, hle, hlen⟩ := modifiers_of_takeRex (m := {}) rfl rfl ht hb
    exact ⟨n, hn, by omega, hlen⟩

theorem extension?_eq_none {c : UInt8} (hc4 : c ≠ 0xc4) (hc5 : c ≠ 0xc5) (rest : List UInt8) :
    extension? wide (c :: rest) = none := by
  unfold extension?
  split
  · next h => exact absurd (List.cons.inj h).1 hc5
  · next h => exact absurd (List.cons.inj h).1 hc4
  · rfl

theorem extension_of_take {bytes bytes' rest : List UInt8} {word : Bool} {rex : Rex}
    (hs : takeSizeByte bytes = (word, bytes')) (ht : takeRex wide bytes' = (rex, b :: rest))
    (hc4 : b ≠ 0xc4) (hc5 : b ≠ 0xc5) : extension? wide bytes = none := by
  unfold takeSizeByte at hs
  split at hs
  · rfl
  split at hs
  · next hc =>
    rw [hc]
    exact extension?_eq_none (by decide) (by decide) _
  · cases hs
    unfold takeRex at ht
    dsimp only at ht
    split at ht
    · next p hp =>
      cases wide with
      | false => cases hp
      | true =>
        apply extension?_eq_none <;> rintro rfl <;> cases hp
    · cases ht
      exact extension?_eq_none hc4 hc5 _

theorem length_takeNumber {n v : Nat} {bytes rest : List UInt8}
    (h : takeNumber n bytes = some (v, rest)) : bytes.length = n + rest.length := by
  unfold takeNumber at h
  split at h
  · cases h
    rw [List.length_drop]
    omega
  · cases h

theorem length_takeConstant {s : Option Size} {v : Nat} {bytes rest : List UInt8}
    (h : takeConstant s bytes = some (v, rest)) :
    bytes.length = s.elim 0 Size.bytes + rest.length := by
  cases s with
  | none =>
    cases h
    exact (Nat.zero_add _).symm
  | some s => exact length_takeNumber h

def displacementSize (mod base : Nat) : Nat :=
  if mod == 1 then 1 else if mod == 2 || base == 5 then 4 else 0

theorem displacementSize_of_announced {mod : BitVec 2} {base : BitVec 3} {d : Displacement}
    (h : Announced mod base d) : displacementSize mod.toNat base.toNat = d.size := by
  cases d with
  | none =>
    obtain ⟨rfl, hbase⟩ := h
    have hfive : base.toNat ≠ 5 := fun h5 => hbase (BitVec.toNat_inj (y := 5).mp h5)
    simp [displacementSize, Displacement.size, hfive]
  | byte v =>
    obtain rfl : mod = 1 := h
    rfl
  | dword v => obtain rfl | ⟨rfl, rfl⟩ := h <;> rfl

theorem operandSize_fields (wide : Bool) {m : RM} (hm : Regular m) (reg : BitVec 3)
    (rest : List UInt8) :
    operandSize false wide ((m.fields reg).flatten ++ rest) = some m.size := by
  obtain ⟨mod, rm, x, b, sib, disp⟩ := m
  obtain ⟨hfirst, -, hlast, -⟩ := modrm_parts (.ofBitVec (mod ++ reg ++ rm))
  rw [extract_first] at hfirst
  rw [extract_last] at hlast
  have hthree : (mod.toNat == 3) = true ↔ mod = 3 :=
    beq_iff_eq.trans (BitVec.toNat_inj (y := 3))
  have hfour : (rm.toNat == 4) = true ↔ rm = 4 := beq_iff_eq.trans (BitVec.toNat_inj (y := 4))
  simp only [RM.fields, List.flatten_cons, List.cons_append, List.nil_append, operandSize, hfirst,
    hlast, Bool.false_and]
  by_cases h3 : mod = 3
  · obtain ⟨rfl, rfl⟩ := hm.register h3
    rw [if_pos (hthree.mpr h3)]
    rfl
  · have hsib : sib.isSome ↔ rm = 4 := hm.sib h3
    have hdisp := displacementSize_of_announced (hm.disp h3)
    rw [if_neg (mt hthree.mp h3), if_neg Bool.false_ne_true]
    cases sib with
    | none =>
      have h4 : rm ≠ 4 := fun h4 => absurd (hsib.mpr h4) (by decide)
      have hsize : 1 + displacementSize mod.toNat rm.toNat =
          RM.size ⟨mod, rm, x, b, none, disp⟩ := by
        simp only [RM.size, ← hdisp, Option.toList_none, List.length_nil, Option.elim_none]
        omega
      rw [if_neg (mt hfour.mp h4)]
      exact congrArg some hsize
    | some s =>
      have hbase : s.byte.toNat % 8 = s.base.toNat := by
        rw [(modrm_parts s.byte).2.2.1, Sib.byte, extract_last]
      have hsize : 2 + displacementSize mod.toNat s.base.toNat =
          RM.size ⟨mod, rm, x, b, some s, disp⟩ := by
        simp only [RM.size, ← hdisp, Option.toList_some, List.length_singleton, Option.elim_some]
        omega
      rw [if_pos (hfour.mpr (hsib.mp rfl))]
      simp only [Option.map_some, Option.toList_some, List.flatten_cons, List.cons_append,
        List.nil_append, hbase]
      exact congrArg some hsize

theorem operandSize_of_take (wide : Bool) {rex : Rex} {bytes rest : List UInt8}
    {reg : BitVec 3} {m : RM} (h : takeModRM rex bytes = some ((reg, m), rest)) :
    Begins bytes reg m ∧ ∃ k, operandSize false wide bytes = some k ∧ k ≤ 6 ∧
      bytes.length = k + rest.length := by
  obtain ⟨hm, -, -, rfl⟩ := takeModRM_eq_some_iff.mp h
  refine ⟨?_, m.size, operandSize_fields wide hm reg rest, m.size_le, ?_⟩
  · exact ⟨_, _, rfl, (extract_middle ..).symm, (extract_first ..).symm, (extract_last ..).symm⟩
  · rw [List.length_append, RM.length_fields]

/-! ## Lengths -/

theorem takeFields_cases {bytes rest : List UInt8} (h : takeFields wide bytes = some (f, rest)) :
    ∃ bytes₁ bytes₂ bytes₃ n, takeSizeByte bytes = (f.word, bytes₁) ∧
      takeRex wide bytes₁ = (f.rex, bytes₂) ∧ takeOpcode bytes₂ = some (f.opcode, bytes₃) ∧
      f.modrm.isSome = hasModRM f.opcode ∧
      (∀ reg m, f.modrm = some (reg, m) → Begins bytes₃ reg m) ∧
      (if hasModRM f.opcode then operandSize false wide bytes₃ else some 0) = some n ∧
      (if hasModRM f.opcode then n ≤ 6 else n = 0) ∧ bytes₃.length = n + rest.length := by
  unfold takeFields at h
  dsimp only at h
  split at h
  · cases h
  · next opcode bytes₃ ho =>
    split at h
    · next hm =>
      obtain ⟨⟨m, rest'⟩, ht, h⟩ := Option.map_eq_some_iff.mp h
      cases h
      obtain ⟨hbegins, n, hn, hle, hlen⟩ := operandSize_of_take wide ht
      refine ⟨_, _, bytes₃, n, rfl, rfl, ho, hm.symm, ?_, ?_, ?_, hlen⟩
      · rintro reg m ⟨⟩
        exact hbegins
      · rw [if_pos hm, hn]
      · rw [if_pos hm]
        exact hle
    · next hm =>
      cases h
      refine ⟨_, _, _, 0, rfl, rfl, ho, ?_, ?_, if_neg hm, ?_, (Nat.zero_add _).symm⟩
      · exact (Bool.eq_false_iff.mpr hm).symm
      · intro reg m hmodrm
        cases hmodrm
      · rw [if_neg hm]

theorem Suits.tail_le {opcode : List UInt8} {l : Layout} (h : Suits wide f opcode e l)
    (hm : l.modrm = true) : l.tail.size wide (modifiersOf f) ≤ 4 := by
  have hshort := h.short
  rw [hm] at hshort
  simp only [Bool.not_true, Bool.false_or, List.contains_eq_mem, List.mem_cons, List.not_mem_nil,
    or_false, decide_eq_true_eq] at hshort
  rcases hshort with ht | ht | ht <;> rw [ht]
  · exact Nat.zero_le _
  · exact Nat.le_of_lt (by decide : 1 < 4)
  · rw [size_sized]
    cases f.size <;> decide

theorem Suits.operand_le {opcode : List UInt8} {l : Layout} {n : Nat}
    (h : Suits wide f opcode e l) (hn : if l.modrm then n ≤ 6 else n = 0) :
    n + l.tail.size wide (modifiersOf f) ≤ 10 := by
  split at hn
  · next hm =>
    have htail := h.tail_le hm
    omega
  · rw [hn, Nat.zero_add, h.tail]
    cases e.args.findSome? Arg.constantSize with
    | none => decide
    | some s => cases s <;> decide

/-- What the processor decodes has the length of the bytes that it reads. -/
theorem length_of_decode {d : Processor.Decoded} {bytes rest : List UInt8}
    (h : decode wide bytes = some (d, rest)) :
    ∃ n, bytes.length = n + rest.length ∧ n ≤ maxLength ∧
      (bytes.length ≤ maxLength → length wide bytes = some n) := by
  unfold decode at h
  split at h
  · cases h
  next f bytes₄ hf =>
  split at h
  · cases h
  next e he =>
  split at h
  · cases h
  next value bytes₅ hc =>
  obtain ⟨operands, -, h⟩ := Option.map_eq_some_iff.mp h
  cases h
  obtain ⟨bytes₁, bytes₂, bytes₃, p, hs, hr, ho, hm, hbegins, hp, hle, hlen₄⟩ :=
    takeFields_cases hf
  obtain ⟨b, bs, rfl, hb, hc4, hc5⟩ := lookup_first ho he
  obtain ⟨n, hmod, hn, hlen⟩ := modifiers_of_take hs hr hb
  have hext := extension_of_take hs hr hc4 hc5
  obtain ⟨k, l, hop, hk, hlen₃, hsuits⟩ := opcode_of_lookup ho hm hbegins he
  have hconst := length_takeConstant hc
  rw [← hsuits.tail] at hconst
  rw [← hsuits.modrm] at hp hle
  -- two bytes before the opcode and two for it leave room for the longest operand and constant
  have hsum : p + l.tail.size wide (modifiersOf f) ≤ 10 := hsuits.operand_le hle
  refine ⟨n + k + p + l.tail.size wide (modifiersOf f), by omega, by unfold maxLength; omega, ?_⟩
  intro hmax
  have hmods : modifiers wide { extension := none } bytes = (modifiersOf f, n, b :: bs) := hmod
  have hshort : (modifiersOf f).shortAddress = false := rfl
  rw [length]
  simp only [List.take_of_length_le hmax, hext, Option.elim_none, List.drop_zero, hmods,
    hop, Option.bind_eq_bind, Option.bind_some, hshort, Nat.zero_add]
  split
  · next hl =>
    rw [if_pos hl] at hp
    rw [hp, Option.bind_some, if_pos (by omega)]
  · next hl =>
    rw [if_neg hl] at hp
    cases hp
    rw [if_pos (by omega)]

/-- An instruction that the processor reads whatever comes after it has the length of its bytes. -/
theorem length_append_of_decode {d : Processor.Decoded} {code : List UInt8}
    (h : ∀ tail, decode wide (code ++ tail) = some (d, tail)) (tail : List UInt8) :
    length wide (code ++ tail) = some code.length := by
  obtain ⟨n, hn, hmax, -⟩ := length_of_decode (h [])
  rw [List.append_nil, List.length_nil, Nat.add_zero] at hn
  obtain ⟨n', hn', -, hlen⟩ := length_of_decode (h (tail.take (maxLength - code.length)))
  have htake : (code ++ tail).take maxLength = code ++ tail.take (maxLength - code.length) := by
    rw [List.take_append, List.take_of_length_le (by omega)]
  have hle : (code ++ tail.take (maxLength - code.length)).length ≤ maxLength := by
    rw [← htake]
    exact List.length_take_le ..
  rw [List.length_append] at hn'
  obtain rfl : n' = code.length := by omega
  rw [← hlen hle, length, length, htake, List.take_of_length_le hle]

end HostCode.Decoder
