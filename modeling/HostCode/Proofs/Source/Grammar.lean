import HostCode.Proofs.Source.Terms

/-! # The grammar of lines

Which lines are accepted, and what they emit, as a grammar of the text that has nothing to do with
the order in which the reader takes it apart. The reader accepts this grammar and one thing more:
a suffix behind the jump that takes none.
-/

namespace HostCode.Source

open Numeral

/-! ## What is written -/

/-- The names of instructions. Two of them can be followed by a condition. -/
inductive IsName : List Char → Op → Cond → Prop
  | named {op : Op} : op ∈ Op.named → IsName op.name.toList op (.flag .o)
  | set (c : Flag) : IsName ("SET" ++ c.name).toList .setcc (.flag c)
  | cmov (c : Flag) : IsName ("CMOV" ++ c.name).toList .cmovcc (.flag c)

/-- A width is written in decimal digits alone. It can be left out, and is then 32, or left to the
operation if that writes bytes only. -/
inductive IsWidth : Op → (suffix : List Char) → UInt8 → Prop
  | digits {op : Op} {ds : List Char} {n : Nat} :
      ds ≠ [] → '_' ∉ ds → Digits 10 0 ds n → n < 256 → IsWidth op ('.' :: ds) (UInt8.ofNat n)
  | byte : IsWidth .setcc [] 0
  | plain {op : Op} : op ≠ .setcc → IsWidth op [] 32

/-- Up to three operands, with commas between them and blanks around them. -/
def AreOperands (stateBase : HostAddress) (text : List Char) (os : List Operand) : Prop :=
  ∃ parts : List (List Char), parts.length ≤ 3 ∧ (∀ p ∈ parts, ',' ∉ p) ∧
    text = [','].intercalate parts ∧
    List.Forall₂ (fun p o => readOperand stateBase (trimBlanks p) = .ok o) parts os

def IsGuest (text : List Char) (target : GuestAddress) : Prop :=
  ∃ n, IsLiteral text n ∧ n < 1 <<< 32 ∧ target = UInt32.ofNat n

/-- What a line of the grammar emits, by its first word in upper case and the rest of it. -/
inductive Written (stateBase : HostAddress) :
    (word rest : List Char) → Attempt Assembler (Except Error Unit) → Prop
  | goto {rest : List Char} {target : GuestAddress} : IsGuest rest target →
      Written stateBase "GOTO".toList rest do
        Assembler.jumpToGuest target
        return .ok ()
  | branch {c : Flag} {rest : List Char} {target : GuestAddress} : IsGuest rest target →
      Written stateBase ("BRANCH." ++ c.name).toList rest do
        Assembler.branchToGuest (.flag c) target
        return .ok ()
  | instruction {name suffix rest : List Char} {op : Op} {cond : Cond} {width : UInt8}
      {os : List Operand} :
      IsName name op cond → IsWidth op suffix width → AreOperands stateBase rest os →
      Written stateBase (name ++ suffix) rest (Assembler.encode
        { op, width, cond
          dst := os.getD 0 .none, src := os.getD 1 .none, aux := os.getD 2 .none })

/-! ## Names, widths and addresses -/

variable {sb : HostAddress} {name text rest s : List Char} {suffix : Option (List Char)} {op : Op}
  {cond : Cond} {r : Request} {width : UInt8} {target : GuestAddress} {os : List Operand}

theorem mem_flags (c : Flag) : c ∈ Flag.all := by cases c <;> decide

theorem ofName?_eq_some_iff {c : Flag} :
    Flag.ofName? (String.ofList text) = some c ↔ text = c.name.toList := by
  constructor
  · intro h
    have hname : c.name = String.ofList text := by simpa using List.find?_some h
    rw [hname, String.toList_ofList]
  · rintro rfl
    rw [String.ofList_toList]
    have hall : ∀ c ∈ Flag.all, Flag.ofName? c.name = some c := by decide +kernel
    exact hall c (mem_flags c)

theorem eq_of_flagAfter? {word : String} {c : Flag} (h : flagAfter? word name = some c) :
    name = (word ++ c.name).toList := by
  obtain ⟨rest, hrest, hc⟩ := Option.bind_eq_some_iff.mp h
  rw [String.toList_append, ← ofName?_eq_some_iff.mp hc]
  exact (List.isPrefixOf?_eq_some_iff_append_eq.mp hrest).symm

theorem isName_of_readOp (h : readOp name = .ok r) :
    ∃ op cond, IsName name op cond ∧ r = { op, cond } := by
  unfold readOp at h
  split at h
  · next op hop =>
    cases h
    rw [Op.ofName?] at hop
    have hname : op.name = String.ofList name := by simpa using List.find?_some hop
    have hnamed := IsName.named (List.mem_of_find?_eq_some hop)
    rw [hname, String.toList_ofList] at hnamed
    exact ⟨op, .flag .o, hnamed, rfl⟩
  · split at h
    · next c hc =>
      cases h
      exact ⟨.setcc, .flag c, eq_of_flagAfter? hc ▸ .set c, rfl⟩
    · split at h
      · next c hc =>
        cases h
        exact ⟨.cmovcc, .flag c, eq_of_flagAfter? hc ▸ .cmov c, rfl⟩
      · cases h

theorem readOp_of_isName (h : IsName name op cond) : readOp name = .ok { op, cond } := by
  apply toOption_eq_some.mp
  cases h with
  | named hop =>
    have hall : ∀ op ∈ Op.named, (readOp op.name.toList).toOption = some { op } := by
      decide +kernel
    exact hall op hop
  | set c =>
    have hall : ∀ c ∈ Flag.all, (readOp ("SET" ++ c.name).toList).toOption =
        some { op := .setcc, cond := .flag c } := by
      decide +kernel
    exact hall c (mem_flags c)
  | cmov c =>
    have hall : ∀ c ∈ Flag.all, (readOp ("CMOV" ++ c.name).toList).toOption =
        some { op := .cmovcc, cond := .flag c } := by
      decide +kernel
    exact hall c (mem_flags c)

theorem readWidth_eq_ok_iff :
    readWidth op suffix = .ok width ↔ IsWidth op (suffix.elim [] ('.' :: ·)) width := by
  cases suffix with
  | none =>
    constructor
    · intro h
      cases h
      rw [Option.elim_none]
      split
      · next hop =>
        subst hop
        exact .byte
      · next hop => exact .plain hop
    · intro h
      cases h with
      | byte => rfl
      | plain hop => exact congrArg Except.ok (if_neg hop)
  | some ds =>
    rw [readWidth]
    constructor
    · intro h
      split at h
      · next n hn =>
        cases h
        obtain ⟨hds, hmem, hdigits, hlt⟩ := readDecimal_eq_ok_iff.mp hn
        exact .digits hds hmem hdigits hlt
      · cases h
    · intro h
      cases h with
      | @digits _ _ n hds hmem hdigits hlt =>
        have hread : readDecimal 8 ds = .ok n := readDecimal_eq_ok_iff.mpr ⟨hds, hmem, hdigits, hlt⟩
        rw [hread]

theorem readGuest_eq_ok_iff : readGuest text = .ok target ↔ IsGuest text target := by
  rw [readGuest]
  constructor
  · intro h
    split at h
    · next n hn =>
      cases h
      obtain ⟨hlit, hlt⟩ := readUnsigned_eq_ok_iff.mp hn
      exact ⟨n, hlit, hlt, rfl⟩
    · cases h
  · rintro ⟨n, hlit, hlt, rfl⟩
    rw [readUnsigned_eq_ok_iff.mpr ⟨hlit, hlt⟩]

/-! ## Operands -/

theorem not_mem_of_mem_splitOn {sep : Char} {p : List Char} (h : p ∈ s.splitOn sep) : sep ∉ p := by
  induction s generalizing p with
  | nil =>
    rw [List.splitOn_nil, List.mem_singleton] at h
    subst h
    exact List.not_mem_nil
  | cons c cs ih =>
    rw [List.splitOn_cons_eq_if_modifyHead] at h
    obtain ⟨q, qs, hqs⟩ := List.exists_cons_of_ne_nil (List.splitOn_ne_nil sep cs)
    rw [hqs] at h ih
    split at h
    · obtain rfl | h := List.mem_cons.mp h
      · exact List.not_mem_nil
      · exact ih h
    · next hc =>
      rw [List.modifyHead_cons] at h
      obtain rfl | h := List.mem_cons.mp h
      · rw [List.mem_cons, not_or]
        exact ⟨fun heq => hc (beq_iff_eq.mpr heq.symm), ih List.mem_cons_self⟩
      · exact ih (List.mem_cons_of_mem _ h)

theorem areOperands_of_readOperands {r' : Request} (h : readOperands sb r text = .ok r') :
    ∃ os, AreOperands sb text os ∧
      r' = { r with dst := os.getD 0 r.dst, src := os.getD 1 r.src, aux := os.getD 2 r.aux } := by
  rw [readOperands] at h
  split at h
  · next hempty =>
    cases h
    obtain rfl := List.isEmpty_iff.mp hempty
    exact ⟨[], ⟨[], by decide, fun _ hp => absurd hp List.not_mem_nil, rfl, .nil⟩, rfl⟩
  · dsimp only at h
    split at h
    · cases h
    · next hlen =>
      cases hread : (text.splitOn ',').mapM fun p => readOperand sb (trimBlanks p) with
      | error e =>
        rw [hread] at h
        cases h
      | ok os =>
        rw [hread] at h
        have hparts := mapM_eq_ok.mp hread
        have hfew := Nat.le_of_not_lt hlen
        refine ⟨os, ⟨_, hfew, fun p hp => not_mem_of_mem_splitOn hp,
          (List.intercalate_splitOn ',').symm, hparts⟩, ?_⟩
        rw [hparts.length_eq] at hfew
        obtain _ | ⟨d, _ | ⟨s, _ | ⟨a, _ | ⟨o, os⟩⟩⟩⟩ := os
        all_goals first
          | exact (Except.ok.inj h).symm
          | exact absurd hfew (by simp)

theorem readOperands_of_areOperands (h : AreOperands sb text os) : readOperands sb r text =
    .ok { r with dst := os.getD 0 r.dst, src := os.getD 1 r.src, aux := os.getD 2 r.aux } := by
  obtain ⟨parts, hlen, hcomma, rfl, hparts⟩ := h
  cases parts with
  | nil =>
    cases hparts
    rfl
  | cons p ps =>
    have hsplit := List.splitOn_intercalate ',' hcomma (List.cons_ne_nil p ps)
    have hsome : ([','].intercalate (p :: ps)).isEmpty = false := by
      rw [List.isEmpty_eq_false_iff]
      intro hnil
      rw [hnil, List.splitOn_nil] at hsplit
      cases hsplit
      cases hparts with
      | cons hp _ => cases hp
    have hread := mapM_eq_ok.mpr hparts
    rw [readOperands, hsome, hsplit]
    simp only [Bool.false_eq_true, if_false, if_neg (Nat.not_lt.2 hlen), hread]
    rw [hparts.length_eq] at hlen
    obtain _ | ⟨d, _ | ⟨s, _ | ⟨a, _ | ⟨o, os⟩⟩⟩⟩ := os
    all_goals first
      | rfl
      | exact absurd hlen (by simp)

/-! ## Lines -/

theorem IsName.instruction (h : IsName name op cond) :
    '.' ∉ name ∧ name ≠ "GOTO".toList ∧ name ≠ "BRANCH".toList := by
  cases h with
  | named hop =>
    have hall : ∀ op ∈ Op.named, '.' ∉ op.name.toList ∧ op.name.toList ≠ "GOTO".toList ∧
        op.name.toList ≠ "BRANCH".toList := by
      decide +kernel
    exact hall op hop
  | set c =>
    have hall : ∀ c ∈ Flag.all, '.' ∉ ("SET" ++ c.name).toList ∧
        ("SET" ++ c.name).toList ≠ "GOTO".toList ∧ ("SET" ++ c.name).toList ≠ "BRANCH".toList := by
      decide +kernel
    exact hall c (mem_flags c)
  | cmov c =>
    have hall : ∀ c ∈ Flag.all, '.' ∉ ("CMOV" ++ c.name).toList ∧
        ("CMOV" ++ c.name).toList ≠ "GOTO".toList ∧
        ("CMOV" ++ c.name).toList ≠ "BRANCH".toList := by
      decide +kernel
    exact hall c (mem_flags c)

variable {mnemonic : List Char} {act : Attempt Assembler (Except Error Unit)} {l : Line}

/-- A jump with a suffix, which it does not have in the grammar. -/
def IsSuffixedGoto (word rest : List Char) (act : Attempt Assembler (Except Error Unit)) : Prop :=
  ∃ suffix target, word = "GOTO.".toList ++ suffix ∧ IsGuest rest target ∧
    act = do
      Assembler.jumpToGuest target
      return .ok ()

theorem readLine_goto {suffix : Option (List Char)}
    (hcut : cutAt '.' (mnemonic.map Case.upper) = ("GOTO".toList, suffix)) :
    readLine sb mnemonic rest = .goto <$> readGuest rest := by
  rw [readLine, hcut]
  rfl

theorem readLine_branch {suffix : Option (List Char)}
    (hcut : cutAt '.' (mnemonic.map Case.upper) = ("BRANCH".toList, suffix)) :
    readLine sb mnemonic rest =
      (Flag.ofName? (String.ofList (suffix.getD []))).elim (.error (.condition (suffix.getD [])))
        (.branch · <$> readGuest rest) := by
  rw [readLine, hcut]
  cases hc : Flag.ofName? (String.ofList (suffix.getD [])) <;> simp only [hc] <;> rfl

theorem readLine_instruction
    (hcut : cutAt '.' (mnemonic.map Case.upper) = (name, suffix)) (hgoto : name ≠ "GOTO".toList)
    (hbranch : name ≠ "BRANCH".toList) :
    readLine sb mnemonic rest = readOp name >>= fun r =>
      readWidth r.op suffix >>= fun width =>
        .instruction <$> readOperands sb { r with width } rest := by
  rw [readLine, hcut]
  dsimp only
  rw [if_neg hgoto, if_neg hbranch]
  rfl

theorem written_of_readLine (h : readLine sb mnemonic rest = .ok l) :
    Written sb (mnemonic.map Case.upper) rest l.emit ∨
      IsSuffixedGoto (mnemonic.map Case.upper) rest l.emit := by
  have hword := eq_of_cutAt '.' (mnemonic.map Case.upper)
  cases hcut : cutAt '.' (mnemonic.map Case.upper) with
  | mk name suffix =>
  rw [hcut] at hword
  rw [hword]
  by_cases hgoto : name = "GOTO".toList
  · subst hgoto
    rw [readLine_goto hcut] at h
    obtain ⟨target, htarget, rfl⟩ := map_eq_ok.mp h
    have hguest := readGuest_eq_ok_iff.mp htarget
    cases suffix with
    | none => exact .inl (.goto hguest)
    | some s => exact .inr ⟨s, target, rfl, hguest, rfl⟩
  by_cases hbranch : name = "BRANCH".toList
  · subst hbranch
    rw [readLine_branch hcut] at h
    cases hc : Flag.ofName? (String.ofList (suffix.getD [])) with
    | none =>
      rw [hc] at h
      cases h
    | some c =>
      rw [hc] at h
      obtain ⟨target, htarget, rfl⟩ := map_eq_ok.mp h
      have hguest := readGuest_eq_ok_iff.mp htarget
      rw [ofName?_eq_some_iff] at hc
      cases suffix with
      | none => cases c <;> cases hc -- no condition has an empty name
      | some s =>
        obtain rfl : s = c.name.toList := hc
        have hwritten : Written sb ("BRANCH." ++ c.name).toList rest _ := .branch hguest
        rw [String.toList_append] at hwritten
        exact .inl hwritten
  rw [readLine_instruction hcut hgoto hbranch] at h
  obtain ⟨r, hr, h⟩ := bind_eq_ok.mp h
  obtain ⟨width, hwidth, h⟩ := bind_eq_ok.mp h
  obtain ⟨r', hr', rfl⟩ := map_eq_ok.mp h
  obtain ⟨op, cond, hname, rfl⟩ := isName_of_readOp hr
  obtain ⟨os, hos, rfl⟩ := areOperands_of_readOperands hr'
  exact .inl (.instruction hname (readWidth_eq_ok_iff.mp hwidth) hos)

theorem cutAt_name (hname : '.' ∉ name) {suffix : List Char} (h : IsWidth op suffix width) :
    ∃ s, cutAt '.' (name ++ suffix) = (name, s) ∧ s.elim [] ('.' :: ·) = suffix := by
  cases h with
  | digits _ _ _ _ => exact ⟨_, cutAt_append hname _, rfl⟩
  | byte => exact ⟨_, by rw [List.append_nil, cutAt_of_not_mem hname], rfl⟩
  | plain _ => exact ⟨_, by rw [List.append_nil, cutAt_of_not_mem hname], rfl⟩

theorem readLine_of_written (h : Written sb (mnemonic.map Case.upper) rest act) :
    ∃ l, readLine sb mnemonic rest = .ok l ∧ l.emit = act := by
  generalize hword : mnemonic.map Case.upper = word at h
  cases h with
  | goto hguest =>
    have hcut : cutAt '.' (mnemonic.map Case.upper) = ("GOTO".toList, none) := by
      rw [hword]
      rfl
    rw [readLine_goto hcut, readGuest_eq_ok_iff.mpr hguest]
    exact ⟨_, rfl, rfl⟩
  | @branch c _ _ hguest =>
    have hcut : cutAt '.' (mnemonic.map Case.upper) = ("BRANCH".toList, some c.name.toList) := by
      rw [hword, String.toList_append]
      rfl
    rw [readLine_branch hcut, Option.getD_some, ofName?_eq_some_iff.mpr rfl,
      readGuest_eq_ok_iff.mpr hguest]
    exact ⟨_, rfl, rfl⟩
  | instruction hname hwidth hos =>
    obtain ⟨hpoint, hgoto, hbranch⟩ := hname.instruction
    obtain ⟨s, hcut, rfl⟩ := cutAt_name hpoint hwidth
    rw [← hword] at hcut
    rw [readLine_instruction hcut hgoto hbranch, readOp_of_isName hname]
    refine ⟨.instruction _, ?_, rfl⟩
    change (readWidth _ s >>= _) = _
    rw [readWidth_eq_ok_iff.mpr hwidth]
    change (_ <$> readOperands sb _ rest) = _
    rw [readOperands_of_areOperands hos]
    rfl

theorem readLine_of_suffixedGoto (h : IsSuffixedGoto (mnemonic.map Case.upper) rest act) :
    ∃ l, readLine sb mnemonic rest = .ok l ∧ l.emit = act := by
  obtain ⟨suffix, target, hword, hguest, rfl⟩ := h
  have hcut : cutAt '.' (mnemonic.map Case.upper) = ("GOTO".toList, some suffix) := by
    rw [hword]
    rfl
  rw [readLine_goto hcut, readGuest_eq_ok_iff.mpr hguest]
  exact ⟨_, rfl, rfl⟩

theorem not_written_of_goto {suffix : List Char} :
    ¬Written sb ("GOTO.".toList ++ suffix) rest act := by
  intro h
  have hcut : cutAt '.' ("GOTO.".toList ++ suffix) = ("GOTO".toList, some suffix) := rfl
  generalize "GOTO.".toList ++ suffix = word at h hcut
  cases h with
  | goto _ => cases hcut
  | @branch c _ _ _ =>
    rw [String.toList_append] at hcut
    cases hcut
  | instruction hname hwidth _ =>
    obtain ⟨hpoint, hgoto, -⟩ := hname.instruction
    obtain ⟨s, hname, -⟩ := cutAt_name hpoint hwidth
    rw [hname] at hcut
    exact hgoto (congrArg Prod.fst hcut)

/-- The lines that are accepted are those of the grammar, which emit what is written, and besides
them the jumps with a suffix, which do what they do without it. -/
theorem readLine_accepts_iff (sb : HostAddress) (mnemonic rest : List Char)
    (act : Attempt Assembler (Except Error Unit)) :
    (Line.emit <$> readLine sb mnemonic rest = .ok act ↔
      Written sb (mnemonic.map Case.upper) rest act ∨
        IsSuffixedGoto (mnemonic.map Case.upper) rest act) ∧
    ¬(Written sb (mnemonic.map Case.upper) rest act ∧
      IsSuffixedGoto (mnemonic.map Case.upper) rest act) := by
  constructor
  · rw [map_eq_ok]
    constructor
    · rintro ⟨l, h, rfl⟩
      exact written_of_readLine h
    · rintro (h | h)
      · exact readLine_of_written h
      · exact readLine_of_suffixedGoto h
  · rintro ⟨hwritten, suffix, target, hword, -⟩
    rw [hword] at hwritten
    exact not_written_of_goto hwritten

/-- The suffix of `goto.e` is ignored, although there is no such line in the grammar. -/
theorem goto_suffix_ignored :
    readLine 0 "goto.e".toList "0x10".toList = .ok (.goto 0x10) ∧
      readLine 0 "goto".toList "0x10".toList = .ok (.goto 0x10) ∧
      ∀ act, ¬Written 0 ("goto.e".toList.map Case.upper) "0x10".toList act :=
  ⟨rfl, rfl, fun _ => not_written_of_goto⟩

end HostCode.Source
