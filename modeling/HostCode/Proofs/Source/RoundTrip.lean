import HostCode.Proofs.Text.Numeral
import HostCode.Source.Program

/-! # Requests read back

The text of a request is a line of source: reading it gives the request again. Names and
numbers are words of letters and digits, so the marks between them are where the reader cuts.
-/

namespace HostCode

open Numeral

/-! ## Cutting -/

theorem cutAt_of_not_mem {sep : Char} {s : List Char} (h : sep ∉ s) : cutAt sep s = (s, none) := by
  induction s with
  | nil => rfl
  | cons c cs ih =>
    rw [List.mem_cons, not_or] at h
    rw [cutAt, if_neg (Ne.symm h.1), ih h.2]

theorem cutAt_append {sep : Char} {s : List Char} (h : sep ∉ s) (t : List Char) :
    cutAt sep (s ++ sep :: t) = (s, some t) := by
  induction s with
  | nil => rw [List.nil_append, cutAt, if_pos rfl]
  | cons c cs ih =>
    rw [List.mem_cons, not_or] at h
    rw [List.cons_append, cutAt, if_neg (Ne.symm h.1), ih h.2]

theorem eq_of_cutAt (sep : Char) (s : List Char) : s =
    (cutAt sep s).1 ++ ((cutAt sep s).2.elim [] (sep :: ·)) := by
  induction s with
  | nil => rfl
  | cons c cs ih =>
    rw [cutAt]
    split
    · next hc => rw [hc]; rfl
    · exact congrArg (c :: ·) ih

theorem trimBlanks_of_solid {s : List Char} (h : ∀ c ∈ s, isBlank c = false) :
    trimBlanks s = s := by
  have hdrop : ∀ l : List Char, (∀ c ∈ l, isBlank c = false) → l.dropWhile isBlank = l := by
    intro l hl
    cases l with
    | nil => rfl
    | cons c cs => rw [List.dropWhile_cons, hl c List.mem_cons_self]; rfl
  rw [trimBlanks, hdrop s h, hdrop s.reverse (by simpa using h), List.reverse_reverse]

theorem trimBlanks_space (s : List Char) : trimBlanks (' ' :: s) = trimBlanks s := rfl

/-! ## Words -/

def IsWord (s : List Char) : Prop := ∀ c ∈ s, c.isAlphanum = true

theorem IsWord.not_mem {s : List Char} {c : Char} (h : IsWord s) (hc : c.isAlphanum = false) :
    c ∉ s := fun hmem => by simp [h c hmem] at hc

theorem isWord_toDigits {b n : Nat} (hb : 1 < b) (hb' : b ≤ 16) : IsWord (Nat.toDigits b n) := by
  intro c hc
  obtain ⟨d, hd, rfl⟩ := mem_toDigits hb hb' hc
  have hall : ∀ d < 16, (Nat.digitChar d).isAlphanum = true := by decide
  exact hall d hd

theorem isWord_hexDigits (n : Nat) : IsWord (hexDigits n) := isWord_toDigits (by decide) (by decide)

theorem isWord_hex (n : Nat) : IsWord ('0' :: 'x' :: hexDigits n) := by
  intro c hc
  simp only [List.mem_cons] at hc
  obtain rfl | rfl | hc := hc
  · rfl
  · rfl
  · exact isWord_hexDigits n c hc

theorem isWord_register {r : Register} (h : r ∈ Register.named) : IsWord r.name.toList := by
  have hall : ∀ r ∈ Register.named, r.name.toList.all Char.isAlphanum = true := by decide +kernel
  exact List.all_eq_true.1 (hall r h)

/-- A text that a list of operands can hold as one of them: no blanks, and no comma. -/
def IsSolid (s : List Char) : Prop := ∀ c ∈ s, isBlank c = false ∧ c ≠ ','

theorem isBlank_of_isAlphanum {c : Char} (h : c.isAlphanum = true) : isBlank c = false := by
  unfold Char.isAlphanum Char.isAlpha Char.isUpper Char.isLower Char.isDigit at h
  simp only [Bool.or_eq_true, Bool.and_eq_true, decide_eq_true_eq, ge_iff_le,
    UInt32.le_iff_toNat_le] at h
  change ((65 ≤ c.toNat ∧ c.toNat ≤ 90) ∨ (97 ≤ c.toNat ∧ c.toNat ≤ 122)) ∨
    (48 ≤ c.toNat ∧ c.toNat ≤ 57) at h
  simp only [isBlank, Bool.or_eq_false_iff, Bool.and_eq_false_iff, decide_eq_false_iff_not,
    beq_eq_false_iff_ne]
  omega

theorem IsWord.isSolid {s : List Char} (h : IsWord s) : IsSolid s := fun c hc =>
  ⟨isBlank_of_isAlphanum (h c hc), fun hcomma => h.not_mem (by rfl) (hcomma ▸ hc)⟩

theorem IsSolid.append {s t : List Char} (hs : IsSolid s) (ht : IsSolid t) : IsSolid (s ++ t) :=
  fun c hc => (List.mem_append.1 hc).elim (hs c) (ht c)

theorem IsSolid.cons {c : Char} {s : List Char} (hc : isBlank c = false) (hc' : c ≠ ',')
    (hs : IsSolid s) : IsSolid (c :: s) := fun _ hd =>
  (List.mem_cons.1 hd).elim (fun he => he ▸ ⟨hc, hc'⟩) (hs _)

theorem isSolid_nil : IsSolid [] := fun _ h => absurd h List.not_mem_nil

theorem upper_of_isDigit {c : Char} (h : c.isDigit = true) : Case.upper c = c := by
  simp only [Char.isDigit, Bool.and_eq_true, decide_eq_true_eq, ge_iff_le,
    UInt32.le_iff_toNat_le] at h
  change 48 ≤ c.toNat ∧ c.toNat ≤ 57 at h
  rw [Case.upper_ascii (by omega)]
  unfold Char.toUpper
  rw [dif_neg]
  rw [UInt32.le_iff_toNat_le]
  change ¬(97 ≤ c.toNat ∧ _)
  omega

/-! ## Requests that have a text of their own -/

/-- Operands whose text names them: registers and constants, and memory at a register. -/
inductive Operand.Legible : Operand → Prop
  | reg {r : Register} : r ∈ Register.named → Legible (.reg r)
  | imm {v : Int64} {bits : UInt8} : bits ∈ [8, 16, 32, 64] → Legible (.imm v bits)
  | mem {base : Register} {disp : Int32} :
      base ∈ Register.named → Legible (.mem base .none 0 disp)
  | indexed {base index : Register} {scale : UInt8} {disp : Int32} :
      base ∈ Register.named → index ∈ Register.named → Legible (.mem base index scale disp)

/-- Requests that their text names. A condition is there where the operation has one in its
name, and the operands that are there come first. -/
structure Request.Legible (r : Request) : Prop where
  op : r.op ∈ Op.named
  cond : if r.op = .setcc ∨ r.op = .cmovcc then ∃ c, r.cond = .flag c else r.cond = .flag .o
  operand : ∀ o ∈ [r.dst, r.src, r.aux], o = .none ∨ o.Legible
  src : r.dst = .none → r.src = .none
  aux : r.src = .none → r.aux = .none

theorem Operand.Legible.isNone {o : Operand} (h : o.Legible) : o.isNone = false := by
  cases h <;> rfl

theorem Operand.isNone_none : Operand.isNone .none = true := rfl

namespace Source

/-! ## Registers and constants -/

theorem register?_name : ∀ r ∈ Register.named, register? r.name.toList = some r := by
  decide +kernel

theorem register?_hex (n : Nat) : register? ('0' :: 'x' :: hexDigits n) = none := by
  have hhead : ∀ r ∈ Register.named, r.name.toList.head? ≠ some '0' := by decide +kernel
  rw [register?, Register.ofName?, List.find?_eq_none]
  intro r hr hname
  apply hhead r hr
  rw [beq_iff_eq.1 hname, String.toList_ofList]
  rfl

theorem readOperand_register (sb : HostAddress) {r : Register} (h : r ∈ Register.named) :
    readOperand sb r.name.toList = .ok (.reg r) := by
  have hstate : ∀ r ∈ Register.named, (r.name.toList.take 5).map Case.lower ≠ stateWord := by
    decide +kernel
  have hword := isWord_register h
  rw [readOperand.eq_def]
  split
  · next hnil =>
    have hread := register?_name r h
    rw [hnil, show register? [] = none by decide +kernel] at hread
    cases hread
  · next hcons => exact absurd (hword '$' (by simp [hcons])) (by decide)
  · next hcons => exact absurd (hword '@' (by simp [hcons])) (by decide)
  · next hcons => exact absurd (hword '[' (by simp [hcons])) (by decide)
  · rw [if_neg (hstate r h), register?_name r h]

theorem readConstant_signedHex (v : Int64) :
    readConstant (signedHex v.toInt).toList = .ok v := by
  have hlo : -(1 <<< 63 : Nat) ≤ v.toInt := v.le_toInt
  have hhi : v.toInt < (1 <<< 63 : Nat) := v.toInt_lt
  rw [readConstant, readSigned_signedHex hlo hhi]
  exact congrArg Except.ok v.ofInt_toInt

theorem toList_signedHex (v : Int) :
    (signedHex v).toList = '0' :: 'x' :: hexDigits v.natAbs ∨
      (signedHex v).toList = '-' :: '0' :: 'x' :: hexDigits v.natAbs := by
  rw [signedHex]
  split
  · exact .inr (by rw [String.toList_append, toList_hex]; rfl)
  · exact .inl (toList_hex _)

theorem readImmediate_render (v : Int64) {bits : UInt8} (h : bits ∈ [8, 16, 32, 64]) :
    readImmediate ((signedHex v.toInt).toList ++ ':' :: Nat.toDigits 10 bits.toNat) =
      .ok (.imm v bits) := by
  have hcolon : ':' ∉ (signedHex v.toInt).toList := by
    have hword := (isWord_hex v.toInt.natAbs).not_mem (c := ':') (by rfl)
    obtain hs | hs := toList_signedHex v.toInt
    · rwa [hs]
    · rw [hs, List.mem_cons, not_or]
      exact ⟨by decide, hword⟩
  rw [readImmediate, cutAt_append hcolon]
  simp only [readConstant_signedHex]
  simp only [List.mem_cons, List.not_mem_nil, or_false] at h
  obtain rfl | rfl | rfl | rfl := h <;> rfl

/-! ## Memory -/

def IsNext (s : List Char) : Prop := ∀ c ∈ s.head?, isSign c = true

def IsTerm (s : List Char) : Prop := ∀ c ∈ s, isSign c = false

theorem isTerm_of_isWord {s : List Char} (h : IsWord s) : IsTerm s := by
  intro c hc
  simp only [isSign, Bool.or_eq_false_iff, beq_eq_false_iff_ne]
  exact ⟨fun he => h.not_mem (by rfl) (he ▸ hc), fun he => h.not_mem (by rfl) (he ▸ hc)⟩

theorem takeWhile_term {word rest : List Char} (hw : IsTerm word) (hr : IsNext rest) :
    (word ++ rest).takeWhile (!isSign ·) = word := by
  rw [List.takeWhile_append_of_pos fun c hc => by rw [hw c hc]; rfl]
  cases rest with
  | nil => simp
  | cons c cs => simp [hr c rfl]

theorem dropWhile_term {word rest : List Char} (hw : IsTerm word) (hr : IsNext rest) :
    (word ++ rest).dropWhile (!isSign ·) = rest := by
  rw [List.dropWhile_append_of_pos fun c hc => by rw [hw c hc]; rfl]
  cases rest with
  | nil => rfl
  | cons c cs => simp [hr c rfl]

theorem readTerms_first {t : Terms} {word rest : List Char} (hne : word ≠ [])
    (hw : IsTerm word) (hr : IsNext rest) :
    readTerms t (word ++ rest) = t.add false word >>= fun t => readTerms t rest := by
  obtain ⟨c, cs, rfl⟩ := List.exists_cons_of_ne_nil hne
  have hc : isSign c = false := hw c List.mem_cons_self
  have hcs : IsTerm cs := fun d hd => hw d (List.mem_cons_of_mem _ hd)
  have hminus : (c == '-') = false := (Bool.or_eq_false_iff.1 hc).2
  rw [List.cons_append, readTerms, takeWhile_term hcs hr, dropWhile_term hcs hr, hc, hminus]
  rfl

theorem readTerms_next {t : Terms} {c : Char} {word rest : List Char} (hc : isSign c = true)
    (hw : IsTerm word) (hr : IsNext rest) :
    readTerms t (c :: (word ++ rest)) = t.add (c == '-') word >>= fun t => readTerms t rest := by
  rw [readTerms, takeWhile_term hw hr, dropWhile_term hw hr, hc]
  rfl

theorem add_base {r : Register} (h : r ∈ Register.named) :
    Terms.add {} false r.name.toList = .ok { base := r } := by
  rw [Terms.add, cutAt_of_not_mem ((isWord_register h).not_mem (by rfl))]
  simp only [register?_name r h]
  rfl

theorem add_index {t : Terms} {r : Register} (h : r ∈ Register.named) (ht : t.index = .none)
    (scale : UInt8) :
    t.add false (r.name.toList ++ '*' :: Nat.toDigits 10 scale.toNat) =
      .ok { t with index := r, scale } := by
  have hscale : readUnsigned 8 (Nat.toDigits 10 scale.toNat) = .ok scale.toNat :=
    readUnsigned_toDigits scale.toNat_lt
  rw [Terms.add, cutAt_append ((isWord_register h).not_mem (by rfl))]
  simp only [register?_name r h, ht, hscale, UInt8.ofNat_toNat]
  rfl

theorem add_disp {t : Terms} {n : Nat} (h : n < 1 <<< 63) (negative : Bool) :
    t.add negative ('0' :: 'x' :: hexDigits n) =
      .ok { t with disp := t.disp + if negative then -Int64.ofInt n else Int64.ofInt n } := by
  rw [Terms.add, cutAt_of_not_mem ((isWord_hex n).not_mem (by rfl))]
  simp only [register?_hex, readSigned_hexDigits h]

theorem isNext_nil : IsNext [] := fun _ h => by cases h

theorem readTerms_plusHex (t : Terms) (disp : Int32) :
    readTerms t (plusHex disp.toInt).toList =
      .ok { t with disp := t.disp + disp.toInt64 } := by
  have hbound : disp.toInt.natAbs < 1 <<< 63 := by
    have hlo : -2147483648 ≤ disp.toInt := disp.le_toInt
    have hhi : disp.toInt < 2147483648 := disp.toInt_lt
    omega
  have hread : ∀ c, isSign c = true → readTerms t (c :: '0' :: 'x' :: hexDigits disp.toInt.natAbs) =
      (t.add (c == '-') ('0' :: 'x' :: hexDigits disp.toInt.natAbs) >>= (readTerms · [])) := by
    intro c hc
    have hnext := readTerms_next (t := t) hc (isTerm_of_isWord (isWord_hex disp.toInt.natAbs))
      isNext_nil
    rwa [List.append_nil] at hnext
  rw [plusHex]
  split
  · next hneg =>
    have habs : -(disp.toInt.natAbs : Int) = disp.toInt := by omega
    rw [String.toList_append, toList_hex]
    refine (hread '-' rfl).trans ?_
    rw [add_disp hbound, if_pos (by rfl), ← Int64.ofInt_neg, habs, Int64.ofInt_int32ToInt]
    exact readTerms.eq_1 _
  · next hpos =>
    have habs : (disp.toInt.natAbs : Int) = disp.toInt := by omega
    rw [String.toList_append, toList_hex]
    refine (hread '+' rfl).trans ?_
    rw [add_disp hbound, if_neg (by decide), habs, Int64.ofInt_int32ToInt]
    exact readTerms.eq_1 _

def dispText (disp : Int32) : List Char := (if disp = 0 then "" else plusHex disp.toInt).toList

theorem readTerms_dispText {t : Terms} (ht : t.disp = 0) (disp : Int32) :
    readTerms t (dispText disp) = .ok { t with disp := disp.toInt64 } := by
  rw [dispText]
  split
  · next hzero =>
    rw [String.toList_empty, readTerms, hzero, show (0 : Int32).toInt64 = t.disp from ht ▸ rfl]
  · rw [readTerms_plusHex, ht, Int64.zero_add]

theorem isNext_dispText (disp : Int32) : IsNext (dispText disp) := by
  rw [dispText]
  split
  · exact isNext_nil
  · rw [plusHex]
    split <;> rw [String.toList_append, toList_hex] <;> rintro _ ⟨⟩ <;> rfl

def indexText (index : Register) (scale : UInt8) : List Char :=
  if index = .none then [] else '+' :: (index.name.toList ++ '*' :: Nat.toDigits 10 scale.toNat)

theorem toList_render_mem (base index : Register) (scale : UInt8) (disp : Int32) :
    (Operand.render (.mem base index scale disp)).toList =
      '[' :: (base.name.toList ++ indexText index scale ++ dispText disp ++ [']']) := by
  rw [Operand.render, dispText, indexText]
  split <;> simp

theorem ne_none_of_named {r : Register} (h : r ∈ Register.named) : r ≠ .none := by
  rintro rfl
  exact absurd h (by decide)

theorem name_ne_nil {r : Register} (h : r ∈ Register.named) : r.name.toList ≠ [] := by
  have hall : ∀ r ∈ Register.named, r.name.toList ≠ [] := by decide +kernel
  exact hall r h

theorem readTerms_base {base : Register} (hb : base ∈ Register.named) {rest : List Char}
    (hr : IsNext rest) :
    readTerms {} (base.name.toList ++ rest) = readTerms { base } rest := by
  rw [readTerms_first (name_ne_nil hb) (isTerm_of_isWord (isWord_register hb)) hr, add_base hb]
  rfl

theorem readTerms_indexText {t : Terms} {index : Register} (hi : index ∈ Register.named)
    (ht : t.index = .none) (scale : UInt8) {rest : List Char} (hr : IsNext rest) :
    readTerms t (indexText index scale ++ rest) = readTerms { t with index, scale } rest := by
  have hterm : IsTerm (index.name.toList ++ '*' :: Nat.toDigits 10 scale.toNat) := by
    intro c hc
    rw [List.mem_append, List.mem_cons] at hc
    obtain hc | rfl | hc := hc
    · exact isTerm_of_isWord (isWord_register hi) c hc
    · rfl
    · exact isTerm_of_isWord (isWord_toDigits (by decide) (by decide)) c hc
  rw [indexText, if_neg (ne_none_of_named hi)]
  refine (readTerms_next rfl hterm hr).trans ?_
  rw [show ('+' == '-') = false from rfl, add_index hi ht]
  rfl

theorem fitsBits_toInt64 (disp : Int32) : fitsBits 32 disp.toInt64 = true := by
  have hlo : -2147483648 ≤ disp.toInt := disp.le_toInt
  have hhi : disp.toInt < 2147483648 := disp.toInt_lt
  rw [fitsBits, Int32.toInt_toInt64, Bool.and_eq_true, decide_eq_true_eq, decide_eq_true_eq]
  exact ⟨hlo, hhi⟩

theorem readMemory_of_terms {text : List Char} {t : Terms} {disp : Int32} (hs : IsSolid text)
    (ht : readTerms {} text = .ok t) (hd : t.disp = disp.toInt64) (hb : t.base ≠ .none) :
    readMemory text =
      .ok (.mem t.base t.index (if t.index = .none then 0 else t.scale) disp) := by
  have hspaces : withoutSpaces text = text := by
    rw [withoutSpaces, List.filter_eq_self]
    intro c hc
    rw [decide_eq_true_eq]
    rintro rfl
    exact absurd (hs ' ' hc).1 (by decide)
  rw [readMemory, hspaces, ht]
  simp only [bind, Except.bind, hd, fitsBits_toInt64, Bool.not_true, Bool.false_eq_true, if_false,
    if_neg hb, Int32.toInt32_toInt64]
  split
  · next hi => rw [hi]; rfl
  · rfl

theorem readOperand_memory (sb : HostAddress) {text : List Char} {o : Operand}
    (h : readMemory text = .ok o) : readOperand sb ('[' :: (text ++ [']'])) = .ok o := by
  rw [readOperand, if_pos List.getLast?_concat, List.dropLast_concat, h]

/-! ## Operands -/

theorem isSolid_hex (n : Nat) : IsSolid ('0' :: 'x' :: hexDigits n) := (isWord_hex n).isSolid

theorem isSolid_dispText (disp : Int32) : IsSolid (dispText disp) := by
  rw [dispText]
  split
  · exact isSolid_nil
  · rw [plusHex]
    split <;> rw [String.toList_append, toList_hex] <;>
      exact .cons (by decide) (by decide) (isSolid_hex _)

theorem isSolid_indexText {index : Register} (h : index = .none ∨ index ∈ Register.named)
    (scale : UInt8) : IsSolid (indexText index scale) := by
  rw [indexText]
  split
  · exact isSolid_nil
  · next hsome =>
    have hname := (isWord_register (h.resolve_left hsome)).isSolid
    have hdigits : IsSolid (Nat.toDigits 10 scale.toNat) :=
      (isWord_toDigits (by decide) (by decide)).isSolid
    exact .cons (by decide) (by decide) (hname.append (.cons (by decide) (by decide) hdigits))

theorem isSolid_signedHex (v : Int) : IsSolid (signedHex v).toList := by
  obtain hs | hs := toList_signedHex v
  · rw [hs]
    exact isSolid_hex _
  · rw [hs]
    exact .cons (by decide) (by decide) (isSolid_hex _)

theorem toList_render_imm (v : Int64) (bits : UInt8) :
    (Operand.render (.imm v bits)).toList =
      '$' :: ((signedHex v.toInt).toList ++ ':' :: Nat.toDigits 10 bits.toNat) := by
  simp [Operand.render]

theorem isSolid_terms {base index : Register} (hb : base ∈ Register.named)
    (hi : index = .none ∨ index ∈ Register.named) (scale : UInt8) (disp : Int32) :
    IsSolid (base.name.toList ++ indexText index scale ++ dispText disp) :=
  ((isWord_register hb).isSolid.append (isSolid_indexText hi scale)).append (isSolid_dispText disp)

theorem isSolid_render {o : Operand} (h : o.Legible) : IsSolid o.render.toList := by
  have hbracket : IsSolid [']'] := .cons (by decide) (by decide) isSolid_nil
  cases h with
  | reg hr => exact (isWord_register hr).isSolid
  | @imm v bits hbits =>
    have hdigits : IsSolid (Nat.toDigits 10 bits.toNat) :=
      (isWord_toDigits (by decide) (by decide)).isSolid
    rw [toList_render_imm]
    exact .cons (by decide) (by decide)
      ((isSolid_signedHex _).append (.cons (by decide) (by decide) hdigits))
  | mem hb =>
    rw [toList_render_mem]
    exact .cons (by decide) (by decide) ((isSolid_terms hb (.inl rfl) _ _).append hbracket)
  | indexed hb hi =>
    rw [toList_render_mem]
    exact .cons (by decide) (by decide) ((isSolid_terms hb (.inr hi) _ _).append hbracket)

theorem readOperand_render (sb : HostAddress) {o : Operand} (h : o.Legible) :
    readOperand sb o.render.toList = .ok o := by
  cases h with
  | reg hr => exact readOperand_register sb hr
  | imm hbits =>
    rw [toList_render_imm]
    exact readImmediate_render _ hbits
  | @mem base disp hb =>
    have hterms : readTerms {} (base.name.toList ++ indexText .none 0 ++ dispText disp) =
        .ok { base, disp := disp.toInt64 } := by
      rw [indexText, if_pos rfl, List.append_nil, readTerms_base hb (isNext_dispText disp)]
      exact readTerms_dispText rfl disp
    rw [toList_render_mem]
    exact readOperand_memory sb
      (readMemory_of_terms (isSolid_terms hb (.inl rfl) 0 disp) hterms rfl (ne_none_of_named hb))
  | @indexed base index scale disp hb hi =>
    have hnext : IsNext (indexText index scale ++ dispText disp) := by
      rw [indexText, if_neg (ne_none_of_named hi)]
      rintro _ ⟨⟩
      rfl
    have hterms : readTerms {} (base.name.toList ++ indexText index scale ++ dispText disp) =
        .ok { base, index, scale, disp := disp.toInt64 } := by
      rw [List.append_assoc, readTerms_base hb hnext,
        readTerms_indexText hi rfl scale (isNext_dispText disp)]
      exact readTerms_dispText rfl disp
    have hread := readMemory_of_terms (isSolid_terms hb (.inr hi) scale disp) hterms rfl
      (ne_none_of_named hb)
    rw [if_neg (ne_none_of_named hi)] at hread
    rw [toList_render_mem]
    exact readOperand_memory sb hread

/-! ## Lines -/

theorem splitOn_operands {t : List Char} {ts : List (List Char)}
    (h : ∀ s ∈ t :: ts, IsSolid s) :
    ([',', ' '].intercalate (t :: ts)).splitOn ',' = t :: ts.map (' ' :: ·) := by
  have hblank : ∀ (t : List Char) ts, [',', ' '].intercalate (t :: ts) =
      [','].intercalate (t :: ts.map (' ' :: ·)) := by
    intro t ts
    induction ts generalizing t with
    | nil => simp
    | cons s ts ih =>
      rw [List.intercalate_cons_cons, ih, List.map_cons, List.intercalate_cons_cons]
      cases ts <;> simp [List.intercalate_cons_cons]
  rw [hblank]
  apply List.splitOn_intercalate
  · intro s hs hcomma
    rw [List.mem_cons, List.mem_map] at hs
    obtain rfl | ⟨s, hs, rfl⟩ := hs
    · exact (h _ List.mem_cons_self _ hcomma).2 rfl
    · rw [List.mem_cons] at hcomma
      obtain hcomma | hcomma := hcomma
      · exact absurd hcomma (by decide)
      · exact (h s (List.mem_cons_of_mem _ hs) _ hcomma).2 rfl
  · exact List.cons_ne_nil _ _

theorem mapM_readOperand (sb : HostAddress) {os : List Operand} (h : ∀ o ∈ os, o.Legible)
    {text : Operand → List Char} (ht : ∀ o ∈ os, trimBlanks (text o) = o.render.toList) :
    (os.map text).mapM (fun p => readOperand sb (trimBlanks p)) = .ok os := by
  induction os with
  | nil => rfl
  | cons o os ih =>
    rw [List.map_cons, List.mapM_cons, ht o List.mem_cons_self,
      readOperand_render sb (h o List.mem_cons_self),
      ih (fun p hp => h p (List.mem_cons_of_mem _ hp)) fun p hp => ht p (List.mem_cons_of_mem _ hp)]
    rfl

def operandsText (os : List Operand) : List Char :=
  [',', ' '].intercalate (os.map (·.render.toList))

theorem readOperands_nil (sb : HostAddress) (r : Request) :
    readOperands sb r (operandsText []) = .ok r := rfl

theorem readOperands_cons (sb : HostAddress) (r : Request) {o : Operand} {os : List Operand}
    (h : ∀ p ∈ o :: os, p.Legible) (hlen : os.length ≤ 2) :
    readOperands sb r (operandsText (o :: os)) =
      match o :: os with
      | [d] => .ok { r with dst := d }
      | [d, s] => .ok { r with dst := d, src := s }
      | [d, s, a] => .ok { r with dst := d, src := s, aux := a }
      | _ => .ok r := by
  have hsolid : ∀ s ∈ o.render.toList :: os.map (·.render.toList), IsSolid s := by
    intro s hs
    rw [List.mem_cons, List.mem_map] at hs
    obtain rfl | ⟨p, hp, rfl⟩ := hs
    · exact isSolid_render (h o List.mem_cons_self)
    · exact isSolid_render (h p (List.mem_cons_of_mem _ hp))
  have htrim : ∀ p ∈ o :: os, trimBlanks p.render.toList = p.render.toList := fun p hp =>
    trimBlanks_of_solid fun c hc => (isSolid_render (h p hp) c hc).1
  have hsplit : (operandsText (o :: os)).splitOn ',' =
      o.render.toList :: os.map fun p => ' ' :: p.render.toList := by
    rw [operandsText, List.map_cons, splitOn_operands hsolid, List.map_map]
    rfl
  have hread : ((operandsText (o :: os)).splitOn ',').mapM
      (fun p => readOperand sb (trimBlanks p)) = .ok (o :: os) := by
    rw [hsplit, List.mapM_cons, htrim o List.mem_cons_self,
      readOperand_render sb (h o List.mem_cons_self),
      mapM_readOperand sb (fun p hp => h p (List.mem_cons_of_mem _ hp)) fun p hp => by
        rw [trimBlanks_space, htrim p (List.mem_cons_of_mem _ hp)]]
    rfl
  have hfew : ¬3 < ((operandsText (o :: os)).splitOn ',').length := by
    rw [hsplit]
    simp only [List.length_cons, List.length_map]
    omega
  have hsome : (operandsText (o :: os)).isEmpty = false := by
    rw [List.isEmpty_eq_false_iff]
    intro hnil
    have hfirst : [] = o.render.toList := (List.cons.inj (hnil ▸ hsplit)).1
    have ho := readOperand_render sb (h o List.mem_cons_self)
    rw [← hfirst] at ho
    cases ho
  rw [readOperands, hsome]
  simp only [Bool.false_eq_true, if_false, if_neg hfew, hread]
  rcases os with - | ⟨p, - | ⟨q, - | ⟨q', os⟩⟩⟩ <;> rfl

def heads : List Request :=
  Op.named.flatMap fun op =>
    if op = .setcc ∨ op = .cmovcc then Flag.all.map fun c => { op, cond := .flag c } else [{ op }]

theorem mem_heads {r : Request} (h : r.Legible) : { op := r.op, cond := r.cond } ∈ heads := by
  have hcond := h.cond
  rw [heads, List.mem_flatMap]
  refine ⟨r.op, h.op, ?_⟩
  split at hcond
  · next hop =>
    obtain ⟨c, hc⟩ := hcond
    rw [if_pos hop, List.mem_map]
    exact ⟨c, by cases c <;> decide, by rw [hc]⟩
  · next hop => rw [if_neg hop, hcond, List.mem_singleton]

theorem mnemonic_of_mem_heads : ∀ r ∈ heads, r.mnemonic.toList.all Char.isAlphanum = true ∧
    r.mnemonic.toList.map Case.upper = r.mnemonic.toList ∧
    r.mnemonic.toList ≠ "GOTO".toList ∧ r.mnemonic.toList ≠ "BRANCH".toList ∧
    (readOp r.mnemonic.toList).toOption = some r := by
  decide +kernel

/-- What a mnemonic is to the reader: a word in upper case, that is not one of the two jumps
and names its operation. -/
structure Names (name : List Char) (r : Request) : Prop where
  word : IsWord name
  upper : name.map Case.upper = name
  goto : name ≠ "GOTO".toList
  branch : name ≠ "BRANCH".toList
  op : readOp name = .ok { op := r.op, cond := r.cond }

theorem names_mnemonic {r : Request} (h : r.Legible) : Names r.mnemonic.toList r := by
  obtain ⟨hall, hupper, hgoto, hbranch, hop⟩ := mnemonic_of_mem_heads _ (mem_heads h)
  refine ⟨List.all_eq_true.1 hall, hupper, hgoto, hbranch, ?_⟩
  change (readOp r.mnemonic.toList).toOption = _ at hop
  cases hread : readOp r.mnemonic.toList with
  | error e => rw [hread] at hop; cases hop
  | ok q => rw [hread] at hop; cases hop; rfl

def headText (r : Request) : List Char := r.mnemonic.toList ++ '.' :: Nat.toDigits 10 r.width.toNat

theorem cutAt_render (r : Request) (h : r.Legible) :
    (cutAt ' ' r.render.toList).1 = headText r ∧
      (cutAt ' ' r.render.toList).2.getD [] = operandsText r.operands := by
  have hword := (names_mnemonic h).word
  have hdigits : IsWord (Nat.toDigits 10 r.width.toNat) := isWord_toDigits (by decide) (by decide)
  have hspace : ' ' ∉ headText r := by
    rw [headText, List.mem_append, List.mem_cons]
    rintro (hc | hc | hc)
    · exact hword.not_mem (by rfl) hc
    · exact absurd hc (by decide)
    · exact hdigits.not_mem (by rfl) hc
  have hhead : (r.mnemonic ++ "." ++ toString r.width.toNat).toList = headText r := by
    simp [headText]
  rw [Request.render]
  split
  · next hnone =>
    rw [hhead, cutAt_of_not_mem hspace, hnone]
    exact ⟨rfl, rfl⟩
  · next os hsome =>
    have htext : (", ".intercalate (r.operands.map Operand.render)).toList =
        operandsText r.operands := by
      rw [String.toList_intercalate, List.map_map]
      rfl
    rw [String.toList_append, String.toList_append, hhead, htext, List.append_assoc]
    have hcut := cutAt_append hspace (operandsText r.operands)
    exact ⟨congrArg Prod.fst hcut, congrArg (·.2.getD []) hcut⟩

theorem readLine_headText (sb : HostAddress) {r : Request} (h : r.Legible) (rest : List Char) :
    readLine sb (headText r) rest =
      Line.instruction <$>
        readOperands sb { op := r.op, width := r.width, cond := r.cond } rest := by
  have hname := names_mnemonic h
  have hdigits : (Nat.toDigits 10 r.width.toNat).map Case.upper =
      Nat.toDigits 10 r.width.toNat := by
    rw [List.map_congr_left fun c hc => upper_of_isDigit
      (Nat.isDigit_of_mem_toDigits (by decide) (by decide) hc), List.map_id']
  have hmap : (headText r).map Case.upper = headText r := by
    rw [headText, List.map_append, List.map_cons, hname.upper, hdigits]
    rfl
  have hwidth : readWidth r.op (some (Nat.toDigits 10 r.width.toNat)) = .ok r.width := by
    rw [readWidth, readDecimal_toDigits r.width.toNat_lt]
    exact congrArg Except.ok UInt8.ofNat_toNat
  rw [readLine, hmap, headText, cutAt_append (hname.word.not_mem (by rfl))]
  simp only [if_neg hname.goto, if_neg hname.branch, hname.op]
  change (readWidth r.op _ >>= _) = _
  rw [hwidth]
  change (readOperands sb _ rest >>= _) = _
  cases readOperands sb _ rest <;> rfl

theorem readOperands_operands (sb : HostAddress) {r : Request} (h : r.Legible) :
    readOperands sb { op := r.op, width := r.width, cond := r.cond }
      (operandsText r.operands) = .ok r := by
  obtain ⟨op, width, cond, dst, src, aux⟩ := r
  obtain ⟨-, -, hoperand, hsrc, haux⟩ := h
  dsimp only at hoperand hsrc haux ⊢
  have hd := hoperand dst (by simp)
  have hs := hoperand src (by simp)
  have ha := hoperand aux (by simp)
  obtain rfl | hd := hd
  · cases hsrc rfl
    cases haux rfl
    exact readOperands_nil sb _
  obtain rfl | hs := hs
  · cases haux rfl
    rw [show Request.operands _ = [dst] by simp [Request.operands, hd.isNone, Operand.isNone_none]]
    exact readOperands_cons sb _ (by simpa using hd) (by simp)
  obtain rfl | ha := ha
  · rw [show Request.operands _ = [dst, src] by
      simp [Request.operands, hd.isNone, hs.isNone, Operand.isNone_none]]
    exact readOperands_cons sb _ (by simpa using ⟨hd, hs⟩) (by simp)
  · rw [show Request.operands _ = [dst, src, aux] by
      simp [Request.operands, hd.isNone, hs.isNone, ha.isNone]]
    exact readOperands_cons sb _ (by simpa using ⟨hd, hs, ha⟩) (by simp)

/-- The text of a request, cut at its first blank, is a line that emits the request, whatever
the base of the state is. -/
theorem readLine_render (sb : HostAddress) (r : Request) (h : r.Legible) :
    readLine sb (cutAt ' ' r.render.toList).1 ((cutAt ' ' r.render.toList).2.getD []) =
        .ok (.instruction r) ∧
      (Line.instruction r).emit = Assembler.encode r := by
  obtain ⟨hhead, hrest⟩ := cutAt_render r h
  refine ⟨?_, rfl⟩
  rw [hhead, hrest, readLine_headText sb h, readOperands_operands sb h]
  rfl

/-- The extreme values of constants and displacements, with a scale that no instruction has. -/
def extremes : Request where
  op := .cmovcc
  width := 255
  cond := .flag .ge
  dst := .mem (.gpr .r10) (.st (.last 7)) 255 Int32.minValue
  src := .imm Int64.minValue 64
  aux := .mem (.gpr .ax) .none 0 Int32.maxValue

theorem readLine_render_extremes :
    extremes.render =
        "CMOVGE.255 [R10+ST7*255-0x80000000], $-0x8000000000000000:64, [AX+0x7fffffff]" ∧
      readLine 0x7000 (cutAt ' ' extremes.render.toList).1
          ((cutAt ' ' extremes.render.toList).2.getD []) = .ok (.instruction extremes) ∧
      (Line.instruction extremes).emit = Assembler.encode extremes := by
  have hlegible : extremes.Legible := by
    constructor
    case op => decide
    case cond => exact ⟨.ge, rfl⟩
    case operand =>
      intro o ho
      simp only [List.mem_cons, List.not_mem_nil, or_false] at ho
      obtain rfl | rfl | rfl := ho
      · exact .inr (.indexed (by decide) (by decide))
      · exact .inr (.imm (by decide))
      · exact .inr (.mem (by decide))
    case src =>
      intro h
      cases h
    case aux =>
      intro h
      cases h
  exact ⟨by decide +kernel, readLine_render 0x7000 extremes hlegible⟩

end Source

end HostCode
