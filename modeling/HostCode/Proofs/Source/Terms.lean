import HostCode.Proofs.Attempt
import HostCode.Proofs.Source.RoundTrip
import HostCode.Proofs.Text.Literal
import Mathlib.Algebra.Ring.Int.Defs
import Mathlib.Algebra.Ring.Nat
import Mathlib.Data.List.Forall2
import Mathlib.Data.List.TakeWhile

/-! # Sums in memory operands

What is inside of a memory operand is a sum of registers and numbers, as a text of terms with their
signs. Its registers have their roles by their order and their factors, and its numbers are added
up in a signed word of 64 bits, of which the displacement is what comes out, if that fits.
-/

namespace HostCode.Source

open Numeral

/-! ## What is written -/

structure Term where
  negative : Bool
  word : List Char

def Term.text (t : Term) : List Char := (if t.negative then '-' else '+') :: t.word

/-- A text of terms, each behind its sign, where the first one does not need a plus sign. -/
def Spells (text : List Char) (ts : List Term) : Prop :=
  (∀ t ∈ ts, IsTerm t.word) ∧
    (text = ts.flatMap Term.text ∨ ¬IsNext text ∧ '+' :: text = ts.flatMap Term.text)

/-- What a sum is made of: registers, which can have a factor, and numbers. -/
inductive Part
  | register (r : Register) (factor : Option UInt8)
  | number (v : Int)
  deriving DecidableEq

namespace Part

def register? : Part → Option (Register × Option UInt8)
  | register r factor => some (r, factor)
  | number _ => none

def value : Part → Int
  | register .. => 0
  | number v => v

end Part

/-- What a term stands for. A register has no minus sign, and its factor fits in a byte. A number
fits in a signed word of 64 bits. -/
inductive Term.Means : Term → Part → Prop
  | plain {name : List Char} {r : Register} :
      register? name = some r → Means ⟨false, name⟩ (.register r none)
  | scaled {name factor : List Char} {r : Register} {n : Nat} :
      register? name = some r → IsLiteral factor n → n < 256 →
        Means ⟨false, name ++ '*' :: factor⟩ (.register r (some (UInt8.ofNat n)))
  | number {negative : Bool} {word : List Char} {n : Nat} :
      IsLiteral word n → n < 1 <<< 63 →
        Means ⟨negative, word⟩ (.number (if negative then -(n : Int) else n))

/-- The text is a sum of these parts, whatever spaces are in it. -/
def IsSum (text : List Char) (ps : List Part) : Prop :=
  ∃ ts, Spells (withoutSpaces text) ts ∧ List.Forall₂ Term.Means ts ps

def registers (ps : List Part) : List (Register × Option UInt8) := ps.filterMap Part.register?

def total (ps : List Part) : Int := (ps.map Part.value).sum

/-- The roles of the registers: the first one without a factor is the base, and the other one, with
its factor or with the factor one, is the index. -/
inductive Roles :
    List (Register × Option UInt8) → (base index : Register) → (scale : UInt8) → Prop
  | base {b : Register} : Roles [(b, none)] b .none 0
  | index {i : Register} {n : UInt8} : Roles [(i, some n)] .none i n
  | both {b i : Register} : Roles [(b, none), (i, none)] b i 1
  | scaled {b i : Register} {n : UInt8} : Roles [(b, none), (i, some n)] b i n
  | scaledFirst {b i : Register} {n : UInt8} : Roles [(i, some n), (b, none)] b i n

/-! ## One term -/

variable {t t' : Terms} {text word name factor s : List Char} {r base index : Register}
  {scale : UInt8} {n : Nat} {p : Part} {ps : List Part} {ts : List Term} {negative : Bool}

def Terms.place (t : Terms) : Register × Option UInt8 → Option Terms
  | (r, none) =>
    if t.base = .none then some { t with base := r }
    else if t.index = .none then some { t with index := r }
    else none
  | (r, some n) => if t.index = .none then some { t with index := r, scale := n } else none

def Terms.take (t : Terms) : Part → Option Terms
  | .register r factor => t.place (r, factor)
  | .number v => some { t with disp := t.disp + Int64.ofInt v }

theorem upper_star : Case.upper '*' = '*' := by decide

theorem isLiteral_of_read (h : readUnsigned 64 word = .ok n) : IsLiteral word n :=
  (readUnsigned_eq_ok_iff.mp h).1

theorem named_of_register? (h : register? name = some r) :
    r ∈ Register.named ∧ r.name.toList = name.map Case.upper := by
  rw [register?, Register.ofName?] at h
  have hname : r.name = String.ofList (name.map Case.upper) := by simpa using List.find?_some h
  exact ⟨List.mem_of_find?_eq_some h, by rw [hname, String.toList_ofList]⟩

theorem star_not_mem_of_register? (h : register? name = some r) : '*' ∉ name := by
  obtain ⟨hr, hname⟩ := named_of_register? h
  intro hmem
  have hupper : '*' ∈ r.name.toList := by
    rw [hname]
    exact List.mem_map.mpr ⟨'*', hmem, upper_star⟩
  exact (isWord_register hr).not_mem (by rfl) hupper

theorem register?_of_isLiteral (h : IsLiteral word n) : register? word = none := by
  -- literals begin with a digit, and no register does
  have hall : ∀ r ∈ Register.named, (r.name.toList.head?.any Char.isDigit) = false := by
    decide +kernel
  obtain ⟨c, cs, rfl, hc⟩ := h.head
  rw [Option.eq_none_iff_forall_ne_some]
  intro r hr
  obtain ⟨hnamed, hname⟩ := named_of_register? hr
  have hhead := hall r hnamed
  rw [hname, List.map_cons, upper_of_isDigit hc, List.head?_cons, Option.any_some, hc] at hhead
  cases hhead

theorem star_not_mem_of_isLiteral (h : IsLiteral word n) : '*' ∉ word := by
  intro hmem
  obtain hc | hc := h.mem hmem
  · cases hc
  · cases hc

theorem int64_value (negative : Bool) (n : Nat) :
    (if negative then -Int64.ofInt n else Int64.ofInt n) =
      Int64.ofInt (if negative then -(n : Int) else n) := by
  cases negative with
  | false => rfl
  | true => exact (Int64.ofInt_neg n).symm

theorem IsTerm.head (hw : IsTerm word) : word.head? ≠ some '+' ∧ word.head? ≠ some '-' := by
  have hne {c : Char} (hc : isSign c = true) : word.head? ≠ some c := by
    intro hhead
    rw [hw c (List.mem_of_head? hhead)] at hc
    cases hc
  exact ⟨hne rfl, hne rfl⟩

theorem toOption_add (hw : IsTerm word) (h : Term.Means ⟨negative, word⟩ p) :
    (t.add negative word).toOption = t.take p := by
  rw [Terms.add]
  cases h with
  | plain hr =>
    rw [cutAt_of_not_mem (star_not_mem_of_register? hr)]
    simp only [hr, Terms.take, Terms.place]
    by_cases hb : t.base = .none <;> by_cases hi : t.index = .none <;>
      simp [hb, hi, Except.toOption]
  | @scaled _ factor _ n hr hlit hn =>
    have hread : readUnsigned 8 factor = .ok n := readUnsigned_eq_ok_iff.mpr ⟨hlit, hn⟩
    rw [cutAt_append (star_not_mem_of_register? hr)]
    simp only [hr, hread, Terms.take, Terms.place]
    by_cases hi : t.index = .none <;> simp [hi, Except.toOption]
  | @number _ _ n hlit hn =>
    have hread : readSigned 64 word = .ok (n : Int) :=
      (readSigned_eq_ok_iff hw.head.1 hw.head.2).mpr ⟨n, hlit, hn, rfl⟩
    rw [cutAt_of_not_mem (star_not_mem_of_isLiteral hlit)]
    simp only [register?_of_isLiteral hlit, hread, int64_value]
    rfl

theorem means_of_add (hw : IsTerm word) (h : t.add negative word = .ok t') :
    ∃ p, Term.Means ⟨negative, word⟩ p ∧ t.take p = some t' := by
  rw [Terms.add] at h
  have hword := eq_of_cutAt '*' word
  cases hcut : cutAt '*' word with
  | mk name factor =>
  rw [hcut] at h hword
  dsimp only at h hword
  split at h
  · next r hr =>
    split at h
    · cases h
    · next hpos =>
      rw [Bool.not_eq_true] at hpos
      subst hpos
      cases factor with
      | none =>
        rw [Option.elim_none, List.append_nil] at hword
        subst hword
        refine ⟨_, .plain hr, ?_⟩
        by_cases hb : t.base = .none <;> by_cases hi : t.index = .none <;>
          simp_all [Terms.take, Terms.place]
      | some f =>
        rw [Option.elim_some] at hword
        subst hword
        simp only [Bool.false_eq_true, if_false, Option.isNone_some, Bool.false_and] at h
        split at h
        · cases h
        · next hi =>
          split at h
          · next n hn =>
            cases h
            obtain ⟨hlit, hlt⟩ := readUnsigned_eq_ok_iff.mp hn
            exact ⟨_, .scaled hr hlit hlt, if_pos (not_not.mp hi)⟩
          · cases h
  · next hr =>
    split at h
    · next v hv =>
      obtain ⟨n, hlit, hn, rfl⟩ := (readSigned_eq_ok_iff hw.head.1 hw.head.2).mp hv
      rw [int64_value] at h
      cases h
      exact ⟨_, .number hlit hn, rfl⟩
    · cases h

/-! ## All terms -/

theorem isTerm_takeWhile (cs : List Char) : IsTerm (cs.takeWhile (!isSign ·)) := by
  intro c hc
  simpa using List.mem_takeWhile_imp hc

theorem isNext_dropWhile (cs : List Char) : IsNext (cs.dropWhile (!isSign ·)) := by
  intro c hc
  have := List.head?_dropWhile_not (!isSign ·) cs
  rw [hc] at this
  simpa using this

theorem isNext_flatMap : IsNext (ts.flatMap Term.text) := by
  cases ts with
  | nil => exact isNext_nil
  | cons t ts =>
    rw [List.flatMap_cons, Term.text]
    rintro _ ⟨⟩
    cases t.negative <;> rfl

/-- Terms behind their signs are gathered part by part. -/
theorem toOption_readTerms_flatMap (hts : ∀ t ∈ ts, IsTerm t.word)
    (hps : List.Forall₂ Term.Means ts ps) :
    (readTerms t (ts.flatMap Term.text)).toOption = ps.foldlM Terms.take t := by
  induction hps generalizing t with
  | nil =>
    rw [List.flatMap_nil, readTerms]
    rfl
  | @cons u p ts ps hp hps ih =>
    have hu := hts u List.mem_cons_self
    have hsign : isSign (if u.negative then '-' else '+') = true := by
      cases u.negative <;> rfl
    have hminus : ((if u.negative then '-' else '+') == '-') = u.negative := by
      cases u.negative <;> rfl
    rw [List.flatMap_cons, Term.text, List.cons_append, readTerms_next hsign hu isNext_flatMap,
      hminus, toOption_bind, toOption_add hu hp, List.foldlM_cons]
    exact bind_congr fun t => ih fun t ht => hts t (List.mem_cons_of_mem _ ht)

theorem toOption_readTerms (hs : Spells s ts) (hps : List.Forall₂ Term.Means ts ps) :
    (readTerms t s).toOption = ps.foldlM Terms.take t := by
  obtain ⟨hts, rfl | ⟨hnext, hs⟩⟩ := hs
  · exact toOption_readTerms_flatMap hts hps
  · cases hps with
    | nil => cases hs
    | @cons u p ts ps hp hps =>
      obtain ⟨negative, word⟩ := u
      cases negative with
      | true => cases (List.cons.inj hs).1
      | false =>
        obtain rfl : s = word ++ ts.flatMap Term.text := (List.cons.inj hs).2
        have hw : IsTerm word := hts _ List.mem_cons_self
        have hne : word ≠ [] := by
          rintro rfl
          exact hnext isNext_flatMap
        rw [readTerms_first hne hw isNext_flatMap, toOption_bind, toOption_add hw hp,
          List.foldlM_cons]
        exact bind_congr fun t =>
          toOption_readTerms_flatMap (fun t ht => hts t (List.mem_cons_of_mem _ ht)) hps

theorem sign_eq {c : Char} (hc : isSign c = true) : (if c == '-' then '-' else '+') = c := by
  rw [isSign, Bool.or_eq_true, beq_iff_eq, beq_iff_eq] at hc
  obtain rfl | rfl := hc <;> rfl

theorem spells_of_readTerms (h : readTerms t s = .ok t') :
    ∃ ts ps, Spells s ts ∧ List.Forall₂ Term.Means ts ps ∧ ps.foldlM Terms.take t = some t' := by
  -- Reading goes on behind the next word, which is shorter but is no tail by one character.
  induction hlen : s.length using Nat.strongRecOn generalizing s t with
  | _ len ih =>
  cases s with
  | nil =>
    rw [readTerms] at h
    cases h
    exact ⟨[], [], ⟨fun _ h => absurd h List.not_mem_nil, .inl rfl⟩, .nil, rfl⟩
  | cons c cs =>
    have hcs := List.takeWhile_append_dropWhile (p := (!isSign ·)) (l := cs)
    have hlt := length_dropWhile_le (!isSign ·) cs
    have hword := isTerm_takeWhile cs
    have hnext := isNext_dropWhile cs
    rw [readTerms] at h
    generalize cs.takeWhile (!isSign ·) = word at hcs hword h
    generalize cs.dropWhile (!isSign ·) = rest at hcs hlt hnext h
    subst hcs
    cases hadd : t.add (c == '-') (if isSign c then word else c :: word) with
    | error e =>
      rw [hadd] at h
      cases h
    | ok t₁ =>
      rw [hadd] at h
      obtain ⟨ts, ps, ⟨hts, hrest⟩, hps, hfold⟩ := ih rest.length (by simp at hlen; omega) h rfl
      -- What is left begins with a sign, so that only the first term can be without one.
      obtain rfl : rest = ts.flatMap Term.text := hrest.resolve_right fun h => h.1 hnext
      by_cases hc : isSign c = true
      · rw [if_pos hc] at hadd
        obtain ⟨p, hp, htake⟩ := means_of_add hword hadd
        refine ⟨⟨c == '-', word⟩ :: ts, p :: ps, ⟨?_, .inl ?_⟩, .cons hp hps, ?_⟩
        · exact List.forall_mem_cons.mpr ⟨hword, hts⟩
        · rw [List.flatMap_cons, Term.text, List.cons_append, sign_eq hc]
        · exact Option.bind_eq_some_iff.mpr ⟨t₁, htake, hfold⟩
      · rw [Bool.not_eq_true] at hc
        have hword' : IsTerm (c :: word) := List.forall_mem_cons.mpr ⟨hc, hword⟩
        rw [hc, if_neg Bool.false_ne_true, (Bool.or_eq_false_iff.mp hc).2] at hadd
        obtain ⟨p, hp, htake⟩ := means_of_add hword' hadd
        refine ⟨⟨false, c :: word⟩ :: ts, p :: ps, ⟨?_, .inr ⟨?_, rfl⟩⟩, .cons hp hps, ?_⟩
        · exact List.forall_mem_cons.mpr ⟨hword', hts⟩
        · intro hsign
          rw [hsign c rfl] at hc
          cases hc
        · exact Option.bind_eq_some_iff.mpr ⟨t₁, htake, hfold⟩

/-! ## Roles -/

theorem place_withDisp (t : Terms) (d : Int64) (x : Register × Option UInt8) :
    Terms.place { t with disp := d } x = (t.place x).map ({ · with disp := d }) := by
  obtain ⟨r, _ | n⟩ := x <;> dsimp only [Terms.place]
  · split
    · rfl
    · split <;> rfl
  · split <;> rfl

theorem foldlM_place_withDisp (t : Terms) (d : Int64) (regs : List (Register × Option UInt8)) :
    regs.foldlM Terms.place { t with disp := d } =
      (regs.foldlM Terms.place t).map ({ · with disp := d }) := by
  induction regs generalizing t with
  | nil => rfl
  | cons x regs ih =>
    rw [List.foldlM_cons, List.foldlM_cons, place_withDisp]
    cases t.place x with
    | none => rfl
    | some t₁ => exact ih t₁

theorem disp_of_place {x : Register × Option UInt8} (h : t.place x = some t') :
    t'.disp = t.disp := by
  have hsame := place_withDisp t t.disp x
  rw [h] at hsame
  have hdisp : t' = { t' with disp := t.disp } := Option.some.inj hsame
  rw [hdisp]

theorem total_cons (p : Part) (ps : List Part) : total (p :: ps) = p.value + total ps := by
  rw [total, List.map_cons, List.sum_cons, ← total]

/-- Numbers and registers are gathered apart from each other. -/
theorem foldlM_take : ps.foldlM Terms.take t =
    ((registers ps).foldlM Terms.place t).map fun t' =>
      { t' with disp := t.disp + Int64.ofInt (total ps) } := by
  induction ps generalizing t with
  | nil =>
    change some t = some { t with disp := t.disp + 0 }
    rw [Int64.add_zero]
  | cons p ps ih =>
    rw [List.foldlM_cons]
    cases p with
    | register r factor =>
      change t.place (r, factor) >>= _ = (t.place (r, factor) >>= _).map _
      cases hplace : t.place (r, factor) with
      | none => rfl
      | some t₁ =>
        change ps.foldlM Terms.take t₁ = ((registers ps).foldlM Terms.place t₁).map _
        rw [ih, disp_of_place hplace, total_cons, Part.value, Int.zero_add]
    | number v =>
      change ps.foldlM Terms.take { t with disp := t.disp + Int64.ofInt v } = _
      rw [ih, foldlM_place_withDisp, Option.map_map, total_cons, Part.value, Int64.ofInt_add,
        ← Int64.add_assoc]
      rfl

variable {regs : List (Register × Option UInt8)}

theorem foldlM_place_full (hb : t.base ≠ .none) (hi : t.index ≠ .none)
    (h : regs.foldlM Terms.place t = some t') : regs = [] ∧ t' = t := by
  cases regs with
  | nil => exact ⟨rfl, (Option.some.inj h).symm⟩
  | cons x regs =>
    have hplace : t.place x = none := by
      obtain ⟨r, _ | n⟩ := x <;> simp only [Terms.place, if_neg hb, if_neg hi]
    rw [List.foldlM_cons, hplace] at h
    cases h

/-- Registers have been given their roles when they have been gathered. -/
structure Settled (t : Terms) (base index : Register) (scale : UInt8) : Prop where
  some : ¬(t.index = .none ∧ t.base = .none)
  base : base = t.base
  index : index = t.index
  scale : scale = if t.index = .none then 0 else t.scale

theorem place_second {b : Register} (hb : b ≠ .none) (i : Register) :
    Terms.place { base := b } (i, none) = some { base := b, index := i } := if_neg hb

theorem place_second_index {i : Register} (hi : i ≠ .none) (n m : UInt8) (j : Register) :
    Terms.place { index := i, scale := n } (j, some m) = none := if_neg hi

theorem roles_of_place (hregs : ∀ x ∈ regs, x.1 ≠ .none)
    (h : regs.foldlM Terms.place {} = some t) (ht : Settled t base index scale) :
    Roles regs base index scale := by
  obtain ⟨hsome, rfl, rfl, rfl⟩ := ht
  cases regs with
  | nil =>
    cases h
    exact absurd ⟨rfl, rfl⟩ hsome
  | cons x regs =>
  have hx := hregs x List.mem_cons_self
  cases regs with
  | nil =>
    obtain ⟨r, _ | n⟩ := x
    · cases h
      exact .base
    · cases h
      rw [if_neg hx]
      exact .index
  | cons y regs =>
  have hy := hregs y (.tail _ (.head _))
  obtain ⟨t₁, hfirst, h⟩ := Option.bind_eq_some_iff.mp h
  obtain ⟨t₂, hsecond, h⟩ := Option.bind_eq_some_iff.mp h
  -- Two registers fill both roles, or the second of two with factors finds no place.
  obtain ⟨r, _ | n⟩ := x <;> obtain ⟨r', _ | m⟩ := y <;> cases hfirst
  · rw [place_second hx] at hsecond
    cases hsecond
    obtain ⟨rfl, rfl⟩ := foldlM_place_full hx hy h
    rw [if_neg hy]
    exact .both
  · cases hsecond
    obtain ⟨rfl, rfl⟩ := foldlM_place_full hx hy h
    rw [if_neg hy]
    exact .scaled
  · cases hsecond
    obtain ⟨rfl, rfl⟩ := foldlM_place_full hy hx h
    rw [if_neg hx]
    exact .scaledFirst
  · rw [place_second_index hx] at hsecond
    cases hsecond

theorem place_of_roles (hregs : ∀ x ∈ regs, x.1 ≠ .none) (h : Roles regs base index scale) :
    ∃ t, regs.foldlM Terms.place {} = some t ∧ Settled t base index scale := by
  cases h with
  | base =>
    have hb := hregs _ List.mem_cons_self
    exact ⟨_, rfl, fun h => hb h.2, rfl, rfl, rfl⟩
  | index =>
    have hi := hregs _ List.mem_cons_self
    exact ⟨_, rfl, fun h => hi h.1, rfl, rfl, (if_neg hi).symm⟩
  | both =>
    have hb := hregs _ List.mem_cons_self
    have hi := hregs _ (.tail _ (.head _))
    refine ⟨{ base, index }, ?_, fun h => hb h.2, rfl, rfl, (if_neg hi).symm⟩
    change (Terms.place { base := base } (index, none) >>= fun t => some t) = _
    rw [place_second hb]
    rfl
  | scaled =>
    have hi := hregs _ (.tail _ (.head _))
    exact ⟨_, rfl, fun h => hi h.1, rfl, rfl, (if_neg hi).symm⟩
  | scaledFirst =>
    have hi := hregs _ List.mem_cons_self
    exact ⟨_, rfl, fun h => hi h.1, rfl, rfl, (if_neg hi).symm⟩

/-! ## Memory operands -/

variable {op : Operand} {disp : Int32}

theorem readMemory_ok_iff : readMemory text = .ok op ↔
    ∃ t base index scale, readTerms {} (withoutSpaces text) = .ok t ∧ fitsBits 32 t.disp = true ∧
      Settled t base index scale ∧ op = .mem base index scale t.disp.toInt32 := by
  rw [readMemory]
  cases readTerms {} (withoutSpaces text) with
  | error e =>
    constructor
    · rintro ⟨⟩
    · rintro ⟨t, base, index, scale, ⟨⟩, -⟩
  | ok t =>
    change (if !fitsBits 32 t.disp then Except.error (ParseError.displacement t.disp)
      else if t.index = .none then
        (if t.base = .none then Except.error ParseError.noRegister
        else .ok (.mem t.base .none 0 t.disp.toInt32))
      else .ok (.mem t.base t.index t.scale t.disp.toInt32)) = Except.ok op ↔ _
    constructor
    · intro h
      split at h
      · cases h
      · next hfits =>
        rw [Bool.not_eq_true, Bool.not_eq_false'] at hfits
        split at h
        · next hi =>
          split at h
          · cases h
          · next hb =>
            cases h
            have hsettled : Settled t t.base .none 0 :=
              ⟨fun h => hb h.2, rfl, hi.symm, (if_pos hi).symm⟩
            exact ⟨t, t.base, .none, 0, rfl, hfits, hsettled, rfl⟩
        · next hi =>
          cases h
          have hsettled : Settled t t.base t.index t.scale :=
            ⟨fun h => hi h.1, rfl, rfl, (if_neg hi).symm⟩
          exact ⟨t, t.base, t.index, t.scale, rfl, hfits, hsettled, rfl⟩
    · rintro ⟨_, _, _, _, ⟨⟩, hfits, ⟨hsome, rfl, rfl, rfl⟩, rfl⟩
      rw [hfits, if_neg (by decide)]
      by_cases hi : t.index = .none
      · rw [if_pos hi, if_neg fun hb => hsome ⟨hi, hb⟩, if_pos hi, hi]
      · rw [if_neg hi, if_neg hi]

theorem registers_ne_none (h : List.Forall₂ Term.Means ts ps) :
    ∀ x ∈ registers ps, x.1 ≠ .none := by
  induction h with
  | nil => exact fun _ h => absurd h List.not_mem_nil
  | cons hp _ ih =>
    cases hp with
    | plain hr => exact List.forall_mem_cons.mpr ⟨ne_none_of_named (named_of_register? hr).1, ih⟩
    | scaled hr _ _ =>
      exact List.forall_mem_cons.mpr ⟨ne_none_of_named (named_of_register? hr).1, ih⟩
    | number _ _ => exact ih

theorem fitsBits_iff {v : Int64} :
    fitsBits 32 v = true ↔ -0x80000000 ≤ v.toInt ∧ v.toInt < 0x80000000 := by
  rw [fitsBits, Bool.and_eq_true, decide_eq_true_eq, decide_eq_true_eq]
  rfl

theorem toInt_toInt32 {v : Int64} (h : fitsBits 32 v = true) : v.toInt32.toInt = v.toInt := by
  obtain ⟨hlo, hhi⟩ := fitsBits_iff.mp h
  rw [Int64.toInt_toInt32]
  exact Int.bmod_eq_of_le (by omega) (by omega)

theorem toInt_total :
    (0 + Int64.ofInt (total ps)).toInt = (total ps).bmod 0x10000000000000000 := by
  rw [Int64.zero_add, Int64.toInt_ofInt]

/-- Memory is read from a sum of which the registers have roles, and the numbers fit in a
displacement when they are added up in a signed word of 64 bits. -/
theorem readMemory_eq_ok_iff : readMemory text = .ok op ↔
    ∃ ps base index scale disp, IsSum text ps ∧ Roles (registers ps) base index scale ∧
      disp.toInt = (total ps).bmod 0x10000000000000000 ∧ op = .mem base index scale disp := by
  rw [readMemory_ok_iff]
  constructor
  · rintro ⟨t, base, index, scale, hread, hfits, ht, rfl⟩
    obtain ⟨ts, ps, hs, hps, hfold⟩ := spells_of_readTerms hread
    rw [foldlM_take] at hfold
    obtain ⟨t₀, hplace, rfl⟩ := Option.map_eq_some_iff.mp hfold
    have hsettled : Settled t₀ base index scale := ⟨ht.some, ht.base, ht.index, ht.scale⟩
    have hroles := roles_of_place (registers_ne_none hps) hplace hsettled
    refine ⟨ps, base, index, scale, _, ⟨ts, hs, hps⟩, hroles, ?_, rfl⟩
    rw [toInt_toInt32 hfits, toInt_total]
  · rintro ⟨ps, base, index, scale, disp, ⟨ts, hs, hps⟩, hroles, hdisp, rfl⟩
    obtain ⟨t₀, hplace, ht⟩ := place_of_roles (registers_ne_none hps) hroles
    have hfold : ps.foldlM Terms.take {} =
        some { t₀ with disp := 0 + Int64.ofInt (total ps) } := by
      rw [foldlM_take, hplace]
      rfl
    have hfits : fitsBits 32 (0 + Int64.ofInt (total ps)) = true := by
      rw [fitsBits_iff, toInt_total, ← hdisp]
      exact ⟨disp.le_toInt, disp.toInt_lt⟩
    have hread := toOption_eq_some.mp ((toOption_readTerms hs hps).trans hfold)
    refine ⟨_, base, index, scale, hread, hfits, ⟨ht.some, ht.base, ht.index, ht.scale⟩, ?_⟩
    have hsame : disp = (0 + Int64.ofInt (total ps)).toInt32 := by
      rw [← Int32.toInt_inj, toInt_toInt32 hfits, toInt_total, hdisp]
    rw [hsame]

theorem toInt_of_readMemory (hs : IsSum text ps)
    (h : readMemory text = .ok (.mem base index scale disp)) :
    disp.toInt = (total ps).bmod 0x10000000000000000 := by
  obtain ⟨ts, hs, hps⟩ := hs
  obtain ⟨t, _, _, _, hread, hfits, -, ⟨⟩⟩ := readMemory_ok_iff.mp h
  have hfold := (toOption_readTerms hs hps).symm.trans (toOption_eq_some.mpr hread)
  rw [foldlM_take] at hfold
  obtain ⟨t₀, -, rfl⟩ := Option.map_eq_some_iff.mp hfold
  rw [toInt_toInt32 hfits, toInt_total]

/-- Memory is read from sums only, with the roles of their registers. The displacement is what the
numbers add up to in a signed word of 64 bits, so it is their sum exactly if that fits in 32 bits,
but a sum can be read that does not. -/
theorem displacement_exact_iff (text : List Char) (op : Operand) :
    (readMemory text = .ok op ↔
      ∃ ps base index scale disp, IsSum text ps ∧ Roles (registers ps) base index scale ∧
        disp.toInt = (total ps).bmod 0x10000000000000000 ∧ op = .mem base index scale disp) ∧
    ∀ ps base index scale disp, IsSum text ps → readMemory text = .ok (.mem base index scale disp) →
      (disp.toInt = total ps ↔ -0x80000000 ≤ total ps ∧ total ps < 0x80000000) := by
  refine ⟨readMemory_eq_ok_iff, fun ps base index scale disp hs h => ?_⟩
  rw [toInt_of_readMemory hs h]
  constructor
  · intro hexact
    rw [← hexact, ← toInt_of_readMemory hs h]
    exact ⟨disp.le_toInt, disp.toInt_lt⟩
  · rintro ⟨hlo, hhi⟩
    exact Int.bmod_eq_of_le (by omega) (by omega)

theorem spells_of_unsigned {c : Char} (hts : (ts.all fun t => t.word.all (!isSign ·)) = true)
    (hhead : s.head? = some c) (hc : isSign c = false) (h : '+' :: s = ts.flatMap Term.text) :
    Spells s ts := by
  refine ⟨fun t ht c hc => ?_, .inr ⟨fun hnext => ?_, h⟩⟩
  · have hword := List.all_eq_true.mp (List.all_eq_true.mp hts t ht) c hc
    exact (Bool.not_eq_true' _).mp hword
  · rw [hnext c hhead] at hc
    cases hc

/-- The displacement of `[bx + si*8 - 0x10 + 0x20]` is the sum of its numbers. -/
theorem displacement_exact_indexed :
    ∃ ps, IsSum "bx + si*8 - 0x10 + 0x20".toList ps ∧
      readMemory "bx + si*8 - 0x10 + 0x20".toList = .ok (.mem (.gpr .bx) (.gpr .si) 8 16) ∧
      (16 : Int32).toInt = total ps := by
  have hspells : Spells (withoutSpaces "bx + si*8 - 0x10 + 0x20".toList)
      [⟨false, ['b', 'x']⟩, ⟨false, ['s', 'i', '*', '8']⟩, ⟨true, ['0', 'x', '1', '0']⟩,
        ⟨false, ['0', 'x', '2', '0']⟩] := spells_of_unsigned rfl rfl rfl rfl
  have hbx : register? ['b', 'x'] = some (.gpr .bx) := by decide +kernel
  have hsi : register? ['s', 'i'] = some (.gpr .si) := by decide +kernel
  have h8 : IsLiteral ['8'] 8 := isLiteral_of_read rfl
  have h16 : IsLiteral ['0', 'x', '1', '0'] 16 := isLiteral_of_read rfl
  have h32 : IsLiteral ['0', 'x', '2', '0'] 32 := isLiteral_of_read rfl
  have hs : IsSum "bx + si*8 - 0x10 + 0x20".toList
      [.register (.gpr .bx) none, .register (.gpr .si) (some 8), .number (-16), .number 32] :=
    ⟨_, hspells, .cons (.plain hbx) (.cons (.scaled hsi h8 (by decide))
      (.cons (.number h16 (by decide)) (.cons (.number h32 (by decide)) .nil)))⟩
  obtain ⟨hreads, hexact⟩ := displacement_exact_iff "bx + si*8 - 0x10 + 0x20".toList
    (.mem (.gpr .bx) (.gpr .si) 8 16)
  have hread := hreads.mpr ⟨_, _, _, _, _, hs, .scaled, rfl, rfl⟩
  exact ⟨_, hs, hread, (hexact _ _ _ _ _ hs hread).mpr (by decide)⟩

/-- The numbers of `[ax+0x7fffffffffffffff+0x7fffffffffffffff+2]` add up to more than any
displacement, and are read as zero. -/
theorem displacement_wraps :
    ∃ ps, IsSum "ax+0x7fffffffffffffff+0x7fffffffffffffff+2".toList ps ∧
      total ps = 0x10000000000000000 ∧
      readMemory "ax+0x7fffffffffffffff+0x7fffffffffffffff+2".toList =
        .ok (.mem (.gpr .ax) .none 0 0) := by
  have hspells : Spells (withoutSpaces "ax+0x7fffffffffffffff+0x7fffffffffffffff+2".toList)
      [⟨false, ['a', 'x']⟩, ⟨false, "0x7fffffffffffffff".toList⟩,
        ⟨false, "0x7fffffffffffffff".toList⟩, ⟨false, ['2']⟩] :=
    spells_of_unsigned rfl rfl rfl rfl
  have hax : register? ['a', 'x'] = some (.gpr .ax) := by decide +kernel
  have hmax : IsLiteral "0x7fffffffffffffff".toList 0x7fffffffffffffff := isLiteral_of_read rfl
  have h2 : IsLiteral ['2'] 2 := isLiteral_of_read rfl
  have hs : IsSum "ax+0x7fffffffffffffff+0x7fffffffffffffff+2".toList
      [.register (.gpr .ax) none, .number 0x7fffffffffffffff, .number 0x7fffffffffffffff,
        .number 2] :=
    ⟨_, hspells, .cons (.plain hax) (.cons (.number hmax (by decide))
      (.cons (.number hmax (by decide)) (.cons (.number h2 (by decide)) .nil)))⟩
  exact ⟨_, hs, rfl, readMemory_eq_ok_iff.mpr ⟨_, _, _, _, _, hs, .base, rfl, rfl⟩⟩

end HostCode.Source
