import HostCode.Proofs.Text.Numeral

/-! # Literals

The notation of integer literals as a grammar, and that it is what the readers accept: each digit
is below the radix, and an underscore stands in front of a digit, behind another digit or behind
the mark of the radix.
-/

namespace HostCode.Numeral

/-- The number `n` goes on with the digits `cs` to the number `m`. -/
inductive Digits (radix : Nat) : (n : Nat) → (cs : List Char) → (m : Nat) → Prop
  | nil {n : Nat} : Digits radix n [] n
  | digit {n d m : Nat} {c : Char} {cs : List Char} :
      digit? c = some d → d < radix → Digits radix (n * radix + d) cs m → Digits radix n (c :: cs) m
  | apart {n d m : Nat} {c : Char} {cs : List Char} :
      digit? c = some d → d < radix → Digits radix (n * radix + d) cs m →
        Digits radix n ('_' :: c :: cs) m

def marks : List (Char × Nat) := [('b', 2), ('B', 2), ('o', 8), ('O', 8), ('x', 16), ('X', 16)]

/-- The literals of the natural numbers. -/
inductive IsLiteral : List Char → Nat → Prop
  | decimal {c : Char} {cs : List Char} {d n : Nat} :
      digit? c = some d → 0 < d → d < 10 → Digits 10 d cs n → IsLiteral (c :: cs) n
  | octal {cs : List Char} {n : Nat} : Digits 8 0 cs n → IsLiteral ('0' :: cs) n
  | marked {x : Char} {cs : List Char} {radix n : Nat} :
      (x, radix) ∈ marks → cs ≠ [] → Digits radix 0 cs n → IsLiteral ('0' :: x :: cs) n

/-! ## Digits -/

variable {r limit n m d bits : Nat} {b hexadecimal : Bool} {c : Char} {cs s : List Char}

theorem ne_underscore_of_digit? (h : digit? c = some d) : c ≠ '_' := by
  rintro rfl
  rw [show digit? '_' = none by decide] at h
  cases h

theorem Digits.le (h : Digits r n cs m) (hr : 0 < r) : n ≤ m := by
  have hle : ∀ n d, n ≤ n * r + d := fun n d =>
    Nat.le_trans (Nat.le_mul_of_pos_right n hr) (Nat.le_add_right _ d)
  induction h with
  | nil => exact Nat.le_refl _
  | digit _ _ _ ih => exact Nat.le_trans (hle _ _) ih
  | apart _ _ _ ih => exact Nat.le_trans (hle _ _) ih

/-- An underscore may stand behind each digit below `r`. -/
def Underscored (r : Nat) (hexadecimal : Bool) : Prop :=
  ∀ c d, digit? c = some d → d < r →
    (c.isDigit || (hexadecimal && underscoresFit.isHexLetter c)) = true

theorem underscoresFit_cons (hc : c ≠ '_') : underscoresFit hexadecimal b (c :: cs) =
    underscoresFit hexadecimal (c.isDigit || (hexadecimal && underscoresFit.isHexLetter c)) cs := by
  rw [underscoresFit]
  exact hc

theorem underscoresFit_underscore_nil : underscoresFit hexadecimal b ['_'] = false := by
  rw [underscoresFit.eq_3, Bool.and_false, Bool.false_and]

theorem underscoresFit_underscore_cons : underscoresFit hexadecimal b ('_' :: c :: cs) =
    (b && (c.isDigit || (hexadecimal && underscoresFit.isHexLetter c)) &&
      underscoresFit hexadecimal false (c :: cs)) := underscoresFit.eq_2 ..

theorem underscoresFit_false_underscore : underscoresFit hexadecimal false ('_' :: cs) = false := by
  cases cs with
  | nil => exact underscoresFit_underscore_nil
  | cons c cs => rw [underscoresFit_underscore_cons, Bool.false_and, Bool.false_and]

theorem underscoresFit_of_not_mem (h : '_' ∉ cs) : underscoresFit hexadecimal b cs = true := by
  induction cs generalizing b with
  | nil => rfl
  | cons c cs ih =>
    rw [List.mem_cons, not_or] at h
    rw [underscoresFit_cons (Ne.symm h.1)]
    exact ih h.2

theorem readDigits_underscore :
    readDigits r limit true n ('_' :: cs) = readDigits r limit true n cs := rfl

theorem readDigits_cons_iff {us : Bool} (hc : us = false ∨ c ≠ '_') :
    readDigits r limit us n (c :: cs) = .ok m ↔
      ∃ d, digit? c = some d ∧ d < r ∧ n * r + d ≤ limit ∧
        readDigits r limit us (n * r + d) cs = .ok m := by
  have hplain : (us && c == '_') = false := by
    obtain rfl | hc := hc
    · rfl
    · simp [hc]
  rw [readDigits, hplain, if_neg Bool.false_ne_true]
  constructor
  · intro h
    split at h
    · cases h
    · next d hd =>
      split at h
      · cases h
      · next hr =>
        split at h
        · cases h
        · next hl => exact ⟨d, hd, Nat.lt_of_not_le hr, Nat.le_of_not_lt hl, h⟩
  · rintro ⟨d, hd, hr, hl, h⟩
    simp only [hd, if_neg (Nat.not_le.2 hr), if_neg (Nat.not_lt.2 hl)]
    exact h

theorem readDigits_le {us : Bool} (h : readDigits r limit us n cs = .ok m) (hn : n ≤ limit) :
    m ≤ limit := by
  fun_induction readDigits r limit us n cs with
  | case1 => cases h; exact hn
  | case2 _ _ _ _ ih => exact ih h hn
  | case3 => cases h
  | case4 => cases h
  | case5 => cases h
  | case6 _ _ _ _ _ _ _ hl ih => exact ih h (Nat.le_of_not_lt hl)

theorem digits_of_readDigits (hu : Underscored r hexadecimal)
    (h : readDigits r limit true n cs = .ok m) (hfit : underscoresFit hexadecimal b cs = true)
    (hb : b = true ∨ cs ≠ []) : Digits r n (if b then cs else '_' :: cs) m := by
  -- underscores that do not come behind a digit fit as if one had been before
  induction cs generalizing n b with
  | nil =>
    cases h
    obtain rfl | hb := hb
    · exact .nil
    · exact absurd rfl hb
  | cons c cs ih =>
    by_cases hc : c = '_'
    · subst hc
      cases cs with
      | nil =>
        rw [underscoresFit_underscore_nil] at hfit
        cases hfit
      | cons c cs =>
        rw [underscoresFit_underscore_cons, Bool.and_eq_true, Bool.and_eq_true] at hfit
        obtain ⟨⟨rfl, -⟩, hfit⟩ := hfit
        exact ih h hfit (.inr (List.cons_ne_nil c cs))
    · obtain ⟨d, hd, hr, -, h⟩ := (readDigits_cons_iff (.inr hc)).mp h
      rw [underscoresFit_cons hc, hu c d hd hr] at hfit
      have hrest := ih h hfit (.inl rfl)
      cases b with
      | true => exact .digit hd hr hrest
      | false => exact .apart hd hr hrest

theorem readDigits_of_digits (hu : Underscored r hexadecimal) (h : Digits r n cs m) (hm : m ≤ limit)
    (hpos : 0 < r) :
    readDigits r limit true n cs = .ok m ∧ underscoresFit hexadecimal true cs = true := by
  induction h with
  | nil => exact ⟨rfl, rfl⟩
  | digit hd hr hrest ih =>
    obtain ⟨hread, hfit⟩ := ih hm
    have hc := ne_underscore_of_digit? hd
    rw [underscoresFit_cons hc, hu _ _ hd hr, readDigits_cons_iff (.inr hc)]
    exact ⟨⟨_, hd, hr, Nat.le_trans (hrest.le hpos) hm, hread⟩, hfit⟩
  | apart hd hr hrest ih =>
    obtain ⟨hread, hfit⟩ := ih hm
    have hc := ne_underscore_of_digit? hd
    rw [underscoresFit_underscore_cons, underscoresFit_cons hc, hu _ _ hd hr, readDigits_underscore,
      readDigits_cons_iff (.inr hc)]
    exact ⟨⟨_, hd, hr, Nat.le_trans (hrest.le hpos) hm, hread⟩, hfit⟩

/-- The reader, with underscores where they fit, is the grammar. -/
theorem readDigits_iff (hu : Underscored r hexadecimal) (hpos : 0 < r) (hn : n ≤ limit) :
    readDigits r limit true n cs = .ok m ∧
      (cs.contains '_' = true → underscoresFit hexadecimal true cs = true) ↔
    Digits r n cs m ∧ m ≤ limit := by
  constructor
  · rintro ⟨hread, hfit⟩
    refine ⟨digits_of_readDigits (b := true) hu hread ?_ (.inl rfl), readDigits_le hread hn⟩
    by_cases hmem : '_' ∈ cs
    · exact hfit (List.contains_iff_mem.mpr hmem)
    · exact underscoresFit_of_not_mem hmem
  · rintro ⟨hdigits, hm⟩
    obtain ⟨hread, hfit⟩ := readDigits_of_digits hu hdigits hm hpos
    exact ⟨hread, fun _ => hfit⟩

/-! ## Radices -/

theorem digit?_eq_some_iff : digit? c = some d ↔
    (48 ≤ c.toNat ∧ c.toNat ≤ 57 ∧ d = c.toNat - 48) ∨
    (97 ≤ c.toNat ∧ c.toNat ≤ 122 ∧ d = c.toNat - 97 + 10) ∨
    (65 ≤ c.toNat ∧ c.toNat ≤ 90 ∧ d = c.toNat - 65 + 10) := by
  unfold digit?
  split
  · next h =>
    change 48 ≤ c.toNat ∧ c.toNat ≤ 57 at h
    change some (c.toNat - 48) = some d ↔ _
    rw [Option.some.injEq]
    omega
  · next h =>
    change ¬(48 ≤ c.toNat ∧ c.toNat ≤ 57) at h
    split
    · next h' =>
      change 97 ≤ c.toNat ∧ c.toNat ≤ 122 at h'
      change some (c.toNat - 97 + 10) = some d ↔ _
      rw [Option.some.injEq]
      omega
    · next h' =>
      change ¬(97 ≤ c.toNat ∧ c.toNat ≤ 122) at h'
      split
      · next h'' =>
        change 65 ≤ c.toNat ∧ c.toNat ≤ 90 at h''
        change some (c.toNat - 65 + 10) = some d ↔ _
        rw [Option.some.injEq]
        omega
      · next h'' =>
        change ¬(65 ≤ c.toNat ∧ c.toNat ≤ 90) at h''
        rw [iff_false_left (by simp)]
        omega

theorem isDigit_iff : c.isDigit = true ↔ 48 ≤ c.toNat ∧ c.toNat ≤ 57 := by
  unfold Char.isDigit
  rw [Bool.and_eq_true, decide_eq_true_eq, decide_eq_true_eq]
  exact Iff.rfl

theorem isHexLetter_iff : underscoresFit.isHexLetter c = true ↔
    (97 ≤ c.toNat ∧ c.toNat ≤ 102) ∨ (65 ≤ c.toNat ∧ c.toNat ≤ 70) := by
  unfold underscoresFit.isHexLetter
  rw [Bool.or_eq_true, Bool.and_eq_true, Bool.and_eq_true, decide_eq_true_eq, decide_eq_true_eq,
    decide_eq_true_eq, decide_eq_true_eq]
  exact Iff.rfl

theorem underscored_of_le_ten (hr : r ≤ 10) : Underscored r false := by
  intro c d hd hlt
  rw [digit?_eq_some_iff] at hd
  rw [Bool.false_and, Bool.or_false, isDigit_iff]
  omega

theorem underscored_sixteen : Underscored 16 true := by
  intro c d hd hlt
  rw [digit?_eq_some_iff] at hd
  rw [Bool.true_and, Bool.or_eq_true, isDigit_iff, isHexLetter_iff]
  omega

theorem digit?_eq_some_zero (h : digit? c = some 0) : c = '0' := by
  rw [digit?_eq_some_iff] at h
  apply Char.toNat_inj.mp
  change c.toNat = 48
  omega

def Marked (cs : List Char) : Prop := ∃ x ds r, cs = x :: ds ∧ ds ≠ [] ∧ (x, r) ∈ marks

theorem radix_of_mark (hx : (c, r) ∈ marks) (hcs : cs ≠ []) : radix ('0' :: c :: cs) = (r, cs) := by
  obtain ⟨d, ds, rfl⟩ := List.exists_cons_of_ne_nil hcs
  simp only [marks, List.mem_cons, List.not_mem_nil, or_false, Prod.mk.injEq] at hx
  obtain ⟨rfl, rfl⟩ | ⟨rfl, rfl⟩ | ⟨rfl, rfl⟩ | ⟨rfl, rfl⟩ | ⟨rfl, rfl⟩ | ⟨rfl, rfl⟩ := hx <;> rfl

theorem radix_of_unmarked (h : ¬Marked cs) :
    radix ('0' :: cs) = (8, cs) ∧
      ('_' ∈ cs → underscoresPlaced ('0' :: cs) = underscoresFit false true cs) := by
  cases cs with
  | nil => exact ⟨rfl, fun hmem => absurd hmem List.not_mem_nil⟩
  | cons x cs =>
    cases cs with
    | nil =>
      refine ⟨rfl, fun hmem => ?_⟩
      rw [← List.mem_singleton.mp hmem]
      rfl
    | cons y ys =>
      have hne {c r} (hmem : (c, r) ∈ marks) : (x == c) = false := by
        rw [beq_eq_false_iff_ne]
        rintro rfl
        exact h ⟨x, _, r, rfl, List.cons_ne_nil y ys, hmem⟩
      have hb : (x == 'b' || x == 'B') = false := by
        rw [hne (r := 2) (by decide), hne (r := 2) (by decide)]
        rfl
      have ho : (x == 'o' || x == 'O') = false := by
        rw [hne (r := 8) (by decide), hne (r := 8) (by decide)]
        rfl
      have hx : (x == 'x' || x == 'X') = false := by
        rw [hne (r := 16) (by decide), hne (r := 16) (by decide)]
        rfl
      rw [radix, underscoresPlaced, Bool.or_assoc, hb, ho, hx]
      exact ⟨rfl, fun _ => underscoresFit_cons (by decide)⟩

theorem readUnsigned_iff_of_radix (hs : s ≠ []) (hr : radix s = (r, cs)) :
    readUnsigned bits s = .ok n ↔
      readDigits r (1 <<< bits - 1) true 0 cs = .ok n ∧
        (cs.contains '_' = true → underscoresPlaced s = true) := by
  rw [readUnsigned, List.isEmpty_eq_false_iff.2 hs, hr, if_neg Bool.false_ne_true]
  dsimp only
  cases readDigits r (1 <<< bits - 1) true 0 cs with
  | error e =>
    constructor
    · rintro ⟨⟩
    · rintro ⟨⟨⟩, -⟩
  | ok m =>
    change (if _ then Except.error Trouble.malformed else Except.ok m) = .ok n ↔ _
    split
    · next hwrong =>
      rw [Bool.and_eq_true, Bool.not_eq_true'] at hwrong
      constructor
      · rintro ⟨⟩
      · rintro ⟨-, hright⟩
        rw [hright hwrong.1] at hwrong
        cases hwrong.2
    · next hright =>
      rw [Bool.and_eq_true, not_and, Bool.not_eq_true', Bool.not_eq_false] at hright
      exact ⟨fun h => ⟨h, hright⟩, And.left⟩

theorem lt_shiftLeft_iff : n < 1 <<< bits ↔ n ≤ 1 <<< bits - 1 := by
  have hpos : 0 < 1 <<< bits := by
    rw [Nat.one_shiftLeft]
    exact Nat.two_pow_pos bits
  omega

theorem readUnsigned_iff_digits (hs : s ≠ []) (hr : radix s = (r, cs))
    (hplaced : '_' ∈ cs → underscoresPlaced s = underscoresFit hexadecimal true cs)
    (hu : Underscored r hexadecimal) (hpos : 0 < r) :
    readUnsigned bits s = .ok n ↔ Digits r 0 cs n ∧ n < 1 <<< bits := by
  rw [readUnsigned_iff_of_radix hs hr, lt_shiftLeft_iff, ← readDigits_iff hu hpos (Nat.zero_le _)]
  refine and_congr_right fun _ => ?_
  constructor
  · intro h hmem
    rw [← hplaced (List.contains_iff_mem.mp hmem)]
    exact h hmem
  · intro h hmem
    rw [hplaced (List.contains_iff_mem.mp hmem)]
    exact h hmem

/-! ## Whole literals -/

theorem readUnsigned_octal_iff (h : ¬Marked cs) :
    readUnsigned bits ('0' :: cs) = .ok n ↔ Digits 8 0 cs n ∧ n < 1 <<< bits :=
  readUnsigned_iff_digits (List.cons_ne_nil _ _) (radix_of_unmarked h).1 (radix_of_unmarked h).2
    (underscored_of_le_ten (by decide)) (by decide)

theorem readUnsigned_marked_iff (hx : (c, r) ∈ marks) (hcs : cs ≠ []) :
    readUnsigned bits ('0' :: c :: cs) = .ok n ↔ Digits r 0 cs n ∧ n < 1 <<< bits := by
  have hr := radix_of_mark hx hcs
  have hs : '0' :: c :: cs ≠ [] := List.cons_ne_nil _ _
  simp only [marks, List.mem_cons, List.not_mem_nil, or_false, Prod.mk.injEq] at hx
  obtain ⟨rfl, rfl⟩ | ⟨rfl, rfl⟩ | ⟨rfl, rfl⟩ | ⟨rfl, rfl⟩ | ⟨rfl, rfl⟩ | ⟨rfl, rfl⟩ := hx
  all_goals first
    | exact readUnsigned_iff_digits hs hr (fun _ => rfl) (underscored_of_le_ten (by decide))
        (by decide)
    | exact readUnsigned_iff_digits hs hr (fun _ => rfl) underscored_sixteen (by decide)

theorem readUnsigned_decimal_iff (hc : c ≠ '0') :
    readUnsigned bits (c :: cs) = .ok n ↔
      ∃ d, digit? c = some d ∧ 0 < d ∧ d < 10 ∧ Digits 10 d cs n ∧ n < 1 <<< bits := by
  have hplaced : underscoresPlaced (c :: cs) = underscoresFit false false (c :: cs) := by
    rw [underscoresPlaced]
    rintro _ _ ⟨rfl, -⟩
    exact hc rfl
  have hu : Underscored 10 false := underscored_of_le_ten (by decide)
  rw [readUnsigned_iff_of_radix (List.cons_ne_nil _ _) (radix_of_head_ne hc), hplaced,
    lt_shiftLeft_iff]
  constructor
  · rintro ⟨hread, hfit⟩
    have hplain : c ≠ '_' := by
      rintro rfl
      exact absurd (hfit (by simp)) (by rw [underscoresFit_false_underscore]; decide)
    obtain ⟨d, hd, hr, hl, hread⟩ := (readDigits_cons_iff (.inr hplain)).mp hread
    rw [Nat.zero_mul, Nat.zero_add] at hl hread
    rw [underscoresFit_cons hplain, hu c d hd hr] at hfit
    have hfit' (hmem : cs.contains '_' = true) : underscoresFit false true cs = true := by
      refine hfit (List.contains_iff_mem.mpr (List.mem_cons_of_mem _ ?_))
      exact List.contains_iff_mem.mp hmem
    obtain ⟨hdigits, hn⟩ := (readDigits_iff hu (by decide) hl).mp ⟨hread, hfit'⟩
    refine ⟨d, hd, Nat.pos_of_ne_zero ?_, hr, hdigits, hn⟩
    rintro rfl
    exact hc (digit?_eq_some_zero hd)
  · rintro ⟨d, hd, -, hr, hdigits, hn⟩
    have hplain := ne_underscore_of_digit? hd
    have hl : d ≤ 1 <<< bits - 1 := Nat.le_trans (hdigits.le (by decide)) hn
    obtain ⟨hread, hfit⟩ := readDigits_of_digits hu hdigits hn (by decide)
    rw [readDigits_cons_iff (.inr hplain), underscoresFit_cons hplain, hu c d hd hr]
    exact ⟨⟨d, hd, hr, by rwa [Nat.zero_mul, Nat.zero_add], by rwa [Nat.zero_mul, Nat.zero_add]⟩,
      fun _ => hfit⟩

theorem not_marked_of_digits (h : Digits 8 n cs m) : ¬Marked cs := by
  rintro ⟨x, ds, r, rfl, -, hx⟩
  -- the mark of a radix is no octal digit
  have hmarks : ∀ p ∈ marks, p.1 ≠ '_' ∧ ∀ d < 8, digit? p.1 ≠ some d := by decide
  cases h with
  | digit hd hr _ => exact (hmarks _ hx).2 _ hr hd
  | apart _ _ _ => exact (hmarks _ hx).1 rfl

/-- What is read are the literals of the numbers that fit. -/
theorem readUnsigned_eq_ok_iff : readUnsigned bits s = .ok n ↔ IsLiteral s n ∧ n < 1 <<< bits := by
  constructor
  · intro h
    cases s with
    | nil => cases h
    | cons c cs =>
      by_cases hc : c = '0'
      · subst hc
        by_cases hmarked : Marked cs
        · obtain ⟨x, ds, r, rfl, hds, hx⟩ := hmarked
          obtain ⟨hdigits, hn⟩ := (readUnsigned_marked_iff hx hds).mp h
          exact ⟨.marked hx hds hdigits, hn⟩
        · obtain ⟨hdigits, hn⟩ := (readUnsigned_octal_iff hmarked).mp h
          exact ⟨.octal hdigits, hn⟩
      · obtain ⟨d, hd, hpos, hr, hdigits, hn⟩ := (readUnsigned_decimal_iff hc).mp h
        exact ⟨.decimal hd hpos hr hdigits, hn⟩
  · rintro ⟨h, hn⟩
    cases h with
    | decimal hd hpos hr hdigits =>
      refine (readUnsigned_decimal_iff ?_).mpr ⟨_, hd, hpos, hr, hdigits, hn⟩
      rintro rfl
      cases hd
      exact absurd hpos (Nat.lt_irrefl 0)
    | octal hdigits =>
      exact (readUnsigned_octal_iff (not_marked_of_digits hdigits)).mpr ⟨hdigits, hn⟩
    | marked hx hcs hdigits => exact (readUnsigned_marked_iff hx hcs).mpr ⟨hdigits, hn⟩

theorem readSigned_eq_ok_iff {v : Int} (hplus : s.head? ≠ some '+') (hminus : s.head? ≠ some '-') :
    readSigned bits s = .ok v ↔ ∃ n, IsLiteral s n ∧ n < 1 <<< (bits - 1) ∧ v = n := by
  have hle : 1 <<< (bits - 1) ≤ 1 <<< bits := by
    rw [Nat.one_shiftLeft, Nat.one_shiftLeft]
    exact Nat.pow_le_pow_right (by decide) (Nat.sub_le _ _)
  have hread : readSigned bits s = readUnsigned bits s >>= fun n =>
      if 1 <<< (bits - 1) ≤ n then .error .outOfRange else .ok (n : Int) := by
    unfold readSigned
    split
    next hsign =>
      split at hsign
      · exact absurd rfl hplus
      · exact absurd rfl hminus
      · cases hsign
        rfl
  rw [hread]
  cases hunsigned : readUnsigned bits s with
  | error e =>
    constructor
    · rintro ⟨⟩
    · rintro ⟨n, hlit, hn, -⟩
      rw [readUnsigned_eq_ok_iff.mpr ⟨hlit, Nat.lt_of_lt_of_le hn hle⟩] at hunsigned
      cases hunsigned
  | ok m =>
    have hlit := (readUnsigned_eq_ok_iff.mp hunsigned).1
    change (if _ then Except.error Trouble.outOfRange else Except.ok (m : Int)) = .ok v ↔ _
    constructor
    · intro h
      split at h
      · cases h
      · next hlt =>
        cases h
        exact ⟨m, hlit, Nat.lt_of_not_le hlt, rfl⟩
    · rintro ⟨n, hlit', hn, rfl⟩
      have hunsigned' := readUnsigned_eq_ok_iff.mpr ⟨hlit', Nat.lt_of_lt_of_le hn hle⟩
      rw [hunsigned] at hunsigned'
      cases hunsigned'
      rw [if_neg (Nat.not_le.2 hn)]

theorem readDigits_plain_iff (hn : n ≤ limit) : readDigits r limit false n cs = .ok m ↔
    '_' ∉ cs ∧ Digits r n cs m ∧ m ≤ limit := by
  induction cs generalizing n with
  | nil =>
    constructor
    · rintro ⟨⟩
      exact ⟨List.not_mem_nil, .nil, hn⟩
    · rintro ⟨-, ⟨⟩, -⟩
      rfl
  | cons c cs ih =>
    rw [readDigits_cons_iff (.inl rfl)]
    constructor
    · rintro ⟨d, hd, hr, hl, hread⟩
      obtain ⟨hmem, hdigits, hm⟩ := (ih hl).mp hread
      have hc := (ne_underscore_of_digit? hd).symm
      rw [List.mem_cons, not_or]
      exact ⟨⟨hc, hmem⟩, .digit hd hr hdigits, hm⟩
    · rintro ⟨hmem, hdigits, hm⟩
      rw [List.mem_cons, not_or] at hmem
      cases hdigits with
      | digit hd hr hdigits =>
        have hl := Nat.le_trans (hdigits.le (Nat.zero_lt_of_lt hr)) hm
        exact ⟨_, hd, hr, hl, (ih hl).mpr ⟨hmem.2, hdigits, hm⟩⟩
      | apart _ _ _ => exact absurd rfl hmem.1

theorem readDecimal_eq_ok_iff : readDecimal bits s = .ok n ↔
    s ≠ [] ∧ '_' ∉ s ∧ Digits 10 0 s n ∧ n < 1 <<< bits := by
  cases s with
  | nil =>
    constructor
    · rintro ⟨⟩
    · rintro ⟨h, -⟩
      exact absurd rfl h
  | cons c cs =>
    rw [lt_shiftLeft_iff, ← readDigits_plain_iff (Nat.zero_le _)]
    exact ⟨fun h => ⟨List.cons_ne_nil _ _, h⟩, And.right⟩

/-! ## Characters of literals -/

theorem mem_digits (h : Digits r n cs m) (hc : c ∈ cs) : c = '_' ∨ (digit? c).isSome = true := by
  induction h with
  | nil => cases hc
  | digit hd _ _ ih =>
    obtain rfl | hc := List.mem_cons.mp hc
    · exact .inr (by rw [hd]; rfl)
    · exact ih hc
  | apart hd _ _ ih =>
    obtain rfl | hc := List.mem_cons.mp hc
    · exact .inl rfl
    · obtain rfl | hc := List.mem_cons.mp hc
      · exact .inr (by rw [hd]; rfl)
      · exact ih hc

theorem IsLiteral.mem (h : IsLiteral s n) (hc : c ∈ s) : c = '_' ∨ (digit? c).isSome = true := by
  have hmarks : ∀ p ∈ marks, (digit? p.1).isSome = true := by decide
  cases h with
  | decimal hd _ _ hdigits =>
    obtain rfl | hc := List.mem_cons.mp hc
    · exact .inr (by rw [hd]; rfl)
    · exact mem_digits hdigits hc
  | octal hdigits =>
    obtain rfl | hc := List.mem_cons.mp hc
    · exact .inr rfl
    · exact mem_digits hdigits hc
  | marked hx _ hdigits =>
    obtain rfl | hc := List.mem_cons.mp hc
    · exact .inr rfl
    · obtain rfl | hc := List.mem_cons.mp hc
      · exact .inr (hmarks _ hx)
      · exact mem_digits hdigits hc

theorem IsLiteral.head (h : IsLiteral s n) : ∃ c cs, s = c :: cs ∧ c.isDigit = true := by
  cases h with
  | decimal hd _ hr _ =>
    refine ⟨_, _, rfl, isDigit_iff.mpr ?_⟩
    rw [digit?_eq_some_iff] at hd
    omega
  | octal _ => exact ⟨_, _, rfl, rfl⟩
  | marked _ _ _ => exact ⟨_, _, rfl, rfl⟩

end HostCode.Numeral
