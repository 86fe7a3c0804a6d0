import HostCode.Text.Numeral

/-! # Numerals read back

A number that is written in decimal or hexadecimal is read back as the same number, provided
that it fits in the bits that the reader allows.
-/

namespace HostCode.Numeral

theorem digit?_digitChar {d : Nat} (h : d < 16) : digit? d.digitChar = some d := by
  revert d
  decide

theorem mem_toDigits {b n : Nat} {c : Char} (hb : 1 < b) (hb' : b ≤ 16)
    (h : c ∈ Nat.toDigits b n) : ∃ d < 16, c = Nat.digitChar d := by
  induction n using Nat.strongRecOn with
  | _ n ih =>
    by_cases hn : n < b
    · rw [Nat.toDigits_of_lt_base hn, List.mem_singleton] at h
      exact ⟨n, by omega, h⟩
    · rw [Nat.toDigits_of_base_le hb (by omega), List.mem_append, List.mem_singleton] at h
      obtain h | rfl := h
      · exact ih (n / b) (Nat.div_lt_self (by omega) hb) h
      · have hmod := Nat.mod_lt n (by omega : 0 < b)
        exact ⟨n % b, by omega, rfl⟩

theorem not_mem_toDigits {b n : Nat} {c : Char} (hb : 1 < b) (hb' : b ≤ 16)
    (hc : ∀ d < 16, c ≠ Nat.digitChar d) : c ∉ Nat.toDigits b n := by
  intro h
  obtain ⟨d, hd, rfl⟩ := mem_toDigits hb hb' h
  exact hc d hd rfl

theorem readDigits_append {r limit sum n : Nat} {us : Bool} {ds : List Char}
    (h : readDigits r limit us sum ds = .ok n) (es : List Char) :
    readDigits r limit us sum (ds ++ es) = readDigits r limit us n es := by
  fun_induction readDigits r limit us sum ds with
  | case1 sum => cases h; rfl
  | case2 sum c cs hc ih =>
    rw [List.cons_append, readDigits, if_pos hc]
    exact ih h
  | case3 => cases h
  | case4 => cases h
  | case5 => cases h
  | case6 sum c cs hc d hd hr hl ih =>
    rw [List.cons_append, readDigits, if_neg hc, hd]
    simp only [if_neg hr, if_neg hl]
    exact ih h

theorem readDigits_digitChar {r limit sum d : Nat} {us : Bool} (hd : d < r) (hr : r ≤ 16)
    (hl : sum * r + d ≤ limit) :
    readDigits r limit us sum [d.digitChar] = .ok (sum * r + d) := by
  have hdigit := digit?_digitChar (by omega : d < 16)
  have hplain : (us && d.digitChar == '_') = false := by
    have hchar : ∀ d < 16, d.digitChar ≠ '_' := by decide
    simp [hchar d (by omega)]
  rw [readDigits, hplain, hdigit]
  simp only [Bool.false_eq_true, if_false, if_neg (Nat.not_le.2 hd), if_neg (Nat.not_lt.2 hl)]
  rfl

theorem readDigits_toDigits {r limit n : Nat} {us : Bool} (hr : 1 < r) (hr' : r ≤ 16)
    (h : n ≤ limit) : readDigits r limit us 0 (Nat.toDigits r n) = .ok n := by
  induction n using Nat.strongRecOn with
  | _ n ih =>
    by_cases hn : n < r
    · rw [Nat.toDigits_of_lt_base hn, readDigits_digitChar hn hr' (by omega), Nat.zero_mul,
        Nat.zero_add]
    · have hmod := Nat.mod_lt n (by omega : 0 < r)
      have hsum : n / r * r + n % r = n := Nat.div_add_mod' n r
      have hlt : n / r < n := Nat.div_lt_self (by omega) hr
      have hquot := ih (n / r) hlt (by omega)
      rw [Nat.toDigits_of_base_le hr (by omega), readDigits_append hquot,
        readDigits_digitChar hmod hr' (by omega), hsum]

theorem head_toDigits {b n : Nat} (hb : 1 < b) (hb' : b ≤ 16) (hn : 0 < n) :
    ∃ c cs, Nat.toDigits b n = c :: cs ∧ c ≠ '0' := by
  induction n using Nat.strongRecOn with
  | _ n ih =>
    by_cases hlt : n < b
    · have hchar : ∀ d < 16, 0 < d → d.digitChar ≠ '0' := by decide
      exact ⟨_, _, Nat.toDigits_of_lt_base hlt, hchar n (by omega) hn⟩
    · obtain ⟨c, cs, hc, hne⟩ :=
        ih (n / b) (Nat.div_lt_self hn hb) (Nat.div_pos (by omega) (by omega))
      exact ⟨c, _, by rw [Nat.toDigits_of_base_le hb (by omega), hc, List.cons_append], hne⟩

theorem radix_of_head_ne {c : Char} {cs : List Char} (h : c ≠ '0') :
    radix (c :: cs) = (10, c :: cs) := by
  rw [radix]
  rintro _ ⟨rfl, -⟩
  exact h rfl

/-! ## Whole literals -/

theorem readDecimal_toDigits {bits n : Nat} (h : n < 1 <<< bits) :
    readDecimal bits (Nat.toDigits 10 n) = .ok n := by
  rw [readDecimal, List.isEmpty_eq_false_iff.2 Nat.toDigits_ne_nil]
  exact readDigits_toDigits (by decide) (by decide) (by omega)

theorem readUnsigned_of_digits {bits r n : Nat} {s ds : List Char} (hs : s ≠ [])
    (hr : radix s = (r, ds)) (hn : readDigits r (1 <<< bits - 1) true 0 ds = .ok n)
    (hu : '_' ∉ ds) : readUnsigned bits s = .ok n := by
  have hplain : ds.contains '_' = false := by simpa using hu
  rw [readUnsigned, List.isEmpty_eq_false_iff.2 hs, hr]
  simp only [hn, hplain, Bool.false_and]
  rfl

theorem readUnsigned_hexDigits {bits n : Nat} (h : n < 1 <<< bits) :
    readUnsigned bits ('0' :: 'x' :: hexDigits n) = .ok n := by
  obtain ⟨d, ds, hds⟩ := List.exists_cons_of_ne_nil (Nat.toDigits_ne_nil (n := n) (b := 16))
  have hr : radix ('0' :: 'x' :: hexDigits n) = (16, hexDigits n) := by
    rw [hexDigits, hds]
    rfl
  exact readUnsigned_of_digits (by simp) hr
    (readDigits_toDigits (by decide) (by decide) (by omega))
    (not_mem_toDigits (by decide) (by decide) (by decide))

theorem readUnsigned_toDigits {bits n : Nat} (h : n < 1 <<< bits) :
    readUnsigned bits (Nat.toDigits 10 n) = .ok n := by
  obtain rfl | hn := Nat.eq_zero_or_pos n
  · exact readUnsigned_of_digits (List.cons_ne_nil _ _) rfl rfl List.not_mem_nil
  · obtain ⟨c, cs, hc, hne⟩ := head_toDigits (b := 10) (by decide) (by decide) hn
    have hr : radix (Nat.toDigits 10 n) = (10, Nat.toDigits 10 n) := by
      rw [hc]
      exact radix_of_head_ne hne
    exact readUnsigned_of_digits Nat.toDigits_ne_nil hr
      (readDigits_toDigits (by decide) (by decide) (by omega))
      (not_mem_toDigits (by decide) (by decide) (by decide))

theorem readSigned_hexDigits {n : Nat} (h : n < 1 <<< 63) :
    readSigned 64 ('0' :: 'x' :: hexDigits n) = .ok n := by
  have hread : readUnsigned 64 ('0' :: 'x' :: hexDigits n) = .ok n :=
    readUnsigned_hexDigits (by omega)
  change (readUnsigned 64 ('0' :: 'x' :: hexDigits n) >>= _) = _
  rw [hread]
  exact if_neg (Nat.not_le.2 h)

theorem readSigned_neg_hexDigits {n : Nat} (h : n ≤ 1 <<< 63) :
    readSigned 64 ('-' :: '0' :: 'x' :: hexDigits n) = .ok (-n) := by
  have hread : readUnsigned 64 ('0' :: 'x' :: hexDigits n) = .ok n :=
    readUnsigned_hexDigits (by omega)
  change (readUnsigned 64 ('0' :: 'x' :: hexDigits n) >>= _) = _
  rw [hread]
  exact if_neg (Nat.not_lt.2 h)

@[simp] theorem toList_hex (n : Nat) : (hex n).toList = '0' :: 'x' :: hexDigits n := by
  simp [hex]

/-- Numbers of 64 bits with a sign, the least one included. -/
theorem readSigned_signedHex {v : Int} (hlo : -(1 <<< 63 : Nat) ≤ v) (hhi : v < (1 <<< 63 : Nat)) :
    readSigned 64 (signedHex v).toList = .ok v := by
  rw [signedHex]
  split
  · rw [String.toList_append, toList_hex]
    have := readSigned_neg_hexDigits (n := v.natAbs) (by omega)
    rwa [show (-(v.natAbs : Int)) = v by omega] at this
  · rw [toList_hex]
    have := readSigned_hexDigits (n := v.natAbs) (by omega)
    rwa [show (v.natAbs : Int) = v by omega] at this

end HostCode.Numeral
