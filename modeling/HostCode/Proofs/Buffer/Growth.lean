import HostCode.Proofs.Buffer.Field

/-! # Growth of a buffer

A supply that never answers with the address zero keeps a buffer sane: what was written fits
into its memory, and its memory has an address. Making room for more bytes changes none of
those that are there.
-/

namespace HostCode

namespace Supply

def after (s : Supply) (sizes : List Nat) : Supply :=
  sizes.foldl (fun s size => (s.take size).2) s

/-- Whatever is asked for, and in whatever order, no answer is the address zero. -/
def NeverZero (s : Supply) : Prop :=
  ∀ sizes size, ((s.after sizes).take size).1 ≠ .ok 0

theorem NeverZero.take {s : Supply} (h : s.NeverZero) (size : Nat) : (s.take size).2.NeverZero :=
  fun sizes => h (size :: sizes)

theorem NeverZero.ne_zero {s : Supply} (h : s.NeverZero) {size : Nat} {base : HostAddress}
    {rest : Supply} (ht : s.take size = (.ok base, rest)) : base ≠ 0 := by
  rintro rfl
  exact h [] size (congrArg Prod.fst ht)

theorem after_listed (answers : List (Except String HostAddress)) (sizes : List Nat) :
    (listed answers).after sizes = listed (answers.drop sizes.length) := by
  induction sizes generalizing answers with
  | nil => rfl
  | cons n sizes ih =>
    cases answers with
    | nil => exact (ih []).trans (by simp only [List.drop_nil])
    | cons a as => exact ih as

/-- A list of answers without the address zero stands for any memory that is given out at
addresses of its own choice, since a run asks for memory finitely often. -/
theorem neverZero_listed {answers : List (Except String HostAddress)}
    (h : .ok 0 ∉ answers) : (listed answers).NeverZero := by
  intro sizes size
  rw [after_listed]
  cases hd : answers.drop sizes.length with
  | nil => exact nofun
  | cons a as =>
    have hm : a ∈ answers := List.mem_of_mem_drop (hd ▸ List.mem_cons_self)
    cases a with
    | error text => exact nofun
    | ok base =>
      intro he
      cases he
      exact h hm

theorem take_error {s rest : Supply} {size : Nat} {f : Fault}
    (h : s.take size = (.error f, rest)) : (∃ e, f = .allocation e) ∨ f = .outOfRange := by
  cases s with
  | listed answers =>
    cases answers with
    | nil => cases h; exact .inl ⟨_, rfl⟩
    | cons a as =>
      cases a with
      | error text => cases h; exact .inl ⟨_, rfl⟩
      | ok base => cases h
  | fresh m next limit =>
    simp only [take] at h
    split at h
    · cases h
    · cases m with
      | data => cases h; exact .inr rfl
      | executable => cases h; exact .inl ⟨_, rfl⟩

end Supply

namespace CodeBuffer

variable {b b' : CodeBuffer}

structure Sane (b : CodeBuffer) : Prop where
  fits : b.length ≤ b.capacity
  based : b.capacity ≠ 0 → b.base ≠ 0
  supply : b.supply.NeverZero

structure Unused (b : CodeBuffer) : Prop where
  bytes : b.bytes = #[]
  capacity : b.capacity = 0
  supply : b.supply.NeverZero

theorem Unused.sane (h : b.Unused) : b.Sane :=
  ⟨by rw [length, h.bytes]; exact Nat.zero_le _, fun hc => absurd h.capacity hc, h.supply⟩

theorem le_capacityFor (b : CodeBuffer) (want : Nat) : want ≤ b.capacityFor want := by
  have hp := b.increment_pos
  have hd := Nat.div_add_mod (want - b.capacity + b.increment - 1) b.increment
  have hm := Nat.mod_lt (want - b.capacity + b.increment - 1) hp
  rw [Nat.mul_comm] at hd
  unfold capacityFor
  omega

/-- `b'` holds the bytes of `b` in memory that may be larger and elsewhere. -/
structure Housed (b b' : CodeBuffer) : Prop where
  bytes : b'.bytes = b.bytes
  sane : b'.Sane

/-- What making room for `n` bytes comes to. Without a move to report, the address is the one
that was there, or it is the first. -/
theorem reserve_cases (h : b.Sane) (n : Nat) :
    (∃ f b', b.reserve n = (.error f, b') ∧ Housed b b' ∧ b'.address = b.address ∧
      ((∃ e, f = .allocation e) ∨ f = .outOfRange)) ∨
    (∃ b', b.reserve n = (.ok none, b') ∧ Housed b b' ∧ b.length + n ≤ b'.capacity ∧
      (b'.address = b.address ∨ b.length = 0)) ∨
    (∃ m b', b.reserve n = (.ok (some m), b') ∧ Housed b b' ∧ b.length + n ≤ b'.capacity) := by
  have hfits := h.fits
  by_cases hroom : b.length + n ≤ b.capacity
  · exact .inr (.inl ⟨b, by rw [reserve, if_pos hroom], ⟨rfl, h⟩, hroom, .inl rfl⟩)
  have hle := b.le_capacityFor (b.length + n)
  rcases ht : b.supply.take (b.capacityFor (b.length + n)) with ⟨_ | base, rest⟩
  · rename_i f
    have hrest : rest.NeverZero := by simpa [ht] using h.supply.take (b.capacityFor (b.length + n))
    refine .inl ⟨f, { b with supply := rest }, ?_, ⟨rfl, h.fits, h.based, hrest⟩, rfl,
      Supply.take_error ht⟩
    simp only [reserve, if_neg hroom, ht]
  · have hrest : rest.NeverZero := by simpa [ht] using h.supply.take (b.capacityFor (b.length + n))
    have hzero : base ≠ 0 := h.supply.ne_zero ht
    let grown : CodeBuffer := { b with
      supply := rest, base, capacity := b.capacityFor (b.length + n), grows := b.grows + 1 }
    have hgrown : Housed b grown :=
      ⟨rfl, ⟨Nat.le_trans (Nat.le_add_right ..) hle, fun _ => hzero, hrest⟩⟩
    by_cases hmove : b.address ≠ 0 ∧ grown.address ≠ b.address
    · refine .inr (.inr ⟨⟨b.address, grown.address, grown.capacity⟩, grown, ?_, hgrown, hle⟩)
      simp only [reserve, if_neg hroom, ht]
      rw [if_pos hmove]
    · refine .inr (.inl ⟨grown, ?_, hgrown, hle, ?_⟩)
      · simp only [reserve, if_neg hroom, ht]
        rw [if_neg hmove]
      · by_cases hc : b.capacity = 0
        · exact .inr (by omega)
        · have ha : b.address ≠ 0 := by
            rw [address, if_neg hc]
            exact h.based hc
          exact .inl (Classical.not_not.mp fun hne => hmove ⟨ha, hne⟩)

theorem Rewrites.sane {fs : List Field} (h : Rewrites fs b b') (hs : b.Sane) : b'.Sane := by
  refine ⟨?_, ?_, ?_⟩
  · rw [h.length, h.capacity]; exact hs.fits
  · rw [h.rest]; exact hs.based
  · rw [h.rest]; exact hs.supply

end CodeBuffer

end HostCode
