import HostCode.Buffer

/-! # Fields of a buffer

A field is a range of bytes. Writing one field leaves the bytes outside of it alone, so fields
that lie apart do not disturb each other.
-/

namespace HostCode

/-- A range of bytes in the code. -/
structure Field where
  start : Nat
  size : Nat
  deriving DecidableEq, Repr

namespace Field

def stop (f : Field) : Nat := f.start + f.size

def Covers (f : Field) (i : Nat) : Prop := f.start ≤ i ∧ i < f.stop

def Apart (f g : Field) : Prop := f.stop ≤ g.start ∨ g.stop ≤ f.start

instance (f g : Field) : Decidable (Apart f g) :=
  inferInstanceAs (Decidable (f.stop ≤ g.start ∨ g.stop ≤ f.start))

theorem Apart.symm {f g : Field} (h : Apart f g) : Apart g f := Or.symm h

theorem Apart.size_eq_zero {f : Field} (h : Apart f f) : f.size = 0 := by
  unfold Apart stop at h
  omega

theorem Apart.not_covers {f g : Field} (h : Apart f g) {i : Nat} (hi : f.Covers i) :
    ¬ g.Covers i := by
  rintro ⟨hs, ht⟩
  obtain ⟨hs', ht'⟩ := hi
  rcases h with h | h <;> omega

end Field

namespace CodeBuffer

variable {b b' b'' : CodeBuffer} {f g : Field} {fs gs : List Field}

def field (b : CodeBuffer) (f : Field) : List UInt8 := b.slice f.start f.size

theorem getElem?_slice (b : CodeBuffer) (i n j : Nat) :
    (b.slice i n)[j]? = if j < n then b.bytes[i + j]? else none := by
  rw [slice, Array.getElem?_toList, Array.getElem?_extract]
  split
  · rw [if_pos (by omega)]
  · split
    · exact (Array.getElem?_eq_none (by omega)).symm
    · rfl

theorem field_congr {b c : CodeBuffer} (h : ∀ i, f.Covers i → b.bytes[i]? = c.bytes[i]?) :
    b.field f = c.field f := by
  apply List.ext_getElem?
  intro j
  rw [field, field, getElem?_slice, getElem?_slice]
  split
  next hj => exact h _ ⟨by omega, by unfold Field.stop; omega⟩
  next => rfl

theorem getElem?_eq_of_field_eq {b c : CodeBuffer} (h : b.field f = c.field f) {i : Nat}
    (hi : f.Covers i) : b.bytes[i]? = c.bytes[i]? := by
  obtain ⟨hs, ht⟩ := hi
  unfold Field.stop at ht
  have hslice : (b.slice f.start f.size)[i - f.start]? = (c.slice f.start f.size)[i - f.start]? :=
    congrArg (·[i - f.start]?) h
  rw [getElem?_slice, getElem?_slice, if_pos (by omega), if_pos (by omega),
    Nat.add_sub_cancel' hs] at hslice
  exact hslice

theorem field_add (b : CodeBuffer) (i m n : Nat) :
    b.field ⟨i, m + n⟩ = b.field ⟨i, m⟩ ++ b.field ⟨i + m, n⟩ := by
  simp only [field, slice, Array.toList_extract, List.extract_eq_take_drop]
  rw [Nat.add_sub_cancel_left, Nat.add_sub_cancel_left, Nat.add_sub_cancel_left, List.take_add,
    List.drop_drop]

theorem field_within (b : CodeBuffer) {i k l n : Nat} (h : k + l ≤ n) :
    b.field ⟨i + k, l⟩ = ((b.field ⟨i, n⟩).drop k).take l := by
  simp only [field, slice, Array.toList_extract, List.extract_eq_take_drop, Nat.add_sub_cancel_left,
    List.drop_take, List.drop_drop, List.take_take]
  rw [Nat.min_eq_left (by omega)]

theorem length_field (h : f.stop ≤ b.length) : (b.field f).length = f.size := by
  unfold Field.stop length at h
  rw [field, slice, Array.length_toList, Array.size_extract]
  omega

theorem getElem?_overwrite (bytes : Array UInt8) (i : Nat) (chunk : List UInt8) (j : Nat) :
    (overwrite bytes i chunk)[j]? =
      if i ≤ j ∧ j < i + chunk.length ∧ j < bytes.size then chunk[j - i]? else bytes[j]? := by
  induction chunk generalizing bytes i with
  | nil => rw [overwrite, if_neg (by simp; omega)]
  | cons c cs ih =>
    rw [overwrite, ih, Array.size_setIfInBounds, Array.getElem?_setIfInBounds, List.length_cons]
    by_cases hj : i = j
    · subst hj
      rw [if_neg (by omega), if_pos rfl]
      split <;> rename_i hs
      · rw [if_pos (by omega), Nat.sub_self, List.getElem?_cons_zero]
      · rw [if_neg (by omega)]
        exact (Array.getElem?_eq_none (by omega)).symm
    · rw [if_neg hj]
      by_cases hr : i + 1 ≤ j ∧ j < i + 1 + cs.length ∧ j < bytes.size
      · rw [if_pos hr, if_pos (by omega), show j - i = (j - (i + 1)) + 1 by omega,
          List.getElem?_cons_succ]
      · rw [if_neg hr, if_neg (by omega)]

/-- `b'` is `b` with other bytes in the given fields, and the same in all else. -/
structure Rewrites (fs : List Field) (b b' : CodeBuffer) : Prop where
  rest : b' = { b with bytes := b'.bytes }
  length : b'.length = b.length
  outside : ∀ i, (∀ f ∈ fs, ¬ f.Covers i) → b'.bytes[i]? = b.bytes[i]?

namespace Rewrites

theorem refl (fs : List Field) (b : CodeBuffer) : Rewrites fs b b := ⟨rfl, rfl, fun _ _ => rfl⟩

theorem mono (h : Rewrites fs b b') (hs : fs ⊆ gs) : Rewrites gs b b' :=
  ⟨h.rest, h.length, fun i hi => h.outside i fun f hf => hi f (hs hf)⟩

theorem trans (h : Rewrites fs b b') (h' : Rewrites fs b' b'') : Rewrites fs b b'' := by
  refine ⟨?_, h'.length.trans h.length, fun i hi => (h'.outside i hi).trans (h.outside i hi)⟩
  rw [h'.rest, h.rest]

theorem address (h : Rewrites fs b b') : b'.address = b.address := by
  rw [h.rest]; rfl

theorem capacity (h : Rewrites fs b b') : b'.capacity = b.capacity := by rw [h.rest]

theorem field_eq (h : Rewrites fs b b') (hf : ∀ g ∈ fs, f.Apart g) : b'.field f = b.field f :=
  field_congr fun i hi => h.outside i fun g hg => (hf g hg).not_covers hi

end Rewrites

theorem patch_eq {i : Nat} {chunk : List UInt8} (h : i + chunk.length ≤ b.length) :
    b.patch i chunk = .ok { b with bytes := overwrite b.bytes i chunk } := by
  rw [patch, place, if_pos (by omega)]
  rfl

theorem rewrites_overwrite (b : CodeBuffer) (i : Nat) (chunk : List UInt8) :
    Rewrites [⟨i, chunk.length⟩] b { b with bytes := overwrite b.bytes i chunk } := by
  refine ⟨rfl, size_overwrite .., fun j hj => ?_⟩
  rw [getElem?_overwrite, if_neg]
  rintro ⟨hs, ht, -⟩
  exact hj _ List.mem_cons_self ⟨hs, ht⟩

theorem field_overwrite {i : Nat} {chunk : List UInt8} (h : i + chunk.length ≤ b.length) :
    ({ b with bytes := overwrite b.bytes i chunk } : CodeBuffer).field ⟨i, chunk.length⟩ =
      chunk := by
  apply List.ext_getElem?
  intro j
  unfold length at h
  simp only [field, getElem?_slice]
  split
  next hj => rw [getElem?_overwrite, if_pos (by omega), Nat.add_sub_cancel_left]
  next hj => exact (List.getElem?_eq_none (by omega)).symm

theorem patch_ok {chunk : List UInt8} (hf : f.stop ≤ b.length) (hc : chunk.length = f.size) :
    ∃ b', b.patch f.start chunk = .ok b' ∧ Rewrites [f] b b' ∧ b'.field f = chunk := by
  obtain ⟨i, n⟩ := f
  subst hc
  exact ⟨_, patch_eq hf, rewrites_overwrite .., field_overwrite hf⟩

/-! ## The end of the buffer -/

theorem length_push (b : CodeBuffer) (chunk : List UInt8) :
    (b.push chunk).length = b.length + chunk.length := by
  rw [length, ← Array.length_toList, push, Array.toList_appendList, List.length_append,
    Array.length_toList, length]

theorem getElem?_push (b : CodeBuffer) (chunk : List UInt8) (i : Nat) :
    (b.push chunk).bytes[i]? = if i < b.length then b.bytes[i]? else chunk[i - b.length]? := by
  rw [push, ← Array.getElem?_toList, Array.toList_appendList, List.getElem?_append,
    Array.length_toList, Array.getElem?_toList]
  rfl

theorem field_push (chunk : List UInt8) (h : f.stop ≤ b.length) :
    (b.push chunk).field f = b.field f := by
  apply field_congr
  rintro i ⟨-, hi⟩
  rw [getElem?_push, if_pos (by omega)]

theorem field_push_end (b : CodeBuffer) (chunk : List UInt8) :
    (b.push chunk).field ⟨b.length, chunk.length⟩ = chunk := by
  apply List.ext_getElem?
  intro j
  simp only [field, getElem?_slice]
  split
  next hj => rw [getElem?_push, if_neg (by omega), Nat.add_sub_cancel_left]
  next hj => exact (List.getElem?_eq_none (by omega)).symm

theorem truncate_eq {n : Nat} (h : n ≤ b.length) :
    b.truncate n = .ok { b with bytes := b.bytes.take n } := by
  rw [truncate, if_pos (by omega)]
  rfl

theorem getElem?_take (bytes : Array UInt8) (n i : Nat) :
    (bytes.take n)[i]? = if i < n then bytes[i]? else none := by
  simp only [Array.take_eq_extract, Array.getElem?_extract, Nat.sub_zero, Nat.zero_add]
  split
  · rw [if_pos (by omega)]
  · split
    · exact (Array.getElem?_eq_none (by omega)).symm
    · rfl

theorem field_take {n : Nat} (h : f.stop ≤ n) :
    ({ b with bytes := b.bytes.take n } : CodeBuffer).field f = b.field f := by
  apply field_congr
  rintro i ⟨-, hi⟩
  rw [getElem?_take, if_pos (by omega)]

end CodeBuffer

end HostCode
