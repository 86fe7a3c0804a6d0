import HostCode.Listing
import HostCode.Proofs.Assembler.Layout

/-! # Listings of an assembler

The embedded addresses of an assembler lie inside of its code, and no instruction is listed
across one of them. So its listing is complete, as long as they have not outgrown the offsets.
-/

namespace HostCode

namespace Listing

theorem add_error {l : Line} {rest : Except Fault (List Line)} {f : Fault}
    (h : add l rest = .error f) : rest = .error f := by
  cases rest with
  | error g => exact h
  | ok ls => cases h

theorem lines_error (decode : List UInt8 → Option Nat) {f : Fault} (offset : Nat)
    (rest : List UInt8) (literals : List Literal)
    (h : lines decode offset rest literals = .error f) : f = .outOfRange := by
  fun_induction lines decode offset rest literals with
  | case1 => cases h
  | case2 _ _ _ _ _ _ ih => exact ih h
  | case3 => cases h; rfl
  | case4 _ _ _ _ _ _ _ _ _ ih => exact ih (add_error h)
  | case5 => cases h; rfl
  | case6 _ _ _ _ _ _ _ _ _ _ ih => exact ih (add_error h)
  | case7 _ _ _ _ _ _ _ _ _ ih => exact ih (add_error h)
  | case8 _ _ _ _ _ ih => exact ih (add_error h)
  | case9 _ _ _ _ ih => exact ih (add_error h)

theorem add_error_iff {l : Line} {rest : Except Fault (List Line)} :
    (∃ f, add l rest = .error f) ↔ ∃ f, rest = .error f := by
  cases rest with
  | error f => exact Iff.rfl
  | ok ls => exact iff_of_false nofun nofun

/-- The literals that a listing from `offset` on comes to. They do not begin before it, nor inside
of another one that it comes to. -/
def visible (offset : Int) : List Literal → List Literal
  | [] => []
  | l :: ls =>
    if l.offset < offset then visible offset ls else l :: visible (l.offset + l.size) ls

theorem visible_cons_of_le {offset : Int} {l : Literal} (h : offset ≤ l.offset)
    (ls : List Literal) : visible offset (l :: ls) = l :: visible (l.offset + l.size) ls := by
  rw [visible, if_neg (Int.not_lt.mpr h)]

theorem le_of_mem_visible {offset : Int} {l : Literal} {ls : List Literal}
    (hsize : ∀ l ∈ ls, 0 ≤ l.size) (h : l ∈ visible offset ls) : offset ≤ l.offset := by
  induction ls generalizing offset with
  | nil => cases h
  | cons m ls ih =>
    obtain ⟨hm, hls⟩ := List.forall_mem_cons.mp hsize
    rw [visible] at h
    split at h
    · exact ih hls h
    · rcases List.mem_cons.mp h with rfl | h
      · omega
      · have := ih hls h
        omega

theorem mem_of_mem_visible {offset : Int} {l : Literal} {ls : List Literal}
    (h : l ∈ visible offset ls) : l ∈ ls := by
  induction ls generalizing offset with
  | nil => cases h
  | cons m ls ih =>
    rw [visible] at h
    split at h
    · exact List.mem_cons_of_mem _ (ih h)
    · rcases List.mem_cons.mp h with rfl | h
      · exact List.mem_cons_self
      · exact List.mem_cons_of_mem _ (ih h)

theorem mem_visible_of_apart {offset : Int} {l : Literal} {ls : List Literal}
    (hapart : ls.Pairwise fun l m => l.offset + l.size ≤ m.offset)
    (hl : l ∈ ls) (hle : offset ≤ l.offset) : l ∈ visible offset ls := by
  induction ls generalizing offset with
  | nil => cases hl
  | cons m ls ih =>
    obtain ⟨hm, hls⟩ := List.pairwise_cons.mp hapart
    rw [visible]
    rcases List.mem_cons.mp hl with rfl | hl
    · rw [if_neg (by omega)]
      exact List.mem_cons_self
    · split
      · exact ih hls hl hle
      · exact List.mem_cons_of_mem _ (ih hls hl (hm l hl))

/-- Whether a listing is complete does not depend on the code. No instruction reaches into a
literal, so the listing comes to every one that does not begin inside of another. -/
theorem lines_error_iff_visible (decode : List UInt8 → Option Nat)
    (hdecode : ∀ bytes n, bytes ≠ [] → decode bytes = some n → n ≤ bytes.length)
    (total offset : Nat) (rest : List UInt8) (literals : List Literal)
    (hin : ∀ l ∈ literals, 0 ≤ l.size ∧ l.offset ≤ total) (hleft : offset + rest.length = total) :
    (∃ f, lines decode offset rest literals = .error f) ↔
      ∃ l ∈ visible offset literals, l.offset < total ∧ offsetLimit ≤ l.offset + l.size := by
  -- nothing is visible behind the end
  have hnone : ∀ {next : Int} {ls : List Literal}, (∀ l ∈ ls, 0 ≤ l.size ∧ l.offset ≤ total) →
      (total : Int) ≤ next →
      ¬ ∃ l ∈ visible next ls, l.offset < total ∧ offsetLimit ≤ l.offset + l.size := by
    rintro next ls hin hnext ⟨l, hl, hlt, -⟩
    have := le_of_mem_visible (fun l hl => (hin l hl).1) hl
    omega
  fun_induction lines decode offset rest literals with
  | case1 offset literals =>
    refine iff_of_false nofun (hnone hin ?_)
    simp only [List.length_nil] at hleft
    omega
  | case2 offset b bs l ls hlt ih =>
    rw [visible, if_pos hlt]
    exact ih (fun m hm => hin m (List.mem_cons_of_mem _ hm)) hleft
  | case3 offset b bs l ls hlt hat hbad =>
    have := hin l List.mem_cons_self
    refine iff_of_true ⟨_, rfl⟩ ⟨l, ?_, ?_, ?_⟩
    · rw [visible_cons_of_le (by omega)]
      exact List.mem_cons_self
    · simp only [List.length_cons] at hleft
      omega
    · omega
  | case4 offset b bs l ls hlt hat hgood n ih =>
    have hrest : ∀ m ∈ ls, 0 ≤ m.size ∧ m.offset ≤ total :=
      fun m hm => hin m (List.mem_cons_of_mem _ hm)
    rw [visible_cons_of_le (by omega)]
    refine add_error_iff.trans ((ih hrest ?_).trans ?_)
    · rw [List.length_drop]
      omega
    · simp only [List.mem_cons, exists_eq_or_imp]
      rw [or_iff_right (by omega)]
      by_cases hcut : l.size.toNat ≤ (b :: bs).length
      · have hn : ((offset + n : Nat) : Int) = l.offset + l.size := by omega
        rw [hn]
      · exact iff_of_false (hnone hrest (by omega)) (hnone hrest (by omega))
  | case5 offset b bs l ls _ _ hpast =>
    have := hin l List.mem_cons_self
    omega
  | case6 offset b bs l ls _ _ hreach n hd ih =>
    have hn := hdecode _ _ (by simp; omega) hd
    rw [List.length_take] at hn
    rw [visible_cons_of_le (by omega)]
    rw [visible_cons_of_le (by omega)] at ih
    refine add_error_iff.trans (ih hin ?_)
    simp only [List.length_cons, List.length_drop] at hleft hn ⊢
    omega
  | case7 offset b bs l ls _ _ hreach _ ih =>
    rw [visible_cons_of_le (by omega)]
    rw [visible_cons_of_le (by omega)] at ih
    refine add_error_iff.trans (ih hin ?_)
    simp only [List.length_cons] at hleft
    omega
  | case8 offset b bs n hd ih =>
    have hn := hdecode _ _ (List.cons_ne_nil _ _) hd
    refine add_error_iff.trans (ih hin ?_)
    simp only [List.length_cons, List.length_drop] at hleft hn ⊢
    omega
  | case9 offset b bs _ ih =>
    refine add_error_iff.trans (ih hin ?_)
    simp only [List.length_cons] at hleft
    omega

/-- A literal from `offset` on ends behind the last offset. -/
def Overflows (offset : Nat) (literals : List Literal) : Prop :=
  ∃ l ∈ literals, offset ≤ l.offset ∧ offsetLimit ≤ l.offset + 8

/-- Embedded addresses do not overlap, so a listing comes to all of them. -/
theorem lines_error_iff (decode : List UInt8 → Option Nat)
    (hdecode : ∀ bytes n, decode bytes = some n → n ≤ bytes.length) (total offset : Nat)
    (rest : List UInt8) (literals : List Literal)
    (hapart : literals.Pairwise fun l m => l.offset + 8 ≤ m.offset)
    (hin : ∀ l ∈ literals, l.size = 8 ∧ l.offset + 8 ≤ total)
    (hleft : offset + rest.length = total) :
    (∃ f, lines decode offset rest literals = .error f) ↔ Overflows offset literals := by
  have hbounds : ∀ l ∈ literals, 0 ≤ l.size ∧ l.offset ≤ total := by
    intro l hl
    have := hin l hl
    omega
  have hsizes : literals.Pairwise fun l m => l.offset + l.size ≤ m.offset := by
    refine List.Pairwise.imp_of_mem (fun hl _ h => ?_) hapart
    rwa [(hin _ hl).1]
  refine (lines_error_iff_visible decode (fun bytes n _ => hdecode bytes n) total offset rest
    literals hbounds hleft).trans ?_
  constructor
  · rintro ⟨l, hl, -, hlim⟩
    have hmem := mem_of_mem_visible hl
    have := hin l hmem
    exact ⟨l, hmem, le_of_mem_visible (fun l hl => (hbounds l hl).1) hl, by omega⟩
  · rintro ⟨l, hl, hle, hlim⟩
    have := hin l hl
    exact ⟨l, mem_visible_of_apart hsizes hl hle, by omega, by omega⟩

end Listing

theorem Decoder.length_le {wide : Bool} {bytes : List UInt8} {n : Nat}
    (h : Decoder.length wide bytes = some n) : n ≤ bytes.length := by
  have htotal : ∀ {total : Nat},
      (if total ≤ (bytes.take Decoder.maxLength).length then some total else none) = some n →
        n ≤ bytes.length := by
    intro total h
    split at h
    · next hle =>
      cases h
      exact Nat.le_trans hle (List.length_take_le' ..)
    · cases h
  simp only [Decoder.length, Option.bind_eq_bind] at h
  obtain ⟨_, -, h⟩ := Option.bind_eq_some_iff.mp h
  split at h <;> obtain ⟨_, -, h⟩ := Option.bind_eq_some_iff.mp h <;> exact htotal h

namespace Assembler

variable {a : Assembler} {decode : Bool → List UInt8 → Option Nat}

theorem listing_error_iff (h : a.Tidy)
    (hdecode : ∀ bytes n, decode a.mode.wide bytes = some n → n ≤ bytes.length)
    {origin : Nat} (ho : origin ≤ a.offset) :
    (∃ f, a.listing origin decode = .error f) ↔
      ∃ l ∈ a.literals, origin ≤ l ∧ offsetLimit ≤ l + 8 := by
  have hlen : a.code.length = a.offset := Array.length_toList
  rw [listing, Listing.ofCode, if_neg (by omega), Int.toNat_natCast]
  refine (Listing.lines_error_iff _ hdecode a.offset _ _ _ ?_ ?_ ?_).trans ?_
  · refine List.pairwise_map.mpr (h.literals_apart.imp fun {l m} hlm => ?_)
    change (l : Int) + 8 ≤ m
    omega
  · intro l hl
    obtain ⟨m, hm, rfl⟩ := List.mem_map.mp hl
    have hin := h.literal_inside hm
    refine ⟨rfl, ?_⟩
    change (m : Int) + 8 ≤ a.offset
    omega
  · rw [List.length_drop, hlen]
    omega
  · simp only [Listing.Overflows, List.mem_map, exists_exists_and_eq_and]
    refine exists_congr fun l => and_congr_right fun _ => ?_
    omega

theorem listing_ok (h : a.Tidy)
    (hdecode : ∀ bytes n, decode a.mode.wide bytes = some n → n ≤ bytes.length)
    (hlimit : a.offset < offsetLimit) {origin : Nat} (ho : origin ≤ a.offset) :
    ∃ ls, a.listing origin decode = .ok ls := by
  cases hl : a.listing origin decode with
  | ok ls => exact ⟨ls, rfl⟩
  | error f =>
    obtain ⟨l, hmem, -, hover⟩ := (listing_error_iff h hdecode ho).mp ⟨f, hl⟩
    have := h.literal_inside hmem
    omega

theorem listing_error {origin : Nat} {f : Fault} (h : a.listing origin decode = .error f) :
    f = .outOfRange := by
  rw [listing, Listing.ofCode, if_neg (by omega)] at h
  exact Listing.lines_error _ _ _ _ h

end Assembler

end HostCode
