import HostCode.Proofs.Listing
import HostCode.Proofs.Listing.Forms

/-! # Listings of any code

Whatever the code is, and whatever literals are said to be in it, a listing shows every byte once
and in order. A literal is shown where it begins, unless it begins inside of another one that is
shown, and no instruction reaches into it. The listing is refused only at a literal that ends
behind the last offset.
-/

namespace HostCode

namespace Listing

/-! ## How a listing is made -/

/-- `ls` are lines of `code` from `offset` on, with `literals` still to come. A literal is skipped
if it begins before the next line, and is shown if it begins there. Other lines end where the next
literal begins, or before. -/
inductive Lists (code : List UInt8) : Nat → List Literal → List Line → Prop
  | done {offset : Nat} {literals : List Literal} (hend : code.length ≤ offset) :
    Lists code offset literals []
  | skip {offset : Nat} {l : Literal} {literals : List Literal} {ls : List Line}
    (past : l.offset < offset) (rest : Lists code offset literals ls) :
    Lists code offset (l :: literals) ls
  | data {offset : Nat} {l : Literal} {literals : List Literal} {ls : List Line}
    (inside : offset < code.length) (here : l.offset = offset)
    (rest : Lists code (offset + l.size.toNat) literals ls) :
    Lists code offset (l :: literals)
      (⟨offset, (code.drop offset).take l.size.toNat, .data⟩ :: ls)
  | other {offset n : Nat} {content : Content} {literals : List Literal} {ls : List Line}
    (pos : 0 < n) (inside : offset + n ≤ code.length) (kind : content ≠ .data)
    (ahead : ∀ l ∈ literals.head?, (offset + n : Nat) ≤ l.offset)
    (rest : Lists code (offset + n) literals ls) :
    Lists code offset literals (⟨offset, (code.drop offset).take n, content⟩ :: ls)

theorem add_ok {l : Line} {rest : Except Fault (List Line)} {ls : List Line}
    (h : add l rest = .ok ls) : ∃ tail, rest = .ok tail ∧ ls = l :: tail := by
  cases rest with
  | error f => cases h
  | ok tail =>
    cases h
    exact ⟨tail, rfl, rfl⟩

variable {code : List UInt8} {offset : Nat} {literals : List Literal} {ls : List Line}

theorem Lists.line {rest : List UInt8} {n : Nat} {content : Content}
    (hrest : rest = code.drop offset) (pos : 0 < n) (hn : n ≤ rest.length)
    (kind : content ≠ .data) (ahead : ∀ l ∈ literals.head?, (offset + n : Nat) ≤ l.offset)
    (next : Lists code (offset + n) literals ls) :
    Lists code offset literals (⟨offset, rest.take n, content⟩ :: ls) := by
  subst hrest
  rw [List.length_drop] at hn
  exact .other pos (by omega) kind ahead next

theorem lists_of_lines {decode : List UInt8 → Option Nat}
    (hdecode : ∀ bytes n, bytes ≠ [] → decode bytes = some n → n ≤ bytes.length)
    (rest : List UInt8) (hrest : rest = code.drop offset)
    (h : lines decode offset rest literals = .ok ls) : Lists code offset literals ls := by
  -- a line of `n + 1` bytes is taken off the front
  have hdrop : ∀ {offset : Nat} {b : UInt8} {bs : List UInt8}, b :: bs = code.drop offset →
      ∀ n, bs.drop n = code.drop (offset + (n + 1)) := by
    intro offset b bs hrest n
    rw [← List.drop_drop, ← hrest, List.drop_succ_cons]
  have hinstruction : Content.instruction ≠ .data := by decide
  have hbad : Content.bad ≠ .data := by decide
  have hnone : ∀ next : Nat, ∀ l ∈ ([] : List Literal).head?, (next : Int) ≤ l.offset := by
    intro next l hl
    cases hl
  fun_induction lines decode offset rest literals generalizing ls with
  | case1 offset literals =>
    cases h
    exact .done (List.drop_eq_nil_iff.mp hrest.symm)
  | case2 offset b bs l literals hlt ih => exact .skip hlt (ih hrest h)
  | case3 => cases h
  | case4 offset b bs l literals hlt hat hgood n =>
    rename_i ih
    obtain ⟨tail, htail, rfl⟩ := add_ok h
    have hlen : (b :: bs).length = code.length - offset := by rw [hrest, List.length_drop]
    have hnext : (b :: bs).drop n = code.drop (offset + n) := by rw [hrest, List.drop_drop]
    have htake : (b :: bs).take n = (code.drop offset).take l.size.toNat := by
      rw [← hrest]
      exact (List.take_eq_take_min ..).symm
    rw [htake]
    refine .data (by rw [List.length_cons] at hlen; omega) hat ?_
    by_cases hcut : l.size.toNat ≤ (b :: bs).length
    · have hn : n = l.size.toNat := Nat.min_eq_left hcut
      exact hn ▸ ih hnext htail
    · -- a literal that is cut off is the last line
      have hempty : (b :: bs).drop n = [] := List.drop_eq_nil_iff.mpr (by omega)
      rw [hempty, lines] at htail
      cases htail
      exact .done (by omega)
  | case5 => cases h
  | case6 offset b bs l literals hlt hat hreach n hd ih =>
    obtain ⟨tail, htail, rfl⟩ := add_ok h
    have hn := hdecode _ _ (by simp; omega) hd
    rw [List.length_take] at hn
    refine .line hrest (Nat.succ_pos n) (by omega) hinstruction ?_ (ih (hdrop hrest n) htail)
    rintro m ⟨⟩
    omega
  | case7 offset b bs l literals hlt hat hreach hd ih =>
    obtain ⟨tail, htail, rfl⟩ := add_ok h
    refine .line hrest Nat.one_pos (by simp) hbad ?_ (ih (hdrop hrest 0) htail)
    rintro m ⟨⟩
    omega
  | case8 offset b bs n hd ih =>
    obtain ⟨tail, htail, rfl⟩ := add_ok h
    have hn := hdecode _ _ (List.cons_ne_nil _ _) hd
    exact .line hrest (Nat.succ_pos n) hn hinstruction (hnone _) (ih (hdrop hrest n) htail)
  | case9 offset b bs hd ih =>
    obtain ⟨tail, htail, rfl⟩ := add_ok h
    exact .line hrest Nat.one_pos (by simp) hbad (hnone _) (ih (hdrop hrest 0) htail)

/-! ## What a listing shows -/

namespace Lists

/-- Every byte is shown once, and in order. -/
theorem shown_eq (h : Lists code offset literals ls) : shown ls = code.drop offset := by
  induction h with
  | done hend => exact (List.drop_eq_nil_of_le hend).symm
  | skip _ _ ih => exact ih
  | data _ _ _ ih => rw [shown_cons, ih, ← List.drop_drop, List.take_append_drop]
  | other _ _ _ _ _ ih => rw [shown_cons, ih, ← List.drop_drop, List.take_append_drop]

theorem le_offset (h : Lists code offset literals ls) : ∀ l ∈ ls, offset ≤ l.offset := by
  induction h with
  | done _ => exact nofun
  | skip _ _ ih => exact ih
  | data _ _ _ ih =>
    refine List.forall_mem_cons.mpr ⟨Nat.le_refl _, fun l hl => ?_⟩
    exact Nat.le_trans (Nat.le_add_right ..) (ih l hl)
  | other _ _ _ _ _ ih =>
    refine List.forall_mem_cons.mpr ⟨Nat.le_refl _, fun l hl => ?_⟩
    exact Nat.le_trans (Nat.le_add_right ..) (ih l hl)

theorem offset_lt (h : Lists code offset literals ls) : ∀ l ∈ ls, l.offset < code.length := by
  induction h with
  | done _ => exact nofun
  | skip _ _ ih => exact ih
  | data inside _ _ ih => exact List.forall_mem_cons.mpr ⟨inside, ih⟩
  | other pos inside _ _ _ ih =>
    refine List.forall_mem_cons.mpr ⟨?_, ih⟩
    exact Nat.lt_of_lt_of_le (Nat.lt_add_of_pos_right pos) inside

theorem offset_eq (h : Lists code offset literals ls) {before after : List Line} {l : Line}
    (hls : ls = before ++ l :: after) : l.offset = offset + (shown before).length := by
  induction h generalizing before with
  | done _ => exact absurd hls (by simp)
  | skip _ _ ih => exact ih hls
  | @data offset d literals ls inside here rest ih =>
    cases before with
    | nil =>
      cases hls
      rfl
    | cons m before =>
      obtain ⟨rfl, rfl⟩ := List.cons.inj hls
      have hmem : l ∈ before ++ l :: after := List.mem_append_right _ List.mem_cons_self
      -- the literal is not cut off, since there is a line behind it
      have hle := rest.le_offset l hmem
      have hlt := rest.offset_lt l hmem
      rw [ih rfl, shown_cons, List.length_append, List.length_take, List.length_drop]
      omega
  | @other offset n content literals ls pos inside kind ahead rest ih =>
    cases before with
    | nil =>
      cases hls
      rfl
    | cons m before =>
      obtain ⟨rfl, rfl⟩ := List.cons.inj hls
      rw [ih rfl, shown_cons, List.length_append, List.length_take, List.length_drop]
      omega

/-- Lines other than those of literals end where the next literal begins, or before. -/
theorem not_inside (h : Lists code offset literals ls)
    (hasc : literals.Pairwise fun l m => l.offset < m.offset) :
    ∀ line ∈ ls, line.content ≠ .data → ∀ l ∈ literals,
      ¬ (line.offset < l.offset ∧ l.offset < line.offset + line.bytes.length) := by
  induction h with
  | done _ => exact nofun
  | skip past rest ih =>
    obtain ⟨-, hasc⟩ := List.pairwise_cons.mp hasc
    intro line hline hkind l hl
    rcases List.mem_cons.mp hl with rfl | hl
    · have := rest.le_offset line hline
      omega
    · exact ih hasc line hline hkind l hl
  | data inside here rest ih =>
    obtain ⟨-, hasc⟩ := List.pairwise_cons.mp hasc
    intro line hline hkind l hl
    rcases List.mem_cons.mp hline with rfl | hlater
    · exact absurd rfl hkind
    · rcases List.mem_cons.mp hl with rfl | hl
      · have := rest.le_offset line hlater
        omega
      · exact ih hasc line hlater hkind l hl
  | @other offset n content literals ls pos inside kind ahead rest ih =>
    intro line hline hkind l hl
    rcases List.mem_cons.mp hline with rfl | hline
    · -- the first literal is the next one
      have hfirst : (offset + n : Nat) ≤ l.offset := by
        cases literals with
        | nil => cases hl
        | cons m literals =>
          have hm := ahead m rfl
          rcases List.mem_cons.mp hl with rfl | hl
          · exact hm
          · have := (List.pairwise_cons.mp hasc).1 l hl
            omega
      simp only [List.length_take, List.length_drop]
      omega
    · exact ih hasc line hline hkind l hl

end Lists

def literalLine (code : List UInt8) (l : Literal) : Line :=
  ⟨l.offset.toNat, (code.drop l.offset.toNat).take l.size.toNat, .data⟩

/-- The literals that are shown are those that are visible and begin inside of the code. -/
theorem Lists.data_eq (h : Lists code offset literals ls) (hsize : ∀ l ∈ literals, 0 ≤ l.size) :
    ls.filter (·.content = .data) =
      ((visible offset literals).filter (·.offset < (code.length : Int))).map
        (literalLine code) := by
  induction h with
  | @done offset literals hend =>
    rw [List.filter_nil, List.filter_eq_nil_iff.mpr, List.map_nil]
    intro l hl hlt
    have := le_of_mem_visible hsize hl
    have := of_decide_eq_true hlt
    omega
  | skip past rest ih =>
    rw [visible, if_pos past]
    exact ih (List.forall_mem_cons.mp hsize).2
  | @data offset l literals ls inside here rest ih =>
    obtain ⟨hl, hrest⟩ := List.forall_mem_cons.mp hsize
    have hnext : ((offset + l.size.toNat : Nat) : Int) = l.offset + l.size := by omega
    have hline : literalLine code l = ⟨offset, (code.drop offset).take l.size.toNat, .data⟩ := by
      simp only [literalLine, here, Int.toNat_natCast]
    rw [visible_cons_of_le (by omega), List.filter_cons_of_pos (by simp),
      List.filter_cons_of_pos (by simp; omega), List.map_cons, ih hrest, hnext, hline]
  | @other offset n content literals ls pos inside kind ahead rest ih =>
    have hsame : visible (offset + n : Nat) literals = visible offset literals := by
      cases literals with
      | nil => rfl
      | cons l literals =>
        have := ahead l rfl
        rw [visible_cons_of_le this, visible_cons_of_le (by omega)]
    rw [List.filter_cons_of_neg (by simpa using kind), ih hsize, hsame]

theorem mem_visible {offset : Int} {l : Literal} {ls : List Literal}
    (hasc : ls.Pairwise fun l m => l.offset < m.offset) (hl : l ∈ ls) (hle : offset ≤ l.offset)
    (hfree : ∀ m ∈ visible offset ls, m.offset < l.offset → m.offset + m.size ≤ l.offset) :
    l ∈ visible offset ls := by
  induction ls generalizing offset with
  | nil => cases hl
  | cons m ls ih =>
    obtain ⟨hm, hls⟩ := List.pairwise_cons.mp hasc
    rw [visible] at hfree ⊢
    split at hfree
    · next hlt =>
      rw [if_pos hlt]
      rcases List.mem_cons.mp hl with rfl | hl
      · omega
      · exact ih hls hl hle hfree
    · next hlt =>
      rw [if_neg hlt]
      rcases List.mem_cons.mp hl with rfl | hl
      · exact List.mem_cons_self
      · obtain ⟨hfirst, hrest⟩ := List.forall_mem_cons.mp hfree
        exact List.mem_cons_of_mem _ (ih hls hl (hfirst (hm l hl)) hrest)

/-! ## Partitions -/

/-- The lines show all of the code from `origin` on, and the literals where they begin. -/
structure Partition (code : List UInt8) (origin : Nat) (literals : List Literal)
    (ls : List Line) : Prop where
  bytes : shown ls = code.drop origin
  offset : ∀ before line after, ls = before ++ line :: after →
    line.offset = origin + (shown before).length
  /-- These are all of the literals that are shown, in order. -/
  data : ls.filter (·.content = .data) =
    ((visible origin literals).filter (·.offset < (code.length : Int))).map (literalLine code)
  /-- A literal is shown unless it begins inside of one that is. -/
  literal : ∀ l ∈ literals, origin ≤ l.offset → l.offset < code.length →
    (∀ d ∈ ls, d.content = .data →
      ¬ (d.offset < l.offset ∧ l.offset < d.offset + d.bytes.length)) →
    literalLine code l ∈ ls
  apart : ∀ line ∈ ls, line.content ≠ .data → ∀ l ∈ literals,
    ¬ (line.offset < l.offset ∧ l.offset < line.offset + line.bytes.length)

theorem Lists.partition (h : Lists code offset literals ls)
    (hasc : literals.Pairwise fun l m => l.offset < m.offset)
    (hsize : ∀ l ∈ literals, 0 ≤ l.size) : Partition code offset literals ls where
  bytes := h.shown_eq
  offset _ _ _ hls := h.offset_eq hls
  data := h.data_eq hsize
  literal := by
    have hshown : ∀ m ∈ visible offset literals, m.offset < code.length →
        literalLine code m ∈ ls := by
      intro m hm hlt
      have hmem : literalLine code m ∈ ls.filter (·.content = .data) := by
        rw [h.data_eq hsize]
        exact List.mem_map_of_mem (List.mem_filter.mpr ⟨hm, decide_eq_true hlt⟩)
      exact List.mem_of_mem_filter hmem
    intro l hl hle hlt hfree
    refine hshown l (mem_visible hasc hl hle fun m hm hbefore => ?_) hlt
    -- one that is shown before it is not cut off, and ends before it begins
    have hm0 := le_of_mem_visible hsize hm
    have hout := hfree _ (hshown m hm (by omega)) rfl
    simp only [literalLine, List.length_take, List.length_drop] at hout
    omega
  apart := h.not_inside hasc

/-- A literal that is come to ends behind the last offset. -/
def Exceeds (code : List UInt8) (origin : Nat) (literals : List Literal) : Prop :=
  ∃ l ∈ visible origin literals, l.offset < code.length ∧ offsetLimit ≤ l.offset + l.size

instance (code : List UInt8) (origin : Nat) (literals : List Literal) :
    Decidable (Exceeds code origin literals) :=
  inferInstanceAs (Decidable (∃ l ∈ visible origin literals,
    l.offset < code.length ∧ offsetLimit ≤ l.offset + l.size))

/-- A listing is a partition of the code, whatever decodes the instructions. It is refused if a
literal that it comes to ends behind the last offset, although that literal could be cut off at
the end of the code like any other. -/
theorem lines_partition (decode : List UInt8 → Option Nat)
    (hdecode : ∀ bytes n, bytes ≠ [] → decode bytes = some n → n ≤ bytes.length)
    (code : List UInt8) (origin : Nat) (horigin : origin ≤ code.length) (literals : List Literal)
    (hasc : literals.Pairwise fun l m => l.offset < m.offset)
    (hin : ∀ l ∈ literals, 0 ≤ l.size ∧ l.offset ≤ code.length) :
    (¬ Exceeds code origin literals → ∃ ls,
      lines decode origin (code.drop origin) literals = .ok ls ∧
        Partition code origin literals ls) ∧
    (Exceeds code origin literals →
      lines decode origin (code.drop origin) literals = .error .outOfRange) := by
  have hleft : origin + (code.drop origin).length = code.length := by
    rw [List.length_drop]
    omega
  have hiff := lines_error_iff_visible decode hdecode code.length origin _ literals hin hleft
  constructor
  · intro hfits
    cases hls : lines decode origin (code.drop origin) literals with
    | error f => exact absurd (hiff.mp ⟨f, hls⟩) hfits
    | ok ls =>
      have hlists := lists_of_lines hdecode _ rfl hls
      exact ⟨ls, rfl, hlists.partition hasc fun l hl => (hin l hl).1⟩
  · intro hexceeds
    obtain ⟨f, hf⟩ := hiff.mpr hexceeds
    rw [hf, lines_error decode _ _ _ hf]

/-- One literal begins before the listing, one inside of another, one is empty, and the last is
cut off. -/
theorem lines_partition_overlapping : ∃ ls,
    lines (Decoder.length true) 1 [0x90, 0x90, 0xb8, 0x90, 0x90, 0xc3, 0x90]
        [⟨0, 4⟩, ⟨3, 2⟩, ⟨4, 3⟩, ⟨5, 0⟩, ⟨7, 100⟩] = .ok ls ∧
      Partition [0x90, 0x90, 0x90, 0xb8, 0x90, 0x90, 0xc3, 0x90] 1
        [⟨0, 4⟩, ⟨3, 2⟩, ⟨4, 3⟩, ⟨5, 0⟩, ⟨7, 100⟩] ls :=
  (lines_partition (Decoder.length true) (fun _ _ _ => Decoder.length_le)
    [0x90, 0x90, 0x90, 0xb8, 0x90, 0x90, 0xc3, 0x90] 1 (by decide)
    [⟨0, 4⟩, ⟨3, 2⟩, ⟨4, 3⟩, ⟨5, 0⟩, ⟨7, 100⟩] (by decide) (by decide)).1 (by decide)

/-- A literal at the last byte of the code is not cut off if it is long enough. -/
theorem longest_literal_refused :
    ofCode true [0x90, 0x90] 0 [⟨1, 0x7fffffffffffffff⟩] = .error .outOfRange := by
  have hfirst : Decoder.length true [0x90] = some 1 := by decide
  simp [ofCode, lines, add, Except.map, offsetLimit, hfirst]

end Listing

end HostCode
