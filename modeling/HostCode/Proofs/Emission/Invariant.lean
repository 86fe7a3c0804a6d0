import HostCode.Proofs.Emission.Effect

/-! # What an emission leaves alone

While a block is written, the code and the sites from before it stay as they are, but for the
sites that moves of the buffer write again. All that is new lies behind them. This holds after
every call, and so after a whole emission, however it ends.
-/

namespace HostCode

open CodeBuffer

namespace Assembler

theorem mem_insertLiteral {l offset : Nat} {ls : List Nat} :
    l ∈ insertLiteral offset ls ↔ l = offset ∨ l ∈ ls := by
  induction ls with
  | nil => simp [insertLiteral]
  | cons m ls ih =>
    simp only [insertLiteral]
    split
    · simp
    · split
      · next he => simp [he]
      · simp only [List.mem_cons, ih]
        exact or_left_comm

theorem pairwise_insertLiteral (offset : Nat) {ls : List Nat} (h : ls.Pairwise (· < ·)) :
    (insertLiteral offset ls).Pairwise (· < ·) := by
  induction ls with
  | nil => exact List.pairwise_singleton ..
  | cons m ls ih =>
    obtain ⟨hm, hls⟩ := List.pairwise_cons.mp h
    simp only [insertLiteral]
    split
    · next hlt =>
      refine List.pairwise_cons.mpr ⟨List.forall_mem_cons.mpr ⟨hlt, fun l hl => ?_⟩, h⟩
      exact Nat.lt_trans hlt (hm l hl)
    · split
      · exact h
      · refine List.pairwise_cons.mpr ⟨fun l hl => ?_, ih hls⟩
        rcases mem_insertLiteral.mp hl with rfl | hl
        · omega
        · exact hm l hl

theorem filter_insertLiteral {n offset : Nat} (h : n ≤ offset) (ls : List Nat) :
    (insertLiteral offset ls).filter (· < n) = ls.filter (· < n) := by
  induction ls with
  | nil => simp [insertLiteral, h]
  | cons m ls ih =>
    simp only [insertLiteral]
    split
    · rw [List.filter_cons_of_neg (by simpa using h)]
    · split
      · rfl
      · simp only [List.filter_cons, ih]

variable {start a a' : Assembler} {labels : List Jump} {chunk : List UInt8} {j : Jump}

/-- `a` has written a block since `start`, with the given forward jumps in it. -/
structure Emitting (start : Assembler) (labels : List Jump) (a : Assembler) : Prop where
  tidy : a.Tidy
  mode : a.mode = start.mode
  grown : start.offset ≤ a.offset
  patched : a.segment.table.patched = start.segment.table.patched
  pending : ∃ new, a.segment.table.pending = start.segment.table.pending ++ new ∧
    ∀ p ∈ new, start.offset ≤ p.site
  literals : a.literals.filter (· < start.offset) = start.literals
  old : ∀ i < start.offset, (∀ f ∈ dependents start.segment.table.patched, ¬ f.Covers i) →
    a.segment.buffer.bytes[i]? = start.segment.buffer.bytes[i]?
  labels : ∀ j ∈ labels, start.offset ≤ j.site ∧ j.field.stop ≤ a.offset ∧
    ∀ f ∈ a.segment.table.fields, j.field.Apart f

theorem recorded_fields_perm (a : Assembler) (target : GuestAddress) :
    (a.recorded target).segment.table.fields.Perm
      (⟨a.offset - a.mode.siteKind.size, a.mode.siteKind.size⟩ :: a.segment.table.fields) := by
  simp only [RelocationTable.fields, recorded, List.map_append, List.map_cons, List.map_nil,
    List.append_assoc, List.singleton_append]
  exact List.perm_middle

theorem Tidy.recorded (h : a.Tidy) (target : GuestAddress)
    (hlen : a.mode.siteKind.size ≤ a.offset)
    (hblank : a.segment.buffer.Blank
      ⟨a.offset - a.mode.siteKind.size, a.mode.siteKind.size⟩)
    (hbefore : ∀ f ∈ a.segment.table.fields, f.stop ≤ a.offset - a.mode.siteKind.size) :
    (a.recorded target).Tidy := by
  have hperm := recorded_fields_perm a target
  refine ⟨⟨⟨?_, ?_⟩, h.segment.sane, ?_, ?_⟩, ?_, h.patchedKind, ?_, ?_⟩
  · refine (hperm.pairwise_iff Field.Apart.symm).mpr (List.pairwise_cons.mpr ⟨?_, h.segment.apart⟩)
    exact fun f hf => .inr (hbefore f hf)
  · intro f hf
    rcases List.mem_cons.mp (hperm.mem_iff.mp hf) with rfl | hf
    · exact Nat.le_of_eq (Nat.sub_add_cancel hlen)
    · exact h.segment.inside f hf
  · refine List.pairwise_append.mpr ⟨h.segment.ascending, List.pairwise_singleton .., ?_⟩
    intro p hp q hq
    obtain rfl := List.mem_singleton.mp hq
    have hstop := hbefore _ (List.mem_append_left _ (List.mem_map_of_mem hp))
    exact Nat.lt_of_lt_of_le (Nat.lt_add_of_pos_right p.kind.size_pos) hstop
  · intro p hp
    rcases List.mem_append.mp hp with hp | hp
    · exact h.segment.blank p hp
    · obtain rfl := List.mem_singleton.mp hp
      exact hblank
  · intro p hp
    rcases List.mem_append.mp hp with hp | hp
    · exact h.pendingKind p hp
    · obtain rfl := List.mem_singleton.mp hp
      rfl
  · simp only [Assembler.recorded]
    split
    · exact pairwise_insertLiteral _ h.ascending
    · exact h.ascending
  · intro l
    have hm : l ∈ a.literals ↔ a.mode.wide = true ∧ ∃ f ∈ a.segment.table.fields, f.start = l :=
      h.literals l
    have hex : (∃ f ∈ (a.recorded target).segment.table.fields, f.start = l) ↔
        l = a.offset - a.mode.siteKind.size ∨ ∃ f ∈ a.segment.table.fields, f.start = l := by
      simp only [hperm.mem_iff, List.mem_cons, exists_eq_or_imp, eq_comm]
    have hmode : (a.recorded target).mode = a.mode := rfl
    rw [hex, hmode]
    simp only [Assembler.recorded]
    cases hw : a.mode.wide with
    | true =>
      rw [hw] at hm
      simp only [if_true, mem_insertLiteral, hm, true_and]
    | false =>
      rw [hw] at hm
      simp only [Bool.false_eq_true, if_false, false_and, hm]

namespace Emitting

theorem refl (h : start.Tidy) : Emitting start [] start where
  tidy := h
  mode := rfl
  grown := Nat.le_refl _
  patched := rfl
  pending := ⟨[], (List.append_nil _).symm, nofun⟩
  literals := List.filter_eq_self.mpr fun l hl =>
    decide_eq_true (Nat.lt_of_lt_of_le (Nat.lt_add_of_pos_right (by decide)) (h.literal_inside hl))
  old _ _ _ := rfl
  labels := nofun

theorem wrote (h : Emitting start labels a) (hw : Wrote chunk a a') :
    Emitting start labels a' where
  tidy := hw.tidy h.tidy
  mode := hw.mode.trans h.mode
  grown := by rw [hw.offset]; exact Nat.le_trans h.grown (Nat.le_add_right ..)
  patched := by rw [hw.table]; exact h.patched
  pending := by rw [hw.table]; exact h.pending
  literals := by rw [hw.literals]; exact h.literals
  old i hi hd := by
    rw [hw.segment.old i (Nat.lt_of_lt_of_le hi h.grown) (by rw [h.patched]; exact hd)]
    exact h.old i hi hd
  labels j hj := by
    obtain ⟨hs, ht, hap⟩ := h.labels j hj
    rw [hw.table, hw.offset]
    exact ⟨hs, Nat.le_trans ht (Nat.le_add_right ..), hap⟩

theorem label_behind (h : Emitting start labels a) (hw : Wrote chunk a a') (hs : a.offset ≤ j.site)
    (ht : j.field.stop = a'.offset) :
    start.offset ≤ j.site ∧ j.field.stop ≤ a'.offset ∧
      ∀ f ∈ a'.segment.table.fields, j.field.Apart f := by
  refine ⟨Nat.le_trans h.grown hs, Nat.le_of_eq ht, fun f hf => .inr ?_⟩
  rw [hw.table] at hf
  exact Nat.le_trans (h.tidy.segment.inside f hf) hs

theorem filled (h : Emitting start labels a) (hj : j ∈ labels) {b : CodeBuffer}
    (hr : Rewrites [j.field] a.segment.buffer b) :
    Emitting start labels { a with segment := { a.segment with buffer := b } } ∧
      (a.Linked → Linked { a with segment := { a.segment with buffer := b } }) := by
  obtain ⟨hs, -, hap⟩ := h.labels j hj
  have hapart : ∀ f ∈ a.segment.table.fields, ∀ g ∈ [j.field], f.Apart g := by
    intro f hf g hg
    obtain rfl : g = j.field := List.mem_singleton.mp hg
    exact (hap f hf).symm
  have ho := h.tidy.segment
  have hlen : ({ a.segment with buffer := b } : Segment).length = a.segment.length := hr.length
  refine ⟨{ h with
    tidy := { h.tidy with segment := ?_ }, grown := ?_, old := ?_, labels := ?_ }, ?_⟩
  · refine { ho with sane := hr.sane ho.sane, inside := ?_, blank := ?_ }
    · exact fun f hf => hlen ▸ ho.inside f hf
    · intro p hp
      exact hr.blank (ho.blank p hp) (hapart _ (List.mem_append_left _ (List.mem_map_of_mem hp)))
  · exact Nat.le_trans h.grown (Nat.le_of_eq hlen.symm)
  · intro i hi hd
    refine (hr.outside i ?_).trans (h.old i hi hd)
    rintro f hf ⟨hle, -⟩
    obtain rfl : f = j.field := List.mem_singleton.mp hf
    exact absurd (Nat.le_trans hs hle) (Nat.not_le_of_lt hi)
  · intro i hi
    obtain ⟨his, hit, hiap⟩ := h.labels i hi
    exact ⟨his, Nat.le_trans hit (Nat.le_of_eq hlen.symm), hiap⟩
  · intro hl q hq
    exact hr.holds (hl q hq) (hapart _ (List.mem_append_right _ (List.mem_map_of_mem hq)))

theorem recorded (h : Emitting start labels a) {b : Branch} (hr : Recorded b a a') :
    Emitting start labels a' ∧ (a.Linked → a'.Linked) := by
  obtain ⟨a₁, hw, hl, rfl⟩ := hr
  have h₁ := h.wrote hw
  obtain ⟨hlen, hblank⟩ := hw.blank
  have hoff := hw.offset
  rw [List.length_append, List.length_replicate] at hoff
  rw [← hw.mode] at hlen hblank hoff
  have hsite : a.offset ≤ a₁.offset - a₁.mode.siteKind.size := by omega
  -- the sites from before end where the jump begins, and its placeholder comes after them
  have hbefore : ∀ f ∈ a₁.segment.table.fields, f.stop ≤ a₁.offset - a₁.mode.siteKind.size := by
    intro f hf
    rw [hw.table] at hf
    exact Nat.le_trans (h.tidy.segment.inside f hf) hsite
  refine ⟨{ h₁ with
    tidy := h₁.tidy.recorded b.target hlen hblank hbefore
    pending := ?_, literals := ?_, labels := ?_ }, hl⟩
  · obtain ⟨new, hp, hnew⟩ := h₁.pending
    refine ⟨new ++ [⟨a₁.offset - a₁.mode.siteKind.size, b.target, a₁.mode.siteKind⟩], ?_, ?_⟩
    · rw [← List.append_assoc, ← hp]
      rfl
    · intro p hp
      rcases List.mem_append.mp hp with hp | hp
      · exact hnew p hp
      · obtain rfl := List.mem_singleton.mp hp
        exact Nat.le_trans h.grown hsite
  · refine Eq.trans ?_ h₁.literals
    simp only [Assembler.recorded]
    split
    · exact filter_insertLiteral (Nat.le_trans h.grown hsite) _
    · rfl
  · intro j hj
    obtain ⟨hs, ht, hap⟩ := h.labels j hj
    have hgrown : a.offset ≤ a₁.offset := by omega
    refine ⟨hs, Nat.le_trans ht hgrown, fun f hf => ?_⟩
    rcases List.mem_cons.mp ((recorded_fields_perm a₁ b.target).mem_iff.mp hf) with rfl | hf
    · exact .inl (Nat.le_trans ht hsite)
    · rw [hw.table] at hf
      exact hap f hf

/-- Every effect keeps what was there before the block. -/
theorem applied {w w' : Writing} (h : Emitting start w.2 w.1) {eff : Effect}
    (hf : eff.Fits w.1.offset w.2) (happ : eff.Applied w w') :
    Emitting start w'.2 w'.1 ∧ (w.1.Linked → w'.1.Linked) := by
  cases happ with
  | write hw hl =>
    refine ⟨{ h.wrote hw with labels := fun j hj => ?_ }, hl⟩
    rcases List.mem_append.mp hj with hj | hj
    · exact (h.wrote hw).labels j hj
    · obtain ⟨hs, ht⟩ := hf j hj
      exact h.label_behind hw hs (ht.trans hw.offset.symm)
  | fill hr _ => exact h.filled hf hr
  | branch hr => exact h.recorded hr

end Emitting

end Assembler

open Assembler

/-- What a block that breaks off leaves, and what it does not complain about. -/
structure Abandoned (start : Assembler) (f : Fault) (w w' : Writing) : Prop where
  emitting : Emitting start w'.2 w'.1
  blame : f.blamesSites = false
  linked : (∃ e, f = .jumpRange e) ∨ (w.1.Linked → w'.1.Linked)

variable {start : Assembler} {w : Writing}

theorem Call.run_does_of_emitting (h : Emitting start w.2 w.1) (c : Call) :
    Does c.run w (c.effect w.1.mode w.1.offset w.2) :=
  c.run_does h.tidy fun j hj => (h.labels j hj).2.1

/-- One call keeps what was there before the block, whether it returns or breaks off. -/
theorem Call.run_ensures (h : Emitting start w.2 w.1) (c : Call) :
    Ensures c.run w (fun _ w' => Emitting start w'.2 w'.1 ∧ (w.1.Linked → w'.1.Linked))
      (fun f w' => Abandoned start f w w') := by
  rcases (c.run_does_of_emitting h).cases with
    ⟨eff, w', he, hx, happ⟩ | ⟨m, he, hx⟩ | ⟨f, a, hx, hb⟩ <;> simp only [Ensures, hx]
  · exact h.applied (effect_fits he) happ
  · exact ⟨h, effect_error he, .inr id⟩
  · obtain ⟨chunk, hw⟩ := hb.wrote
    exact ⟨h.wrote hw, hb.blame, hb.linked⟩

/-- A whole emission keeps what was there before the block, whatever it makes of its calls and
however it ends. The rules for sites are broken by the emission itself or not at all. -/
theorem Emission.run_emitting (e : Emission) (h : Emitting start w.2 w.1) :
    Emitting start (e.run w).2.2 (e.run w).2.1 ∧
      ((∃ j, (e.run w).1 = .broken (.jumpRange j)) ∨ (w.1.Linked → (e.run w).2.1.Linked)) ∧
      ∀ f, (e.run w).1 = .broken f → f.blamesSites = false := by
  induction e generalizing w with
  | done r => exact ⟨h, .inr id, nofun⟩
  | panic f => exact ⟨h, .inr id, nofun⟩
  | look next ih => exact ih w.1 h
  | call c next ih =>
    have hc := c.run_ensures h
    unfold Ensures at hc
    rw [run]
    cases hr : c.run w <;> simp only [hr] at hc ⊢
    · obtain ⟨hem, hrun, hblame⟩ := ih _ hc.1
      exact ⟨hem, hrun.imp_right fun hl => hl ∘ hc.2, hblame⟩
    · refine ⟨hc.emitting, hc.linked.imp_left ?_, ?_⟩
      · rintro ⟨j, rfl⟩
        exact ⟨j, rfl⟩
      · rintro f ⟨⟩
        exact hc.blame

end HostCode
