import HostCode.Proofs.Session.Invariant

/-! # The tables of a session

The relocation table, the embedded addresses, the blocks and the length of the code are kept
apart from each other, and agree after every call all the same. So no call ever finds a site
or an offset out of place.
-/

namespace HostCode

/-- The sites, embedded addresses and blocks of a session agree with each other and with its
code. -/
structure Session.WellFormed (s : Session) : Prop where
  apart : s.asm.segment.table.fields.Pairwise Field.Apart
  inside : ∀ f ∈ s.asm.segment.table.fields, f.stop ≤ s.asm.offset
  distinct : (s.asm.segment.table.fields.map Field.start).Nodup
  ascending : s.pending.Pairwise fun p q => p.site < q.site
  kinds : ∀ kind, kind ∈ s.pending.map (·.kind) ++ s.asm.segment.table.patched.map (·.kind) →
    (kind = .abs64 ↔ s.asm.mode.wide = true)
  literals : s.asm.literals.Pairwise (· < ·) ∧ ∀ l, l ∈ s.asm.literals ↔
    (∃ p ∈ s.pending, p.kind = .abs64 ∧ p.site = l) ∨
      ∃ q ∈ s.asm.segment.table.patched, q.kind = .abs64 ∧ q.site = l
  blocks : ∀ b ∈ s.blocks, b.2 ≤ s.asm.offset

namespace AddressingMode

theorem siteKind_eq_abs64 (m : AddressingMode) : m.siteKind = .abs64 ↔ m.wide = true := by
  unfold siteKind
  cases m.wide <;> decide

end AddressingMode

namespace Session

variable {s : Session}

theorem Settled.distinct (h : s.Settled) : (s.asm.segment.table.fields.map Field.start).Nodup := by
  refine List.pairwise_map.mpr (h.tidy.segment.apart.imp_of_mem ?_)
  intro f g hf hg hap he
  -- no site is empty, so two that start at one offset overlap
  have hpos := RelocationTable.size_pos hf
  have hpos' := RelocationTable.size_pos hg
  rcases hap with hap | hap
  · unfold Field.stop at hap
    omega
  · unfold Field.stop at hap
    omega

theorem Settled.kinds (h : s.Settled) (kind : SiteKind)
    (hk : kind ∈ s.pending.map (·.kind) ++ s.asm.segment.table.patched.map (·.kind)) :
    kind = .abs64 ↔ s.asm.mode.wide = true := by
  rw [← AddressingMode.siteKind_eq_abs64]
  rcases List.mem_append.mp hk with hk | hk
  · obtain ⟨p, hp, rfl⟩ := List.mem_map.mp hk
    rw [h.tidy.pendingKind p hp]
  · obtain ⟨q, hq, rfl⟩ := List.mem_map.mp hk
    rw [h.tidy.patchedKind q hq]

theorem Settled.mem_literals (h : s.Settled) (l : Nat) :
    l ∈ s.asm.literals ↔ (∃ p ∈ s.pending, p.kind = .abs64 ∧ p.site = l) ∨
      ∃ q ∈ s.asm.segment.table.patched, q.kind = .abs64 ∧ q.site = l := by
  rw [h.tidy.literals]
  constructor
  · rintro ⟨hw, f, hf, rfl⟩
    have hkind := s.asm.mode.siteKind_eq_abs64.mpr hw
    rcases List.mem_append.mp hf with hf | hf
    · obtain ⟨p, hp, rfl⟩ := List.mem_map.mp hf
      exact .inl ⟨p, hp, (h.tidy.pendingKind p hp).trans hkind, rfl⟩
    · obtain ⟨q, hq, rfl⟩ := List.mem_map.mp hf
      exact .inr ⟨q, hq, (h.tidy.patchedKind q hq).trans hkind, rfl⟩
  · rintro (⟨p, hp, hk, rfl⟩ | ⟨q, hq, hk, rfl⟩)
    · refine ⟨?_, p.field, List.mem_append_left _ (List.mem_map_of_mem hp), rfl⟩
      rwa [← AddressingMode.siteKind_eq_abs64, ← h.tidy.pendingKind p hp]
    · refine ⟨?_, q.field, List.mem_append_right _ (List.mem_map_of_mem hq), rfl⟩
      rwa [← AddressingMode.siteKind_eq_abs64, ← h.tidy.patchedKind q hq]

end Session

/-- After any run, and whether or not a jump has gone out of range, the tables are well-formed.
The next call does not break a rule for sites, unless the emission of a block panics as if it
had. -/
theorem Reached.wellFormed {history : List Action} {s : Session} (h : Reached history s) :
    s.WellFormed ∧ ∀ (act : Action) r f, (act.apply ⟨s, r⟩).1 = .panicked f → f.blamesSites = true →
      ∃ guest e, act = .block guest e ∧ (e.run (s.asm, [])).1 = .panicked f := by
  have hs := h.sound
  have ho := hs.settled.tidy.segment
  refine ⟨⟨ho.apart, ho.inside, hs.settled.distinct, ho.ascending, hs.settled.kinds,
    ⟨hs.settled.tidy.ascending, hs.settled.mem_literals⟩, hs.settled.blocks⟩, ?_⟩
  intro act r f hf hb
  exact (hs.step act r).2 f hf hb

/-- A session in which a jump waits, and the emission of a block has panicked. -/
theorem wellFormed_after_panic :
    ∃ s, Config.twoPlaces.session [.block 3 (.panic .outOfRange), .block 1 (.goto 2)] = some s ∧
      s.pending ≠ [] ∧ s.WellFormed ∧
      ∀ (act : Action) r f, (act.apply ⟨s, r⟩).1 = .panicked f → f.blamesSites = true →
        ∃ guest e, act = .block guest e ∧ (e.run (s.asm, [])).1 = .panicked f := by
  have hfacts : (Config.twoPlaces.session
      [.block 3 (.panic .outOfRange), .block 1 (.goto 2)]).any (·.pending ≠ []) = true := by
    decide +kernel
  obtain ⟨s, hs, hp⟩ := (Option.any_eq_true ..).mp hfacts
  exact ⟨s, hs, of_decide_eq_true hp, (Config.reached Config.twoPlaces_unused hs).wellFormed⟩

end HostCode
