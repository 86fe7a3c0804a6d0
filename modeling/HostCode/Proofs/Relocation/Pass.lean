import HostCode.Relocation
import HostCode.Proofs.Buffer.Growth

/-! # Passes over the jump sites

What each of the three passes over a list of sites does to the list and to the buffer. Sites
lie apart, so what one step of a pass writes stays as it is in the later ones.
-/

namespace HostCode

open CodeBuffer

def Pending.field (p : Pending) : Field := ⟨p.site, p.kind.size⟩

def Patched.field (s : Patched) : Field := ⟨s.site, s.kind.size⟩

@[simp] theorem Pending.field_leadingTo (p : Pending) (dest : Destination) :
    (p.leadingTo dest).field = p.field := rfl

theorem SiteKind.size_pos (k : SiteKind) : 0 < k.size := by cases k <;> decide

namespace CodeBuffer

/-- The site holds what leads to its destination from where the buffer is. -/
def Holds (b : CodeBuffer) (s : Patched) : Prop := s.content b.address = .ok (b.field s.field)

def Blank (b : CodeBuffer) (f : Field) : Prop := b.field f = List.replicate f.size 0

variable {b b' : CodeBuffer} {fs : List Field} {s : Patched} {f : Field}

theorem Rewrites.holds (h : Rewrites fs b b') (hs : b.Holds s) (hf : ∀ g ∈ fs, s.field.Apart g) :
    b'.Holds s := by
  rw [Holds, h.address, h.field_eq hf]
  exact hs

theorem Holds.field_eq (h : b.Holds s) (h' : b'.Holds s) (ha : b.address = b'.address) :
    b.field s.field = b'.field s.field := by
  rw [Holds, ha] at h
  exact Except.ok.inj (h.symm.trans h')

theorem Rewrites.blank (h : Rewrites fs b b') (hb : b.Blank f) (hf : ∀ g ∈ fs, f.Apart g) :
    b'.Blank f := by
  rw [Blank, h.field_eq hf]
  exact hb

end CodeBuffer

theorem Patched.length_content {s : Patched} {base : HostAddress} {chunk : List UInt8}
    (h : s.content base = .ok chunk) : chunk.length = s.kind.size := by
  obtain ⟨site, kind, target, dest⟩ := s
  cases kind <;> cases dest <;> simp only [content] at h
  · cases h; exact length_littleEndian ..
  · split at h <;> cases h
    exact length_littleEndian ..
  · cases h; exact length_littleEndian ..
  · cases h; exact length_littleEndian ..

theorem Patched.content_of_not_dependsOnBase {s : Patched} (h : s.dependsOnBase = false)
    (base base' : HostAddress) : s.content base = s.content base' := by
  obtain ⟨site, kind, target, dest⟩ := s
  cases kind <;> cases dest <;> first | rfl | cases h

/-- The destination is in reach from wherever the buffer is. -/
def Patched.unfailing (s : Patched) : Bool :=
  match s.kind, s.dest with
  | .rel32, .outside _ => false
  | _, _ => true

theorem Patched.content_of_unfailing {s : Patched} (h : s.unfailing = true)
    (base : HostAddress) : ∃ chunk, s.content base = .ok chunk := by
  obtain ⟨site, kind, target, dest⟩ := s
  cases kind with
  | abs64 => exact ⟨_, rfl⟩
  | rel32 =>
    cases dest with
    | inside o => exact ⟨_, rfl⟩
    | outside host => cases h

theorem Pending.unfailing_inside (p : Pending) (o : Nat) :
    (p.leadingTo (.inside o)).unfailing = true := by
  obtain ⟨site, target, kind⟩ := p
  cases kind <;> rfl

theorem CodeBuffer.link_cases {b : CodeBuffer} {s : Patched} (hf : s.field.stop ≤ b.length) :
    (∃ e, b.link s = .error (.unreachable e) ∧ s.unfailing = false) ∨
    (∃ b', b.link s = .ok b' ∧ Rewrites [s.field] b b' ∧ b'.Holds s) := by
  cases hc : s.content b.address with
  | error e =>
    refine .inl ⟨e, by rw [link, hc], Bool.eq_false_iff.mpr fun hu => ?_⟩
    obtain ⟨chunk, hok⟩ := Patched.content_of_unfailing hu b.address
    cases hc.symm.trans hok
  | ok chunk =>
    obtain ⟨b', hp, hr, he⟩ := patch_ok hf (Patched.length_content hc)
    have hp' : b.patch s.site chunk = .ok b' := hp
    refine .inr ⟨b', by rw [link, hc]; simp only [hp'], hr, ?_⟩
    rw [Holds, hr.address, hc, he]

/-! ## Moves of the buffer -/

def dependents (ss : List Patched) : List Field := (ss.filter (·.dependsOnBase)).map Patched.field

theorem dependents_subset (ss : List Patched) : dependents ss ⊆ ss.map Patched.field := by
  intro f hf
  obtain ⟨s, hs, rfl⟩ := List.mem_map.mp hf
  exact List.mem_map_of_mem (List.mem_filter.mp hs).1

/-- A move writes the sites that depend on the base, as far as they can reach their
destinations. -/
theorem rebasePass_rewrites (ss : List Patched) (b : CodeBuffer)
    (hin : ∀ f ∈ dependents ss, f.stop ≤ b.length) :
    Rewrites (dependents ss) b (rebasePass b ss).1 ∧
      ∀ f, (rebasePass b ss).2 = some f → ∃ e, f = .jumpRange e := by
  induction ss generalizing b with
  | nil => exact ⟨.refl _ _, nofun⟩
  | cons s ss ih =>
    cases hd : s.dependsOnBase with
    | false =>
      have he : rebasePass b (s :: ss) = rebasePass b ss := by simp [rebasePass, hd]
      have hf : dependents (s :: ss) = dependents ss := by simp [dependents, hd]
      rw [hf] at hin
      rw [he, hf]
      exact ih b hin
    | true =>
      have hf : dependents (s :: ss) = s.field :: dependents ss := by simp [dependents, hd]
      rw [hf] at hin
      rw [hf]
      obtain ⟨hs, hin⟩ := List.forall_mem_cons.mp hin
      rcases link_cases hs with ⟨e, hl, -⟩ | ⟨b', hl, hr, -⟩
      · have he : rebasePass b (s :: ss) = (b, some (.jumpRange e)) := by
          simp [rebasePass, hd, hl]
        rw [he]
        exact ⟨.refl _ _, fun f hf => ⟨e, (Option.some.inj hf).symm⟩⟩
      · have he : rebasePass b (s :: ss) = rebasePass b' ss := by simp [rebasePass, hd, hl]
        rw [he]
        obtain ⟨hrest, hout⟩ := ih b' fun f hf => hr.length ▸ hin f hf
        exact ⟨(hr.mono (by simp)).trans (hrest.mono (List.subset_cons_self ..)), hout⟩

theorem rebasePass_spec (ss : List Patched) (b : CodeBuffer)
    (hin : ∀ s ∈ ss, s.field.stop ≤ b.length) (hap : (ss.map Patched.field).Pairwise Field.Apart) :
    Rewrites (dependents ss) b (rebasePass b ss).1 ∧
    ((∃ e, (rebasePass b ss).2 = some (.jumpRange e)) ∧ (∃ s ∈ ss, s.unfailing = false) ∨
      (rebasePass b ss).2 = none ∧
        ∀ s ∈ ss, s.dependsOnBase = true → (rebasePass b ss).1.Holds s) := by
  have hrewrites {ss : List Patched} {b : CodeBuffer} (hin : ∀ s ∈ ss, s.field.stop ≤ b.length) :
      Rewrites (dependents ss) b (rebasePass b ss).1 :=
    (rebasePass_rewrites ss b fun f hf => by
      obtain ⟨s, hs, rfl⟩ := List.mem_map.mp (dependents_subset ss hf)
      exact hin s hs).1
  refine ⟨hrewrites hin, ?_⟩
  induction ss generalizing b with
  | nil => exact .inr ⟨rfl, nofun⟩
  | cons s ss ih =>
    obtain ⟨hs, hap⟩ := List.pairwise_cons.mp hap
    have hin' : ∀ t ∈ ss, t.field.stop ≤ b.length := fun t ht => hin t (List.mem_cons_of_mem _ ht)
    cases hd : s.dependsOnBase with
    | false =>
      have he : rebasePass b (s :: ss) = rebasePass b ss := by simp [rebasePass, hd]
      rw [he]
      refine (ih b hin' hap).imp
        (And.imp_right fun ⟨t, ht, hu⟩ => ⟨t, List.mem_cons_of_mem _ ht, hu⟩)
        fun ⟨hn, hh⟩ => ⟨hn, ?_⟩
      intro t ht htd
      rcases List.mem_cons.mp ht with rfl | ht
      · exact absurd htd (by simp [hd])
      · exact hh t ht htd
    | true =>
      rcases link_cases (hin s List.mem_cons_self) with ⟨e, hl, hu⟩ | ⟨b', hl, hr, hh⟩
      · have he : rebasePass b (s :: ss) = (b, some (.jumpRange e)) := by
          simp [rebasePass, hd, hl]
        rw [he]
        exact .inl ⟨⟨e, rfl⟩, s, List.mem_cons_self, hu⟩
      · have he : rebasePass b (s :: ss) = rebasePass b' ss := by simp [rebasePass, hd, hl]
        have hin'' : ∀ t ∈ ss, t.field.stop ≤ b'.length := fun t ht => hr.length ▸ hin' t ht
        rw [he]
        refine (ih b' hin'' hap).imp
          (And.imp_right fun ⟨t, ht, hu⟩ => ⟨t, List.mem_cons_of_mem _ ht, hu⟩)
          fun ⟨hn, hall⟩ => ⟨hn, ?_⟩
        intro t ht htd
        rcases List.mem_cons.mp ht with rfl | ht
        · exact (hrewrites hin'').holds hh fun g hg => hs g (dependents_subset ss hg)
        · exact hall t ht htd

/-! ## Resolution -/

/-- What a resolution makes of the pending sites `ps`: those in `done` now lead to `dest`. -/
structure Resolution (target : GuestAddress) (dest : Destination) (b : CodeBuffer)
    (ps done : List Pending) (r : Pass Pending Patched) : Prop where
  sublist : r.kept.Sublist ps
  perm : (done ++ r.kept).Perm ps
  changed : r.changed = done.map (·.leadingTo dest)
  targeted : ∀ p ∈ done, p.target = target
  rewrites : Rewrites (done.map Pending.field) b r.buffer
  holds : ∀ s ∈ r.changed, r.buffer.Holds s
  stop : r.stop = none ∨ ∃ e, r.stop = some (.unreachable e)
  finished : r.stop = none → ∀ p ∈ r.kept, p.target ≠ target

theorem resolvePass_spec (target : GuestAddress) (dest : Destination) (ps : List Pending)
    (b : CodeBuffer) (hin : ∀ p ∈ ps, p.field.stop ≤ b.length)
    (hap : (ps.map Pending.field).Pairwise Field.Apart) :
    ∃ done, Resolution target dest b ps done (resolvePass target dest b ps) := by
  induction ps generalizing b with
  | nil =>
    exact ⟨[], .slnil, .nil, rfl, nofun, .refl _ _, nofun, .inl rfl, nofun⟩
  | cons p ps ih =>
    obtain ⟨hp, hap⟩ := List.pairwise_cons.mp hap
    have hin' : ∀ q ∈ ps, q.field.stop ≤ b.length := fun q hq => hin q (List.mem_cons_of_mem _ hq)
    by_cases ht : p.target = target
    · rcases link_cases (s := p.leadingTo dest) (hin p List.mem_cons_self) with
        ⟨e, hl, -⟩ | ⟨b', hl, hr, hh⟩
      · have he : resolvePass target dest b (p :: ps) =
            ⟨b, p :: ps, [], some (.unreachable e)⟩ := by
          simp [resolvePass, ht, hl]
        rw [he]
        exact ⟨[], .refl _, .refl _, rfl, nofun, .refl _ _, nofun, .inr ⟨e, rfl⟩, nofun⟩
      · have he : resolvePass target dest b (p :: ps) =
            (resolvePass target dest b' ps).change (p.leadingTo dest) := by
          simp [resolvePass, ht, hl]
        obtain ⟨done, h⟩ := ih b' (fun q hq => hr.length ▸ hin' q hq) hap
        rw [he]
        refine ⟨p :: done, h.sublist.cons _, h.perm.cons _, congrArg _ h.changed, ?_, ?_, ?_,
          h.stop, h.finished⟩
        · exact List.forall_mem_cons.mpr ⟨ht, h.targeted⟩
        · exact (hr.mono (by simp)).trans (h.rewrites.mono (List.subset_cons_self ..))
        · refine List.forall_mem_cons.mpr ⟨h.rewrites.holds hh ?_, h.holds⟩
          intro g hg
          obtain ⟨q, hq, rfl⟩ := List.mem_map.mp hg
          have hq' : q ∈ ps := h.perm.mem_iff.mp (List.mem_append_left _ hq)
          exact hp _ (List.mem_map_of_mem hq')
    · have he : resolvePass target dest b (p :: ps) = (resolvePass target dest b ps).keep p := by
        simp [resolvePass, ht]
      obtain ⟨done, h⟩ := ih b hin' hap
      rw [he]
      refine ⟨done, h.sublist.cons_cons _, List.perm_middle.trans (h.perm.cons _), h.changed,
        h.targeted, h.rewrites, h.holds, h.stop, fun hn => ?_⟩
      exact List.forall_mem_cons.mpr ⟨ht, h.finished hn⟩

/-- A resolution to a destination in reach patches every site that waits for the target. -/
theorem resolvePass_unfailing (target : GuestAddress) (dest : Destination) (ps : List Pending)
    (b : CodeBuffer) (hin : ∀ p ∈ ps, p.field.stop ≤ b.length)
    (hu : ∀ p ∈ ps, (p.leadingTo dest).unfailing = true) :
    (resolvePass target dest b ps).stop = none ∧
      (resolvePass target dest b ps).kept = ps.filter (·.target ≠ target) ∧
      (resolvePass target dest b ps).changed =
        (ps.filter (·.target = target)).map (·.leadingTo dest) := by
  induction ps generalizing b with
  | nil => exact ⟨rfl, rfl, rfl⟩
  | cons p ps ih =>
    obtain ⟨hup, hu⟩ := List.forall_mem_cons.mp hu
    have hin' : ∀ q ∈ ps, q.field.stop ≤ b.length := fun q hq => hin q (List.mem_cons_of_mem _ hq)
    by_cases ht : p.target = target
    · rcases link_cases (s := p.leadingTo dest) (hin p List.mem_cons_self) with
        ⟨e, -, hf⟩ | ⟨b', hl, hr, -⟩
      · cases hup.symm.trans hf
      · have he : resolvePass target dest b (p :: ps) =
            (resolvePass target dest b' ps).change (p.leadingTo dest) := by
          simp [resolvePass, ht, hl]
        obtain ⟨hs, hk, hc⟩ := ih b' (fun q hq => hr.length ▸ hin' q hq) hu
        rw [he, List.filter_cons_of_neg (by simp [ht]), List.filter_cons_of_pos (by simp [ht])]
        exact ⟨hs, hk, congrArg _ hc⟩
    · have he : resolvePass target dest b (p :: ps) = (resolvePass target dest b ps).keep p := by
        simp [resolvePass, ht]
      obtain ⟨hs, hk, hc⟩ := ih b hin' hu
      rw [he, List.filter_cons_of_pos (by simp [ht]), List.filter_cons_of_neg (by simp [ht])]
      exact ⟨hs, congrArg _ hk, hc⟩

/-! ## Truncation -/

/-- The site leads to offset `n` or beyond it. -/
def Patched.leadsPast (n : Nat) (s : Patched) : Bool :=
  match s.dest with
  | .inside d => n ≤ d
  | .outside _ => false

def cleared (n : Nat) (ss : List Patched) : List Patched :=
  ss.filter fun s => s.site < n && s.leadsPast n

def retained (n : Nat) (ss : List Patched) : List Patched :=
  ss.filter fun s => s.site < n && !s.leadsPast n

theorem truncatePass_cons (n : Nat) (b : CodeBuffer) (s : Patched) (ss : List Patched) :
    truncatePass n b (s :: ss) =
      if s.site < n then
        if s.leadsPast n then
          match b.patch s.site (List.replicate s.kind.size 0) with
          | .ok b => (truncatePass n b ss).change s.reopened
          | .error f => ⟨b, [], [], some (.fault f)⟩
        else (truncatePass n b ss).keep s
      else truncatePass n b ss := by
  obtain ⟨site, kind, target, dest⟩ := s
  rw [truncatePass]
  by_cases hs : site < n
  · rw [if_neg (by simp; omega), if_pos hs]
    cases dest with
    | outside host => rfl
    | inside d =>
      by_cases hd : n ≤ d
      · exact (if_neg (by simp [hd])).trans (if_pos (decide_eq_true hd)).symm
      · exact (if_pos (by simp [hd])).trans (if_neg (by simp [Patched.leadsPast, hd])).symm
  · rw [if_pos (by simp; omega), if_neg hs]

theorem truncatePass_spec (n : Nat) (ss : List Patched) (b : CodeBuffer)
    (hin : ∀ s ∈ ss, s.field.stop ≤ b.length) (hap : (ss.map Patched.field).Pairwise Field.Apart) :
    (truncatePass n b ss).kept = retained n ss ∧
    (truncatePass n b ss).changed = (cleared n ss).map Patched.reopened ∧
    (truncatePass n b ss).stop = none ∧
    Rewrites ((cleared n ss).map Patched.field) b (truncatePass n b ss).buffer ∧
    ∀ s ∈ cleared n ss, (truncatePass n b ss).buffer.Blank s.field := by
  induction ss generalizing b with
  | nil => exact ⟨rfl, rfl, rfl, .refl _ _, nofun⟩
  | cons s ss ih =>
    obtain ⟨hs, hap⟩ := List.pairwise_cons.mp hap
    have hin' : ∀ t ∈ ss, t.field.stop ≤ b.length := fun t ht => hin t (List.mem_cons_of_mem _ ht)
    rw [truncatePass_cons]
    by_cases hn : s.site < n
    · cases hl : s.leadsPast n with
      | true =>
        obtain ⟨b', hp, hr, hz⟩ := patch_ok (hin s List.mem_cons_self)
          (List.length_replicate (n := s.kind.size) (a := (0 : UInt8)))
        have hp' : b.patch s.site (List.replicate s.kind.size 0) = .ok b' := hp
        obtain ⟨hk, hc, hst, hrest, hblank⟩ := ih b' (fun t ht => hr.length ▸ hin' t ht) hap
        have he : cleared n (s :: ss) = s :: cleared n ss := by simp [cleared, hn, hl]
        have he' : retained n (s :: ss) = retained n ss := by simp [retained, hl]
        simp only [if_pos hn, if_true, hp', he, he']
        refine ⟨hk, congrArg _ hc, hst, ?_, List.forall_mem_cons.mpr ⟨?_, hblank⟩⟩
        · exact (hr.mono (by simp)).trans (hrest.mono (List.subset_cons_self ..))
        · refine hrest.blank hz fun g hg => hs g ?_
          obtain ⟨t, ht, rfl⟩ := List.mem_map.mp hg
          exact List.mem_map_of_mem (List.mem_filter.mp ht).1
      | false =>
        obtain ⟨hk, hc, hst, hrest, hblank⟩ := ih b hin' hap
        have he : cleared n (s :: ss) = cleared n ss := by simp [cleared, hl]
        have he' : retained n (s :: ss) = s :: retained n ss := by simp [retained, hn, hl]
        simp only [if_pos hn, he, he']
        exact ⟨congrArg _ hk, hc, hst, hrest, hblank⟩
    · have he : cleared n (s :: ss) = cleared n ss := by simp [cleared, hn]
      have he' : retained n (s :: ss) = retained n ss := by simp [retained, hn]
      rw [if_neg hn, he, he']
      exact ih b hin' hap

end HostCode
