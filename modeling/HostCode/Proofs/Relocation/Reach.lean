import HostCode.Proofs.Session.Branches

/-! # How far a resolution gets

The sites that wait for a target are led to its code one after the other, up to the first that
is too far away from it. These are patched and all others stay as they were, in the order in
which they were, so that no site is lost and none is written twice.
-/

namespace HostCode

open CodeBuffer

/-! ## Sites in reach -/

namespace Pending

variable {p : Pending} {base : HostAddress} {dest : Destination} {b : CodeBuffer}

/-- The destination is in reach of the site in a buffer at `base`. Only a displacement to an
address outside of the buffer can fall short of it. -/
def reaches (base : HostAddress) (dest : Destination) (p : Pending) : Bool :=
  match p.kind, dest with
  | .rel32, .outside host =>
    (host.toNat - (base + UInt64.ofNat (p.site + 4)).toNat : Int).natAbs ≤ 0x7fffffff
  | _, _ => true

def shortfall (base : HostAddress) (dest : Destination) (p : Pending) : JumpRange :=
  ⟨p.site, (dest.address base - (base + UInt64.ofNat (p.site + 4))).toInt64.toInt, 32⟩

theorem exists_content (h : p.reaches base dest = true) :
    ∃ chunk, (p.leadingTo dest).content base = .ok chunk := by
  obtain ⟨site, target, kind⟩ := p
  cases kind with
  | abs64 => exact ⟨_, rfl⟩
  | rel32 =>
    cases dest with
    | inside o => exact ⟨_, rfl⟩
    | outside host =>
      have hd : displacement host (base + UInt64.ofNat (site + 4)) = .ok _ :=
        if_pos (of_decide_eq_true h)
      simp only [leadingTo, Patched.content, hd]
      exact ⟨_, rfl⟩

theorem content_of_not_reaches (h : p.reaches base dest = false) :
    (p.leadingTo dest).content base = .error (p.shortfall base dest) := by
  obtain ⟨site, target, kind⟩ := p
  cases kind with
  | abs64 => cases h
  | rel32 =>
    cases dest with
    | inside o => cases h
    | outside host =>
      have hd : displacement host (base + UInt64.ofNat (site + 4)) = .error _ :=
        if_neg (of_decide_eq_false h)
      simp only [leadingTo, Patched.content, hd]
      rfl

theorem link_of_reaches (hf : p.field.stop ≤ b.length) (h : p.reaches b.address dest = true) :
    ∃ b', b.link (p.leadingTo dest) = .ok b' ∧ Rewrites [p.field] b b' := by
  rcases link_cases (s := p.leadingTo dest) hf with ⟨e, hl, -⟩ | ⟨b', hl, hr, -⟩
  · obtain ⟨chunk, hc⟩ := exists_content h
    simp only [link, hc] at hl
    split at hl <;> cases hl
  · exact ⟨b', hl, hr⟩

theorem link_of_not_reaches (h : p.reaches b.address dest = false) :
    b.link (p.leadingTo dest) = .error (.unreachable (p.shortfall b.address dest)) := by
  rw [link, content_of_not_reaches h]

end Pending

/-! ## The pass -/

def waiting (target : GuestAddress) (ps : List Pending) : List Pending :=
  ps.filter (·.target = target)

theorem waiting_filter (target : GuestAddress) (keep : Pending → Bool) (ps : List Pending) :
    waiting target (ps.filter keep) = (waiting target ps).filter keep := by
  simp only [waiting, List.filter_filter, Bool.and_comm]

/-- How many of the sites come before the first that is out of reach of `dest`. -/
def reached (base : HostAddress) (dest : Destination) (ps : List Pending) : Nat :=
  ps.findIdx fun p => !p.reaches base dest

variable {target : GuestAddress} {dest : Destination}

theorem reached_cons_of_reaches {base : HostAddress} {p : Pending} {ps : List Pending}
    (h : p.reaches base dest = true) : reached base dest (p :: ps) = reached base dest ps + 1 := by
  simp [reached, List.findIdx_cons, h]

theorem reached_cons_of_not_reaches {base : HostAddress} {p : Pending} {ps : List Pending}
    (h : p.reaches base dest = false) : reached base dest (p :: ps) = 0 := by
  simp [reached, List.findIdx_cons, h]

/-- The pass changes the sites before the first that is out of reach, and reports that one. -/
theorem resolvePass_reached (target : GuestAddress) (dest : Destination) (ps : List Pending)
    (b : CodeBuffer) (hin : ∀ p ∈ ps, p.field.stop ≤ b.length) (hnodup : ps.Nodup) :
    let within := (waiting target ps).take (reached b.address dest (waiting target ps))
    (resolvePass target dest b ps).changed = within.map (·.leadingTo dest) ∧
    (resolvePass target dest b ps).kept = ps.filter (· ∉ within) ∧
    (resolvePass target dest b ps).stop =
      (waiting target ps)[reached b.address dest (waiting target ps)]?.map fun p =>
        .unreachable (p.shortfall b.address dest) := by
  induction ps generalizing b with
  | nil => exact ⟨rfl, rfl, rfl⟩
  | cons p ps ih =>
    obtain ⟨hp, hnodup⟩ := List.nodup_cons.mp hnodup
    have hin' : ∀ q ∈ ps, q.field.stop ≤ b.length := fun q hq => hin q (List.mem_cons_of_mem _ hq)
    by_cases ht : p.target = target
    · have hw : waiting target (p :: ps) = p :: waiting target ps := by simp [waiting, ht]
      rw [hw]
      cases hr : p.reaches b.address dest with
      | true =>
        obtain ⟨b', hl, hb⟩ := Pending.link_of_reaches (hin p List.mem_cons_self) hr
        have he : resolvePass target dest b (p :: ps) =
            (resolvePass target dest b' ps).change (p.leadingTo dest) := by
          simp [resolvePass, ht, hl]
        obtain ⟨hc, hk, hs⟩ := ih b' (fun q hq => hb.length ▸ hin' q hq) hnodup
        rw [hb.address] at hc hk hs
        rw [he, reached_cons_of_reaches hr, List.take_succ_cons]
        refine ⟨congrArg _ hc, ?_, hs⟩
        rw [List.filter_cons_of_neg (by simp)]
        refine hk.trans (List.filter_congr fun q hq => ?_)
        have hne : q ≠ p := fun he => hp (he ▸ hq)
        simp [hne]
      | false =>
        have he : resolvePass target dest b (p :: ps) =
            ⟨b, p :: ps, [], some (.unreachable (p.shortfall b.address dest))⟩ := by
          simp [resolvePass, ht, Pending.link_of_not_reaches hr]
        rw [he, reached_cons_of_not_reaches hr]
        refine ⟨rfl, ?_, rfl⟩
        exact (List.filter_eq_self.mpr (by simp)).symm
    · have hw : waiting target (p :: ps) = waiting target ps := by simp [waiting, ht]
      have he : resolvePass target dest b (p :: ps) = (resolvePass target dest b ps).keep p := by
        simp [resolvePass, ht]
      obtain ⟨hc, hk, hs⟩ := ih b hin' hnodup
      rw [hw, he]
      refine ⟨hc, ?_, hs⟩
      rw [List.filter_cons_of_pos]
      · exact congrArg _ hk
      · have hnot : p ∉ (waiting target ps).take (reached b.address dest (waiting target ps)) :=
          fun hm => hp (List.mem_filter.mp (List.mem_of_mem_take hm)).1
        exact decide_eq_true hnot

/-! ## What a resolution leaves -/

namespace Segment

variable {s s' : Segment} {k : Nat}

abbrev waitingFor (target : GuestAddress) (s : Segment) : List Pending :=
  waiting target s.table.pending

abbrev reachedBy (target : GuestAddress) (dest : Destination) (s : Segment) : Nat :=
  reached s.buffer.address dest (s.waitingFor target)

/-- The first `k` of the sites that wait for `target` lead to `dest` now, and nothing else has
changed. -/
structure Advanced (target : GuestAddress) (dest : Destination) (k : Nat) (s s' : Segment) : Prop
    extends Resolved (leadOne target dest) (((s.waitingFor target).take k).map (·.leadingTo dest))
      s s' where
  kept : s'.table.pending = s.table.pending.filter (· ∉ (s.waitingFor target).take k)
  moves : s'.moves = s.moves

theorem reachedBy_le (target : GuestAddress) (dest : Destination) (s : Segment) :
    s.reachedBy target dest ≤ (s.waitingFor target).length :=
  List.findIdx_le_length

/-- A resolution patches the sites before the first that is out of reach, and reports that one. -/
theorem resolveTo_eq (hs : s.Placed) (target : GuestAddress) (dest : Destination) :
    ∃ s', resolveTo target dest s = .ok (s.reachedBy target dest,
        (s.waitingFor target)[s.reachedBy target dest]?.map
          (Pending.shortfall s.buffer.address dest)) s' ∧
      Advanced target dest (s.reachedBy target dest) s s' := by
  have hin : ∀ p ∈ s.table.pending, p.field.stop ≤ s.buffer.length :=
    fun p hp => hs.pending_inside hp
  obtain ⟨done, h⟩ := resolvePass_spec target dest s.table.pending s.buffer hin hs.pending_apart
  obtain ⟨hc, hk, hst⟩ :=
    resolvePass_reached target dest s.table.pending s.buffer hin hs.pending_nodup
  have hrem := remaining_of_resolution h
  have hlen : (((s.waitingFor target).take (s.reachedBy target dest)).map
      (·.leadingTo dest)).length = s.reachedBy target dest := by
    rw [List.length_map, List.length_take]
    exact Nat.min_eq_left (s.reachedBy_le target dest)
  have hres := resolved_of_resolution h
    (t := { s.table with
      pending := (resolvePass target dest s.buffer s.table.pending).kept
      patched := s.table.patched ++ (resolvePass target dest s.buffer s.table.pending).changed
      resolved := s.table.resolved + s.reachedBy target dest })
    rfl rfl (by rw [hc, hlen]) rfl
  rw [hc] at hres
  refine ⟨_, ?_, hres, hk, rfl⟩
  cases hw : (s.waitingFor target)[s.reachedBy target dest]? with
  | none =>
    rw [hw] at hst
    simp only [resolveTo, hst, hrem, hlen, hc, Option.map]
  | some p =>
    rw [hw] at hst
    simp only [resolveTo, hst, hrem, hlen, hc, Option.map]

theorem resolve_eq (hdest : ∀ o, dest = .inside o → o ≤ s.length) :
    dest.resolve target s = resolveTo target dest s := by
  cases dest with
  | outside host => rfl
  | inside o =>
    have ho := hdest o rfl
    change resolveOffset target o s = _
    rw [resolveOffset_eq, if_pos ⟨Int.natCast_nonneg o, by omega⟩]
    rfl

theorem resolve_advances (hs : s.Placed) {v : Nat × Option JumpRange}
    (hx : dest.resolve target s = .ok v s') :
    v.1 = s.reachedBy target dest ∧ Advanced target dest (s.reachedBy target dest) s s' := by
  have hdest : ∀ o, dest = .inside o → o ≤ s.length := by
    rintro o rfl
    change resolveOffset target o s = _ at hx
    rw [resolveOffset_eq] at hx
    split at hx
    · next hin => exact Int.ofNat_le.mp hin.2
    · cases hx
  obtain ⟨s'', hx', hadv⟩ := resolveTo_eq hs target dest
  rw [resolve_eq hdest] at hx
  cases hx.symm.trans hx'
  exact ⟨rfl, hadv⟩

theorem filter_not_mem_take {α : Type} [DecidableEq α] {l : List α} (h : l.Nodup) (k : Nat) :
    l.filter (· ∉ l.take k) = l.drop k := by
  have hsplit := List.take_append_drop k l
  rw [← hsplit] at h
  obtain ⟨-, -, hne⟩ := List.nodup_append.mp h
  calc l.filter (· ∉ l.take k)
    _ = (l.take k ++ l.drop k).filter (· ∉ l.take k) := by rw [hsplit]
    _ = l.drop k := by
      rw [List.filter_append, List.filter_eq_nil_iff.mpr (by simp), List.nil_append]
      refine List.filter_eq_self.mpr fun a ha => decide_eq_true fun hm => ?_
      exact hne a hm a ha rfl

theorem Advanced.waitingFor_eq (h : Advanced target dest k s s') (hs : s.Placed) :
    s'.waitingFor target = (s.waitingFor target).drop k := by
  rw [waitingFor, h.kept, waiting_filter]
  exact filter_not_mem_take (hs.pending_nodup.sublist List.filter_sublist) k

theorem target_of_mem {p : Pending} (hp : p ∈ s.waitingFor target) : p.target = target :=
  of_decide_eq_true (List.mem_filter.mp hp).2

theorem Advanced.kept_of_le (h : Advanced target dest k s s')
    (hk : (s.waitingFor target).length ≤ k) :
    s'.table.pending = s.table.pending.filter (·.target ≠ target) := by
  rw [h.kept, List.take_of_length_le hk]
  refine List.filter_congr fun p hp => ?_
  simp [waitingFor, waiting, hp]

theorem Advanced.denotes (h : Advanced target dest k s s') (hs : s.Placed)
    (hlen : s.length < 2 ^ 31) (hdest : ∀ o, dest = .inside o → o ≤ s.length) {p : Pending}
    (hp : p ∈ (s.waitingFor target).take k) :
    s'.buffer.denotes p.kind p.site = dest.address s.buffer.address := by
  have hholds := h.holds _ (List.mem_map_of_mem hp)
  have hin : p.site + 4 ≤ s.length := by
    have hmem := (List.mem_filter.mp (List.mem_of_mem_take hp)).1
    refine Nat.le_trans (Nat.add_le_add_left ?_ _) (hs.pending_inside hmem)
    change 4 ≤ p.kind.size
    cases p.kind <;> decide
  rw [← h.rewrites.address]
  refine hholds.denotes fun o ho => ?_
  have hreach := hdest o ho
  change ((o : Int) - (p.site + 4)).natAbs < 2 ^ 31
  omega

theorem reachedBy_eq_length
    (h : ∀ p ∈ s.waitingFor target, p.reaches s.buffer.address dest = true) :
    s.reachedBy target dest = (s.waitingFor target).length :=
  List.findIdx_eq_length.mpr fun p hp => by simp [h p hp]

/-- A resolution goes through the sites that wait for its target up to the first that cannot
reach the destination, and stops there with an error that names it. The ones before it lead to
the destination now, and are the last of the patched ones. All other sites and all other bytes
are as they were. So no resolution touches a site that was patched before, and one to a
destination that the remaining sites can reach patches all of them. -/
theorem resolution_conserves (hs : s.Placed) (hlen : s.length < 2 ^ 31) (target : GuestAddress)
    (dest : Destination) (hdest : ∀ o, dest = .inside o → o ≤ s.length) :
    let sites := s.waitingFor target
    let k := s.reachedBy target dest
    ∃ s', dest.resolve target s =
        .ok (k, sites[k]?.map (Pending.shortfall s.buffer.address dest)) s' ∧
      s'.table.pending = s.table.pending.filter (· ∉ sites.take k) ∧
      s'.table.patched = s.table.patched ++ (sites.take k).map (·.leadingTo dest) ∧
      s'.table.resolved = s.table.resolved + k ∧ s'.table.recorded = s.table.recorded ∧
      (∀ p ∈ sites.take k,
        s'.buffer.denotes p.kind p.site = dest.address s.buffer.address) ∧
      Rewrites ((sites.take k).map Pending.field) s.buffer s'.buffer ∧
      (∀ target' (dest' : Destination) v s'', dest'.resolve target' s' = .ok v s'' →
        ∀ q ∈ s'.table.patched, s''.buffer.field q.field = s'.buffer.field q.field) ∧
      ∀ dest' : Destination, (∀ o, dest' = .inside o → o ≤ s.length) →
        (∀ p ∈ sites.drop k, p.reaches s.buffer.address dest' = true) →
        ∃ s'', dest'.resolve target s' = .ok (sites.length - k, none) s'' ∧
          s''.table.pending = s.table.pending.filter (·.target ≠ target) ∧
          s''.table.patched = s'.table.patched ++ (sites.drop k).map (·.leadingTo dest') := by
  intro sites k
  obtain ⟨s', hx, hadv⟩ := resolveTo_eq hs target dest
  have hs' := hadv.placed hs
  have hrest := hadv.waitingFor_eq hs
  have hcount : (sites.take k).length = k :=
    (List.length_take ..).trans (Nat.min_eq_left (s.reachedBy_le target dest))
  refine ⟨s', (resolve_eq hdest).trans hx, hadv.kept, hadv.patched, ?_, hadv.recorded,
    fun p => hadv.denotes hs hlen hdest, ?_, ?_, ?_⟩
  · have hgrown := hadv.resolved
    rwa [List.length_map, hcount] at hgrown
  · have hwrites := hadv.rewrites
    rwa [List.map_map] at hwrites
  · intro target' dest' v s'' hx' q hq
    exact (resolve_advances hs' hx').2.field_eq hs' hq
  · intro dest' hdest' hreach
    rw [← hadv.length] at hdest'
    rw [← hadv.rewrites.address, ← hrest] at hreach
    obtain ⟨s'', hx', hadv'⟩ := resolveTo_eq hs' target dest'
    have hall := reachedBy_eq_length hreach
    rw [hall] at hx' hadv'
    refine ⟨s'', (resolve_eq hdest').trans ?_, ?_, ?_⟩
    · rw [hx', List.getElem?_eq_none (Nat.le_refl _), hrest, List.length_drop]
      rfl
    · rw [hadv'.kept_of_le (Nat.le_refl _), hadv.kept, List.filter_filter]
      refine List.filter_congr fun p hp => ?_
      by_cases ht : p.target = target
      · simp [ht]
      · have hnot : p ∉ sites.take k := fun hm => ht (target_of_mem (List.mem_of_mem_take hm))
        simpa [ht] using hnot
    · rw [hadv'.patched, List.take_length, hrest]

/-- Three sites that wait for one target, the second of them with room for an address, and
between them a site that waits for another. -/
def crossing : Segment where
  buffer := {
    supply := .listed [], growth := 0, bytes := .replicate 20 0, capacity := 32, base := 0x80000010 }
  table := { pending := [⟨0, 7, .rel32⟩, ⟨4, 9, .rel32⟩, ⟨8, 7, .abs64⟩, ⟨16, 7, .rel32⟩] }

/-- The first site is as far from the destination as can be, and the last is too far. -/
theorem resolution_conserves_last_site :
    crossing.Placed ∧ crossing.length < 2 ^ 31 ∧
      ∃ s' s'', (Destination.outside 0x15).resolve 7 crossing =
          .ok (2, some ⟨16, -0x8000000f, 32⟩) s' ∧
        s'.table.pending = [⟨4, 9, .rel32⟩, ⟨16, 7, .rel32⟩] ∧
        s'.table.patched =
          [⟨0, .rel32, 7, .outside 0x15⟩, ⟨8, .abs64, 7, .outside 0x15⟩] ∧
        s'.buffer.denotes .rel32 0 = 0x15 ∧ s'.buffer.denotes .abs64 8 = 0x15 ∧
        (Destination.inside 20).resolve 7 s' = .ok (1, none) s'' ∧
        s''.table.pending = [⟨4, 9, .rel32⟩] := by
  have hplaced : crossing.Placed := ⟨by decide, by decide⟩
  have hlen : crossing.length < 2 ^ 31 := by decide
  obtain ⟨s', hx, hpending, hpatched, -, -, hdenotes, -, -, hlater⟩ :=
    resolution_conserves hplaced hlen 7 (.outside 0x15) (by intro o h; cases h)
  obtain ⟨s'', hx', hpending', -⟩ := hlater (.inside 20)
    (fun o h => by cases h; decide) (by decide)
  refine ⟨hplaced, hlen, s', s'', hx, hpending, hpatched, ?_, ?_, hx', hpending'⟩
  · exact hdenotes ⟨0, 7, .rel32⟩ (by decide)
  · exact hdenotes ⟨8, 7, .abs64⟩ (by decide)

end Segment

end HostCode
