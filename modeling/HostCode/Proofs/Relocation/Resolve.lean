import HostCode.Proofs.Relocation.Layout

/-! # Resolving the sites of a segment

A resolution moves sites from the pending to the patched ones, and writes them. It never
breaks off in a segment whose sites lie apart, and to an offset it always succeeds.
-/

namespace HostCode.Segment

open CodeBuffer

variable {s s' s'' : Segment} {lead lead' : GuestAddress → Option Destination}
  {new new' : List Patched}

/-- `s'` is `s` with the pending sites of `new` patched, each to where `lead` sends its
target. -/
structure Resolved (lead : GuestAddress → Option Destination) (new : List Patched)
    (s s' : Segment) : Prop where
  sublist : s'.table.pending.Sublist s.table.pending
  perm : (new.map Patched.reopened ++ s'.table.pending).Perm s.table.pending
  patched : s'.table.patched = s.table.patched ++ new
  led : ∀ q ∈ new, lead q.target = some q.dest
  resolved : s'.table.resolved = s.table.resolved + new.length
  recorded : s'.table.recorded = s.table.recorded
  rewrites : Rewrites (new.map Patched.field) s.buffer s'.buffer
  holds : ∀ q ∈ new, s'.buffer.Holds q

namespace Resolved

theorem refl (lead : GuestAddress → Option Destination) (s : Segment) : Resolved lead [] s s :=
  ⟨.refl _, .refl _, (List.append_nil _).symm, nofun, rfl, rfl, .refl _ _, nofun⟩

theorem mono (h : Resolved lead new s s') (hl : ∀ g d, lead g = some d → lead' g = some d) :
    Resolved lead' new s s' :=
  ⟨h.sublist, h.perm, h.patched, fun q hq => hl _ _ (h.led q hq), h.resolved, h.recorded,
    h.rewrites, h.holds⟩

theorem length (h : Resolved lead new s s') : s'.length = s.length := h.rewrites.length

theorem reopened_mem (h : Resolved lead new s s') {q : Patched} (hq : q ∈ new) :
    q.reopened ∈ s.table.pending :=
  h.perm.mem_iff.mp (List.mem_append_left _ (List.mem_map_of_mem hq))

theorem fields_perm (h : Resolved lead new s s') : s'.table.fields.Perm s.table.fields := by
  have hp := h.perm.map Pending.field
  rw [List.map_append, List.map_map] at hp
  unfold RelocationTable.fields
  rw [h.patched, List.map_append]
  calc s'.table.pending.map Pending.field ++
        (s.table.patched.map Patched.field ++ new.map Patched.field)
    _ = (s'.table.pending.map Pending.field ++ s.table.patched.map Patched.field) ++
        new.map Patched.field := (List.append_assoc ..).symm
    _ |>.Perm (new.map Patched.field ++
        (s'.table.pending.map Pending.field ++ s.table.patched.map Patched.field)) :=
      List.perm_append_comm
    _ = (new.map Patched.field ++ s'.table.pending.map Pending.field) ++
        s.table.patched.map Patched.field := (List.append_assoc ..).symm
    _ |>.Perm (s.table.pending.map Pending.field ++ s.table.patched.map Patched.field) :=
      hp.append_right _

theorem placed (h : Resolved lead new s s') (hs : s.Placed) : s'.Placed where
  apart := (h.fields_perm.pairwise_iff Field.Apart.symm).mpr hs.apart
  inside f hf := by
    rw [h.length]
    exact hs.inside f (h.fields_perm.mem_iff.mp hf)

theorem field_eq (h : Resolved lead new s s') (hs : s.Placed) {q : Patched}
    (hq : q ∈ s.table.patched) : s'.buffer.field q.field = s.buffer.field q.field := by
  refine h.rewrites.field_eq fun g hg => ?_
  obtain ⟨r, hr, rfl⟩ := List.mem_map.mp hg
  exact (hs.apart_of_mem (h.reopened_mem hr) hq).symm

theorem holds_of_mem (h : Resolved lead new s s') (hs : s.Placed) {q : Patched}
    (hq : q ∈ s.table.patched) (hh : s.buffer.Holds q) : s'.buffer.Holds q := by
  rw [Holds, h.rewrites.address, h.field_eq hs hq]
  exact hh

theorem ordered (h : Resolved lead new s s') (hs : s.Ordered) : s'.Ordered where
  toPlaced := h.placed hs.toPlaced
  sane := h.rewrites.sane hs.sane
  ascending := hs.ascending.sublist h.sublist
  blank p hp := by
    have hap : ((new.map Patched.reopened ++ s'.table.pending).map Pending.field).Pairwise
        Field.Apart :=
      ((h.perm.map _).pairwise_iff Field.Apart.symm).mpr hs.pending_apart
    rw [List.map_append, List.map_map] at hap
    refine h.rewrites.blank (hs.blank p (h.sublist.subset hp)) fun g hg => ?_
    exact ((List.pairwise_append.mp hap).2.2 g hg _ (List.mem_map_of_mem hp)).symm

theorem linked (h : Resolved lead new s s') (hs : s.Ordered) (hl : s.Linked) : s'.Linked := by
  intro q hq
  rw [h.patched] at hq
  rcases List.mem_append.mp hq with hq | hq
  · exact h.holds_of_mem hs.toPlaced hq (hl q hq)
  · exact h.holds q hq

/-- What two resolutions in a row write, and that the second leaves the sites of the first. -/
theorem followed (h : Resolved lead new s s') (h' : Resolved lead' new' s' s'') (hs : s.Placed) :
    Rewrites ((new ++ new').map Patched.field) s.buffer s''.buffer ∧
      ∀ q ∈ new ++ new', s''.buffer.Holds q := by
  rw [List.map_append]
  refine ⟨(h.rewrites.mono (List.subset_append_left ..)).trans
    (h'.rewrites.mono (List.subset_append_right ..)), fun q hq => ?_⟩
  rcases List.mem_append.mp hq with hq | hq
  · have hmem : q ∈ s'.table.patched := h.patched ▸ List.mem_append_right _ hq
    exact h'.holds_of_mem (h.placed hs) hmem (h.holds q hq)
  · exact h'.holds q hq

theorem trans (h : Resolved lead new s s') (h' : Resolved lead new' s' s'') (hs : s.Ordered) :
    Resolved lead (new ++ new') s s'' where
  sublist := h'.sublist.trans h.sublist
  perm := by
    rw [List.map_append, List.append_assoc]
    exact (h'.perm.append_left _).trans h.perm
  patched := by rw [h'.patched, h.patched, List.append_assoc]
  led := by
    simp only [List.mem_append]
    rintro q (hq | hq)
    · exact h.led q hq
    · exact h'.led q hq
  resolved := by rw [h'.resolved, h.resolved, List.length_append, Nat.add_assoc]
  recorded := h'.recorded.trans h.recorded
  rewrites := (h.followed h' hs.toPlaced).1
  holds := (h.followed h' hs.toPlaced).2

end Resolved

def leadOne (target : GuestAddress) (dest : Destination) (g : GuestAddress) :
    Option Destination :=
  if g = target then some dest else none

theorem Resolved.led_one {target : GuestAddress} {dest : Destination}
    (h : Resolved (leadOne target dest) new s s') {q : Patched} (hq : q ∈ new) :
    q.target = target ∧ q.dest = dest := by
  have hled := h.led q hq
  unfold leadOne at hled
  split at hled
  · next he => exact ⟨he, (Option.some.inj hled).symm⟩
  · cases hled

theorem Resolved.leadingTo_mem {target : GuestAddress} {dest : Destination}
    (h : Resolved (leadOne target dest) new s s') {p : Pending} (hp : p ∈ s.table.pending)
    (hdone : p ∉ s'.table.pending) : p.leadingTo dest ∈ new := by
  rcases List.mem_append.mp (h.perm.mem_iff.mpr hp) with hq | hq
  · obtain ⟨q, hnew, rfl⟩ := List.mem_map.mp hq
    obtain ⟨-, rfl⟩ := h.led_one hnew
    exact hnew
  · exact absurd hq hdone

def leadKnown (known : GuestAddress → Option Nat) (g : GuestAddress) : Option Destination :=
  (known g).map .inside

def ledOne (target : GuestAddress) (dest : Destination) (ps : List Pending) : List Patched :=
  (ps.filter (·.target = target)).map (·.leadingTo dest)

/-- What the resolution of the targets that are known makes of the pending sites. -/
def ledKnown (known : GuestAddress → Option Nat) : List GuestAddress → List Pending → List Patched
  | [], _ => []
  | g :: gs, ps =>
    match known g with
    | none => ledKnown known gs ps
    | some o => ledOne g (.inside o) ps ++ ledKnown known gs (ps.filter (·.target ≠ g))

section Resolution

variable {target : GuestAddress} {dest : Destination} {done : List Pending}
  {r : Pass Pending Patched}

theorem remaining_of_resolution
    (h : Resolution target dest s.buffer s.table.pending done r) :
    r.remaining s.table.pending = r.kept := by
  rcases h.stop with hst | ⟨e, hst⟩ <;> simp only [Pass.remaining, hst]

theorem resolved_of_resolution
    (h : Resolution target dest s.buffer s.table.pending done r) {t : RelocationTable}
    (hp : t.pending = r.kept) (hq : t.patched = s.table.patched ++ r.changed)
    (hcount : t.resolved = s.table.resolved + r.changed.length)
    (hrec : t.recorded = s.table.recorded) :
    Resolved (leadOne target dest) r.changed s { s with buffer := r.buffer, table := t } := by
  refine ⟨hp ▸ h.sublist, ?_, hq, ?_, hcount, hrec, ?_, h.holds⟩
  · rw [hp, h.changed, List.map_map]
    simpa [Function.comp_def, Pending.leadingTo, Patched.reopened] using h.perm
  · rw [h.changed]
    intro q hq
    obtain ⟨p, hp, rfl⟩ := List.mem_map.mp hq
    exact if_pos (h.targeted p hp)
  · rw [h.changed, List.map_map]
    exact h.rewrites

end Resolution

/-- If no site turned out to be out of reach, none that waits for the target is left. -/
theorem resolveTo_ensures (hs : s.Ordered) (target : GuestAddress) (dest : Destination) :
    Ensures (resolveTo target dest) s
      (fun r s' => ∃ new, Resolved (leadOne target dest) new s s' ∧
        (r.2 = none → ∀ p ∈ s'.table.pending, p.target ≠ target) ∧
        ((∀ p ∈ s.table.pending, (p.leadingTo dest).unfailing = true) →
          new = ledOne target dest s.table.pending ∧ r = (new.length, none) ∧
          s'.table.pending = s.table.pending.filter (·.target ≠ target)))
      (fun _ _ => False) := by
  have hin : ∀ p ∈ s.table.pending, p.field.stop ≤ s.buffer.length :=
    fun p hp => hs.pending_inside hp
  obtain ⟨done, h⟩ := resolvePass_spec target dest s.table.pending s.buffer hin hs.pending_apart
  generalize hr : resolvePass target dest s.buffer s.table.pending = r at h
  have hrem := remaining_of_resolution h
  have hall : (∀ p ∈ s.table.pending, (p.leadingTo dest).unfailing = true) → r.stop = none ∧
      r.kept = s.table.pending.filter (·.target ≠ target) ∧
      r.changed = ledOne target dest s.table.pending := by
    intro hu
    rw [← hr]
    exact resolvePass_unfailing target dest s.table.pending s.buffer hin hu
  rcases h.stop with hst | ⟨e, hst⟩
  · simp only [Ensures, resolveTo, hr, hst, hrem]
    refine ⟨r.changed, resolved_of_resolution h rfl rfl rfl rfl, fun _ => h.finished hst, fun hu => ?_⟩
    obtain ⟨-, hk, hc⟩ := hall hu
    exact ⟨hc, rfl, hk⟩
  · simp only [Ensures, resolveTo, hr, hst, hrem]
    refine ⟨r.changed, resolved_of_resolution h rfl rfl rfl rfl, fun hnone => ?_, fun hu => ?_⟩
    · cases hnone
    · cases hst.symm.trans (hall hu).1

theorem resolveOffset_eq (target : GuestAddress) (offset : Int) (s : Segment) :
    resolveOffset target offset s =
      if 0 ≤ offset ∧ offset ≤ s.length then resolveTo target (.inside offset.toNat) s
      else .error (.misuse (.offsetOutside offset s.length)) s := by
  change (if 0 ≤ offset ∧ offset ≤ s.length then resolveTo target (.inside offset.toNat)
    else throw (.misuse (.offsetOutside offset s.length))) s = _
  split <;> rfl

theorem resolveOffset_ensures (hs : s.Ordered) (target : GuestAddress) {o : Nat}
    (ho : o ≤ s.length) :
    Ensures (resolveOffset target o) s
      (fun r s' => r.2 = none ∧ s'.table.pending = s.table.pending.filter (·.target ≠ target) ∧
        Resolved (leadOne target (.inside o)) (ledOne target (.inside o) s.table.pending) s s')
      (fun _ _ => False) := by
  unfold Ensures
  rw [resolveOffset_eq, if_pos ⟨Int.natCast_nonneg o, by omega⟩]
  refine (resolveTo_ensures hs target (.inside o)).imp ?_ fun _ _ => id
  rintro r s' ⟨new, hres, -, hall⟩
  obtain ⟨rfl, rfl, hp⟩ := hall fun p _ => p.unfailing_inside o
  exact ⟨rfl, hp, hres⟩

/-- Resolving targets to the offsets of blocks patches every site that waits for one of them
that is known. -/
theorem resolveEach_ensures (hs : s.Ordered) (known : GuestAddress → Option Nat)
    (hk : ∀ g o, known g = some o → o ≤ s.length) (targets : List GuestAddress) :
    Ensures (resolveEach (fun g => (known g).map Int.ofNat) targets) s
      (fun r s' => r.2 = none ∧
        s'.table.pending = s.table.pending.filter
          (fun p => ¬ (p.target ∈ targets ∧ (known p.target).isSome)) ∧
        Resolved (leadKnown known) (ledKnown known targets s.table.pending) s s')
      (fun _ _ => False) := by
  induction targets generalizing s with
  | nil =>
    refine .pure ⟨rfl, ?_, .refl _ _⟩
    exact (List.filter_eq_self.mpr (by simp)).symm
  | cons g gs ih =>
    rw [resolveEach, ledKnown]
    cases hg : known g with
    | none =>
      refine (ih hs hk).imp ?_ fun _ _ => id
      rintro r s' ⟨hn, hp, hres⟩
      refine ⟨hn, hp.trans (List.filter_congr fun p _ => ?_), hres⟩
      by_cases he : p.target = g
      · simp [he, hg]
      · simp [he]
    | some o =>
      refine .bind ((resolveOffset_ensures hs g (hk g o hg)).imp ?_ fun _ _ => id)
      rintro ⟨n, e⟩ s' ⟨rfl, hp, hres⟩
      refine .bind ((ih (hres.ordered hs) fun g o ho => hres.length ▸ hk g o ho).imp ?_
        fun _ _ => id)
      rintro ⟨m, e'⟩ s'' ⟨hn, hp', hres'⟩
      have hlead : Resolved (leadKnown known) (ledOne g (.inside o) s.table.pending) s s' := by
        refine hres.mono fun g' d hd => ?_
        unfold leadOne at hd
        split at hd
        · next he => cases hd; rw [leadKnown, he, hg]; rfl
        · cases hd
      rw [hp] at hp' hres'
      refine .pure ⟨hn, ?_, hlead.trans hres' hs⟩
      rw [hp', List.filter_filter]
      refine List.filter_congr fun p _ => ?_
      by_cases he : p.target = g
      · simp [he, hg]
      · simp [he]

end HostCode.Segment
