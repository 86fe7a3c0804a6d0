import HostCode.Proofs.Assembler.Outcome
import HostCode.Proofs.Buffer.Refinement
import HostCode.Proofs.Relocation.Reach

/-! # Resolutions in either order

Resolutions of different targets write different sites and move different entries, so neither
can tell whether the other came first. A move of the buffer writes a site exactly as it would
have been written at the new base, so a resolution may come before or behind it.
-/

namespace HostCode

open CodeBuffer

/-! ## Buffers that hold the same sites -/

namespace CodeBuffer

variable {b b₁ b₂ : CodeBuffer} {fs : List Field}

/-- What a site holds is determined by where it leads, so two ways to write the same sites come
to the same. -/
theorem Rewrites.eq_of_holds (qs : List Patched) (h₁ : Rewrites (qs.map Patched.field) b b₁)
    (h₂ : Rewrites (qs.map Patched.field) b b₂) (hq₁ : ∀ q ∈ qs, b₁.Holds q)
    (hq₂ : ∀ q ∈ qs, b₂.Holds q) : b₁ = b₂ := by
  have hbytes : b₁.bytes = b₂.bytes := by
    refine Array.ext_getElem? fun i => ?_
    by_cases hi : ∃ q ∈ qs, q.field.Covers i
    · obtain ⟨q, hq, hcov⟩ := hi
      have hfield := (hq₁ q hq).field_eq (hq₂ q hq) (h₁.address.trans h₂.address.symm)
      exact getElem?_eq_of_field_eq hfield hcov
    · have hout : ∀ f ∈ qs.map Patched.field, ¬ f.Covers i := by
        intro f hf hcov
        obtain ⟨q, hq, rfl⟩ := List.mem_map.mp hf
        exact hi ⟨q, hq, hcov⟩
      rw [h₁.outside i hout, h₂.outside i hout]
  rw [h₁.rest, h₂.rest, hbytes]

theorem Rewrites.push (h : Rewrites fs b b₁) (chunk : List UInt8) :
    Rewrites fs (b.push chunk) (b₁.push chunk) where
  rest := by rw [CodeBuffer.push, CodeBuffer.push, h.rest]
  length := by rw [length_push, length_push, h.length]
  outside i hi := by rw [getElem?_push, getElem?_push, h.length, h.outside i hi]

theorem Rewrites.withBytes {c c' : CodeBuffer} (h : Rewrites fs c c') (hb : b.bytes = c.bytes) :
    Rewrites fs b { b with bytes := c'.bytes } where
  rest := rfl
  length := h.length.trans (congrArg Array.size hb.symm)
  outside i hi := by rw [h.outside i hi, hb]

theorem reserve_withBytes {bytes : Array UInt8} (h : bytes.size = b.length) (n : Nat) :
    reserve { b with bytes } n = ((b.reserve n).1, { (b.reserve n).2 with bytes }) := by
  have hlen : length { b with bytes } = b.length := h
  by_cases hroom : b.length + n ≤ b.capacity
  · rw [reserve_of_le hroom, reserve_of_le (by rw [hlen]; exact hroom)]
  have hlt := Nat.lt_of_not_le hroom
  rcases ht : b.supply.take (b.capacityFor (b.length + n)) with ⟨f | base, rest⟩
  · rw [reserve_refused hlt ht, reserve_refused (by rw [hlen]; exact hlt) (by rw [hlen]; exact ht)]
  · rw [reserve_granted hlt ht, reserve_granted (by rw [hlen]; exact hlt) (by rw [hlen]; exact ht),
      hlen]
    rfl

end CodeBuffer

/-! ## Calls that resolve one target -/

namespace Attempt

variable {σ α : Type}

def answer (x : Attempt σ α) (s : σ) : Except Fault α :=
  match x s with
  | .ok v _ => .ok v
  | .error f _ => .error f

def after (x : Attempt σ α) (s : σ) : σ :=
  match x s with
  | .ok _ s => s
  | .error _ s => s

variable {x : Attempt σ α} {s s' : σ} {v : α} {f : Fault}

theorem answer_of_ok (h : x s = .ok v s') : x.answer s = .ok v := by rw [answer, h]

theorem after_of_ok (h : x s = .ok v s') : x.after s = s' := by rw [after, h]

theorem answer_of_error (h : x s = .error f s') : x.answer s = .error f := by rw [answer, h]

theorem after_of_error (h : x s = .error f s') : x.after s = s' := by rw [after, h]

end Attempt

namespace Segment

variable {s s' s₁ s₂ s₃ s₄ r r' : Segment} {t t' target : GuestAddress} {d d' dest : Destination}
  {k k' : Nat} {x y : Attempt Segment (Nat × Option JumpRange)}

/-- A resolution of one target, to an address outside of the code or to an offset in it. -/
inductive ResolvesOne (target : GuestAddress) : Attempt Segment (Nat × Option JumpRange) → Prop
  | outside (host : HostAddress) : ResolvesOne target (resolve target host)
  | inside (offset : Int) : ResolvesOne target (resolveOffset target offset)

/-- Whether there is such an offset is all that a resolution asks of the code. -/
theorem ResolvesOne.cases (h : ResolvesOne target x) (n : Nat) :
    (∃ dest, ∀ s : Segment, n ≤ s.length → x s = resolveTo target dest s) ∨
    (∃ f, ∀ s : Segment, s.length = n → x s = .error f s) := by
  cases h with
  | outside host => exact .inl ⟨.outside host, fun s _ => rfl⟩
  | inside offset =>
    by_cases ho : 0 ≤ offset ∧ offset ≤ n
    · refine .inl ⟨.inside offset.toNat, fun s hs => ?_⟩
      rw [resolveOffset_eq, if_pos ⟨ho.1, by omega⟩]
    · refine .inr ⟨.misuse (.offsetOutside offset n), fun s hs => ?_⟩
      rw [resolveOffset_eq, hs, if_neg ho]

/-! ## Two targets -/

/-- The segments differ at most in the order of their patched sites. -/
structure SameSites (s s' : Segment) : Prop where
  buffer : s.buffer = s'.buffer
  pending : s.table.pending = s'.table.pending
  patched : s.table.patched.Perm s'.table.patched
  recorded : s.table.recorded = s'.table.recorded
  resolved : s.table.resolved = s'.table.resolved
  moves : s.moves = s'.moves

theorem SameSites.refl (s : Segment) : SameSites s s := ⟨rfl, rfl, .refl _, rfl, rfl, rfl⟩

theorem Advanced.waitingFor_of_ne (h : Advanced t d k s s') (hne : t ≠ t') :
    s'.waitingFor t' = s.waitingFor t' := by
  rw [waitingFor, h.kept, waiting_filter]
  refine List.filter_eq_self.mpr fun p hp => decide_eq_true fun hm => hne ?_
  exact (target_of_mem (List.mem_of_mem_take hm)).symm.trans (target_of_mem hp)

theorem Advanced.sameSites (hs : s.Placed) (hne : t ≠ t')
    (h₁ : Advanced t d k s s₁) (h₁₂ : Advanced t' d' k' s₁ s₂)
    (h₂ : Advanced t' d' k' s s₃) (h₂₁ : Advanced t d k s₃ s₄) : SameSites s₂ s₄ := by
  have hw := h₁.waitingFor_of_ne hne
  have hw' := h₂.waitingFor_of_ne hne.symm
  obtain ⟨hr, hh⟩ := h₁.followed h₁₂.toResolved hs
  obtain ⟨hr', hh'⟩ := h₂.followed h₂₁.toResolved hs
  rw [hw] at hr hh
  rw [hw'] at hr' hh'
  have hswap : (((s.waitingFor t').take k').map (·.leadingTo d') ++
      ((s.waitingFor t).take k).map (·.leadingTo d)).Perm _ := List.perm_append_comm
  refine ⟨?_, ?_, ?_, ?_, ?_, ?_⟩
  · exact hr.eq_of_holds _ (hr'.mono (hswap.map _).subset) hh
      fun q hq => hh' q (hswap.mem_iff.mpr hq)
  · rw [h₁₂.kept, h₂₁.kept, h₁.kept, h₂.kept, hw, hw', List.filter_filter, List.filter_filter]
    simp only [Bool.and_comm]
  · rw [h₁₂.patched, h₂₁.patched, h₁.patched, h₂.patched, hw, hw', List.append_assoc,
      List.append_assoc]
    exact hswap.symm.append_left _
  · rw [h₁₂.recorded, h₂₁.recorded, h₁.recorded, h₂.recorded]
  · rw [h₁₂.resolved, h₂₁.resolved, h₁.resolved, h₂.resolved, hw, hw', Nat.add_right_comm]
  · rw [h₁₂.moves, h₂₁.moves, h₁.moves, h₂.moves]

theorem Advanced.resolveTo_eq (h : Advanced t d k s s') (hs : s.Placed) (hne : t ≠ t')
    (d' : Destination) :
    ∃ s'', resolveTo t' d' s' = .ok (s.reachedBy t' d',
        (s.waitingFor t')[s.reachedBy t' d']?.map (Pending.shortfall s.buffer.address d')) s'' ∧
      Advanced t' d' (s.reachedBy t' d') s' s'' := by
  have hadv := Segment.resolveTo_eq (h.placed hs) t' d'
  rwa [reachedBy, h.waitingFor_of_ne hne, h.rewrites.address] at hadv

/-- The order in which two targets are resolved does not show. -/
theorem ResolvesOne.commute (hs : s.Placed) (hx : ResolvesOne t x) (hy : ResolvesOne t' y)
    (hne : t ≠ t') :
    y.answer (x.after s) = y.answer s ∧ x.answer (y.after s) = x.answer s ∧
      SameSites (y.after (x.after s)) (x.after (y.after s)) := by
  rcases hx.cases s.length with ⟨d, hx⟩ | ⟨f, hx⟩ <;>
    rcases hy.cases s.length with ⟨d', hy⟩ | ⟨f', hy⟩
  · obtain ⟨s₁, h₁, hadv₁⟩ := resolveTo_eq hs t d
    obtain ⟨s₃, h₂, hadv₂⟩ := resolveTo_eq hs t' d'
    obtain ⟨s₂, h₁₂, hadv₁₂⟩ := hadv₁.resolveTo_eq hs hne d'
    obtain ⟨s₄, h₂₁, hadv₂₁⟩ := hadv₂.resolveTo_eq hs hne.symm d
    rw [← hx s (Nat.le_refl _)] at h₁
    rw [← hy s (Nat.le_refl _)] at h₂
    rw [← hy s₁ (Nat.le_of_eq hadv₁.length.symm)] at h₁₂
    rw [← hx s₃ (Nat.le_of_eq hadv₂.length.symm)] at h₂₁
    rw [Attempt.after_of_ok h₁, Attempt.after_of_ok h₂, Attempt.after_of_ok h₁₂,
      Attempt.after_of_ok h₂₁, Attempt.answer_of_ok h₁, Attempt.answer_of_ok h₂,
      Attempt.answer_of_ok h₁₂, Attempt.answer_of_ok h₂₁]
    exact ⟨rfl, rfl, hadv₁.sameSites hs hne hadv₁₂ hadv₂ hadv₂₁⟩
  · obtain ⟨s₁, h₁, hadv₁⟩ := resolveTo_eq hs t d
    rw [← hx s (Nat.le_refl _)] at h₁
    rw [Attempt.after_of_ok h₁, Attempt.after_of_error (hy s rfl), Attempt.after_of_ok h₁,
      Attempt.after_of_error (hy s₁ hadv₁.length), Attempt.answer_of_error (hy s rfl),
      Attempt.answer_of_error (hy s₁ hadv₁.length)]
    exact ⟨rfl, rfl, .refl _⟩
  · obtain ⟨s₃, h₂, hadv₂⟩ := resolveTo_eq hs t' d'
    rw [← hy s (Nat.le_refl _)] at h₂
    rw [Attempt.after_of_ok h₂, Attempt.after_of_error (hx s rfl), Attempt.after_of_ok h₂,
      Attempt.after_of_error (hx s₃ hadv₂.length), Attempt.answer_of_error (hx s rfl),
      Attempt.answer_of_error (hx s₃ hadv₂.length)]
    exact ⟨rfl, rfl, .refl _⟩
  · rw [Attempt.after_of_error (hx s rfl), Attempt.after_of_error (hy s rfl),
      Attempt.after_of_error (hx s rfl)]
    exact ⟨rfl, rfl, .refl _⟩

/-! ## A target and a move -/

variable {chunk : List UInt8} {move : Move} {b : CodeBuffer}

/-- `s'` is `s` with `chunk` added behind a move of its code to the memory of `b`, from where
the sites that depend on the base lead to their destinations. -/
structure Moved (chunk : List UInt8) (move : Move) (b : CodeBuffer) (s s' : Segment) : Prop where
  bytes : b.bytes = s.buffer.bytes
  table : s'.table = s.table
  moves : s'.moves = move :: s.moves
  rewrites : Rewrites (dependents s.table.patched) (b.push chunk) s'.buffer
  holds : ∀ q ∈ s.table.patched, q.dependsOnBase = true → s'.buffer.Holds q

theorem moved_of_append (hs : s.Placed)
    (hr : s.buffer.reserve chunk.length = (.ok (some move), b))
    (hx : append chunk s = .ok () s') : Moved chunk move b s s' := by
  have hbytes := (reserve_reserved hr).bytes
  have hlen : b.length = s.length := congrArg Array.size hbytes
  have hin : ∀ q ∈ s.table.patched, q.field.stop ≤ b.length :=
    fun q hq => hlen ▸ hs.patched_inside hq
  obtain ⟨hrw, hpass⟩ := rebasePass_spec s.table.patched b hin hs.patched_apart
  rcases he : rebasePass b s.table.patched with ⟨c, stop⟩
  simp only [he] at hrw hpass
  simp only [append, hr, he] at hx
  cases stop with
  | some f => cases hx
  | none =>
    cases hx
    rcases hpass with ⟨⟨e, he⟩, -⟩ | ⟨-, hholds⟩
    · cases he
    refine ⟨hbytes, rfl, rfl, hrw.push chunk, fun q hq hd => ?_⟩
    exact holds_push (hholds q hq hd) (hrw.length ▸ hin q hq) chunk

namespace Moved

theorem length (h : Moved chunk move b s s') : s'.length = s.length + chunk.length := by
  rw [Segment.length, h.rewrites.length, length_push, CodeBuffer.length, h.bytes]
  rfl

theorem placed (h : Moved chunk move b s s') (hs : s.Placed) : s'.Placed :=
  hs.of_longer h.table (h.length ▸ Nat.le_add_right ..)

theorem holds_of_mem (h : Moved chunk move b s s') (hs : s.Placed) {q : Patched}
    (hq : q ∈ s.table.patched) (hh : s.buffer.Holds q) : s'.buffer.Holds q := by
  cases hd : q.dependsOnBase with
  | true => exact h.holds q hq hd
  | false =>
    have hin : q.field.stop ≤ b.length := by
      rw [CodeBuffer.length, h.bytes]
      exact hs.patched_inside hq
    rw [Holds, Patched.content_of_not_dependsOnBase hd s'.buffer.address s.buffer.address,
      h.rewrites.field_eq fun _ => hs.patched_apart_dependents hq hd, field_push chunk hin,
      field_congr (c := s.buffer) fun i _ => by rw [h.bytes]]
    exact hh

end Moved

theorem Advanced.table_eq (h : Advanced t d k s s') (h' : Advanced t d k r r')
    (ht : r.table = s.table) : r'.table = s'.table := by
  have hw : r.waitingFor t = s.waitingFor t := by rw [waitingFor, ht]
  change RelocationTable.mk r'.table.pending r'.table.patched r'.table.recorded r'.table.resolved =
    RelocationTable.mk s'.table.pending s'.table.patched s'.table.recorded s'.table.resolved
  rw [h'.kept, h'.patched, h'.recorded, h'.resolved, h.kept, h.patched, h.recorded, h.resolved,
    hw, ht]

/-- A target that is resolved before a move and one that is resolved behind it. -/
theorem Advanced.eq_of_moved (hs : s.Placed) (h : Advanced t d k s s₁)
    (hm : Moved chunk move { b with bytes := s₁.buffer.bytes } s₁ s₂)
    (hm' : Moved chunk move b s s₃) (h' : Advanced t d k s₃ s₄) : s₂ = s₄ := by
  have hw : s₃.waitingFor t = s.waitingFor t := by rw [waitingFor, hm'.table]
  obtain ⟨-, -, hp, -, -, -, hrw, hh⟩ := h.toResolved
  obtain ⟨-, -, -, -, -, -, hrw', hh'⟩ := h'.toResolved
  rw [hw] at hrw' hh'
  generalize ((s.waitingFor t).take k).map (·.leadingTo d) = new at hp hrw hh hrw' hh'
  have hbuffer : s₂.buffer = s₄.buffer := by
    -- both ways write the sites that depend on the base, and the new ones
    refine Rewrites.eq_of_holds (b := b.push chunk)
      (s.table.patched.filter (·.dependsOnBase) ++ new) ?_ ?_ ?_ ?_
    · rw [List.map_append]
      refine (((hrw.withBytes hm'.bytes).push chunk).mono (List.subset_append_right ..)).trans
        (hm.rewrites.mono ?_)
      rw [hp, dependents, List.filter_append, List.map_append]
      exact List.append_subset.mpr ⟨List.subset_append_left .., fun f hf =>
        List.mem_append_right _ (dependents_subset new hf)⟩
    · rw [List.map_append]
      exact (hm'.rewrites.mono (List.subset_append_left ..)).trans
        (hrw'.mono (List.subset_append_right ..))
    · intro q hq
      rcases List.mem_append.mp hq with hq | hq
      · obtain ⟨hq, hd⟩ := List.mem_filter.mp hq
        exact hm.holds q (hp ▸ List.mem_append_left _ hq) hd
      · exact hm.holds_of_mem (h.placed hs) (hp ▸ List.mem_append_right _ hq) (hh q hq)
    · intro q hq
      rcases List.mem_append.mp hq with hq | hq
      · obtain ⟨hq, hd⟩ := List.mem_filter.mp hq
        exact h'.holds_of_mem (hm'.placed hs) (hm'.table ▸ hq) (hm'.holds q hq hd)
      · exact hh' q hq
  change Segment.mk s₂.buffer s₂.table s₂.moves = Segment.mk s₄.buffer s₄.table s₄.moves
  rw [hbuffer, hm.table, ← h.table_eq h' hm'.table, hm.moves, h.moves, h'.moves, hm'.moves]

theorem resolveTo_all (hs : s.Placed) {n : Nat} (hx : resolveTo t d s = .ok (n, none) s') :
    n = (s.waitingFor t).length ∧ Advanced t d (s.waitingFor t).length s s' := by
  obtain ⟨s'', hx', hadv⟩ := resolveTo_eq hs t d
  injection hx.symm.trans hx' with hv hs'
  obtain ⟨hn, he⟩ := Prod.mk.inj hv
  have hle : (s.waitingFor t).length ≤ s.reachedBy t d :=
    List.getElem?_eq_none_iff.mp (Option.map_eq_none_iff.mp he.symm)
  have hall := Nat.le_antisymm (s.reachedBy_le t d) hle
  rw [hall, ← hs'] at hadv
  exact ⟨hn.trans hall, hadv⟩

/-- Resolutions of two targets answer the same in either order and leave the same code, with
the same sites. And a resolution that succeeds both before and behind a move of the code comes
to the same before and behind it. -/
theorem resolutions_commute (hs : s.Placed) (hx : ResolvesOne t x) (hy : ResolvesOne t' y) :
    (t ≠ t' → y.answer (x.after s) = y.answer s ∧ x.answer (y.after s) = x.answer s ∧
      SameSites (y.after (x.after s)) (x.after (y.after s))) ∧
    ∀ chunk move b n n' s₁ s₂ s₃ s₄,
      s.buffer.reserve chunk.length = (.ok (some move), b) →
      x s = .ok (n, none) s₁ → append chunk s₁ = .ok () s₂ →
      append chunk s = .ok () s₃ → x s₃ = .ok (n', none) s₄ → n = n' ∧ s₂ = s₄ := by
  refine ⟨hx.commute hs hy, fun chunk move b n n' s₁ s₂ s₃ s₄ hr h₁ h₂ h₃ h₄ => ?_⟩
  rcases hx.cases s.length with ⟨d, hx⟩ | ⟨f, hx⟩
  · have hm' := moved_of_append hs hr h₃
    rw [hx s (Nat.le_refl _)] at h₁
    rw [hx s₃ (hm'.length ▸ Nat.le_add_right ..)] at h₄
    obtain ⟨hn, hadv⟩ := resolveTo_all hs h₁
    obtain ⟨hn', hadv'⟩ := resolveTo_all (hm'.placed hs) h₄
    have hr₁ : s₁.buffer.reserve chunk.length =
        (.ok (some move), { b with bytes := s₁.buffer.bytes }) := by
      rw [hadv.rewrites.rest, reserve_withBytes hadv.rewrites.length, hr]
    have hm := moved_of_append (hadv.placed hs) hr₁ h₂
    rw [waitingFor, hm'.table] at hn' hadv'
    exact ⟨hn.trans hn'.symm, hadv.eq_of_moved hs hm hm' hadv'⟩
  · cases h₁.symm.trans (hx s rfl)

/-- The segment with memory at another address in store. -/
def crossingAhead : Segment :=
  { crossing with buffer := { crossing.buffer with supply := .listed [.ok 0x80002010] } }

/-- One of two resolutions stops before its last site, in either order. A third one succeeds, and
the code moves before or behind it. -/
theorem resolutions_commute_crossing :
    crossingAhead.Placed ∧
    (let x := resolve 7 0x15
      let y := resolveOffset 9 20
      x.answer crossingAhead = .ok (2, some ⟨16, -0x8000000f, 32⟩) ∧
      x.answer (y.after crossingAhead) = .ok (2, some ⟨16, -0x8000000f, 32⟩) ∧
      y.answer (x.after crossingAhead) = .ok (1, none) ∧
      SameSites (y.after (x.after crossingAhead)) (x.after (y.after crossingAhead))) ∧
    let z := resolve 7 0x90000000
    let chunk := List.replicate 16 0x90
    ∃ s₁ s₂ s₃, z crossingAhead = .ok (3, none) s₁ ∧ append chunk s₁ = .ok () s₂ ∧
      append chunk crossingAhead = .ok () s₃ ∧ z s₃ = .ok (3, none) s₂ ∧
      s₂.buffer.address = 0x80002010 := by
  have hplaced : crossingAhead.Placed := ⟨by decide, by decide⟩
  have hx : ResolvesOne 7 (resolve 7 0x15) := .outside _
  have hy : ResolvesOne 9 (resolveOffset 9 20) := .inside _
  have hz : ResolvesOne 7 (resolve 7 0x90000000) := .outside _
  obtain ⟨hy', hx', hsame⟩ := (resolutions_commute hplaced hx hy).1 (by decide)
  refine ⟨hplaced, ⟨by decide +kernel, hx'.trans (by decide +kernel),
    hy'.trans (by decide +kernel), hsame⟩, ?_⟩
  have hbefore : returned (fun v s₁ => v == (3, none) && returned
      (fun _ s₂ => s₂.buffer.address == 0x80002010) (append (List.replicate 16 0x90) s₁))
      (resolve 7 0x90000000 crossingAhead) = true := by decide +kernel
  have hbehind : returned (fun _ s₃ => returned (fun v _ => v == (3, none))
      (resolve 7 0x90000000 s₃)) (append (List.replicate 16 0x90) crossingAhead) = true := by
    decide +kernel
  obtain ⟨v, s₁, h₁, hrest⟩ := exists_of_returned hbefore
  obtain ⟨hv, hrest⟩ := Bool.and_eq_true_iff.mp hrest
  obtain ⟨⟨⟩, s₂, h₂, haddr⟩ := exists_of_returned hrest
  obtain ⟨⟨⟩, s₃, h₃, hrest⟩ := exists_of_returned hbehind
  obtain ⟨v', s₄, h₄, hv'⟩ := exists_of_returned hrest
  cases eq_of_beq hv
  cases eq_of_beq hv'
  obtain ⟨-, rfl⟩ := (resolutions_commute hplaced hz hy).2 (List.replicate 16 0x90)
    ⟨0x80000010, 0x80002010, 8224⟩ _ 3 3 s₁ s₂ s₃ s₄ rfl h₁ h₂ h₃ h₄
  exact ⟨s₁, s₂, s₃, h₁, h₂, h₃, h₄, eq_of_beq haddr⟩

end Segment

end HostCode
