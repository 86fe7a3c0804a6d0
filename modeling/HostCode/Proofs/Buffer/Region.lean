import HostCode.Proofs.Attempt
import HostCode.Proofs.Buffer.Refinement

/-! # A buffer in memory

The bytes of a buffer lie at the start of a region of memory. What is discarded stays where it is
until it is written over, and a region that is too small is exchanged for a larger one, which
comes with whatever was in it. Nothing that can be asked of the buffer depends on what lies behind
the bytes in use.
-/

namespace HostCode

open CodeBuffer

/-- A region of memory, of which the first `written` bytes are in use. -/
structure Region where
  supply : Supply
  growth : Int
  releaseError : Option String := none
  cells : Array UInt8 := #[]
  written : Nat := 0
  base : HostAddress := 0
  grows : Nat := 0
  /-- The changes of the base that were reported, the latest first. -/
  moves : List Move := []
  fits : written ≤ cells.size

namespace Region

/-- What can be seen of a region. -/
def view (r : Region) : CodeBuffer where
  supply := r.supply
  growth := r.growth
  releaseError := r.releaseError
  bytes := r.cells.take r.written
  capacity := r.cells.size
  base := r.base
  grows := r.grows

/-- The region that is granted for this one, with a copy of the bytes in use. Behind them is what
the memory came with. A change of the base is reported. -/
def exchange (junk : Nat → UInt8) (want : Nat) (base : HostAddress) (supply : Supply)
    (r : Region) : Region :=
  { r with
    supply, base
    cells := .ofFn fun i : Fin (r.view.capacityFor want) =>
      if i < r.written then r.cells.getD i 0 else junk i
    grows := r.grows + 1
    moves := (if r.view.address ≠ 0 ∧ base ≠ r.view.address
      then [⟨r.view.address, base, r.view.capacityFor want⟩] else []) ++ r.moves
    fits := Nat.le_trans r.fits (Nat.le_trans (Nat.le_add_right ..) (Nat.le_of_eq
      Array.size_ofFn.symm)) }

def reserve (junk : Nat → UInt8) (count : Nat) : Attempt Region Unit := fun r =>
  if r.written + count ≤ r.cells.size then .ok () r else
  match r.supply.take (r.view.capacityFor (r.written + count)) with
  | (.error f, supply) => .error f { r with supply }
  | (.ok base, supply) => .ok () (r.exchange junk (r.written + count) base supply)

def push (chunk : List UInt8) (r : Region) : Region :=
  if room : r.written + chunk.length ≤ r.cells.size then
    { r with
      cells := overwrite r.cells r.written chunk
      written := r.written + chunk.length
      fits := Nat.le_trans room (Nat.le_of_eq (size_overwrite ..).symm) }
  else r

def append (junk : Nat → UInt8) (chunk : List UInt8) : Attempt Region Unit := do
  reserve junk chunk.length
  modify (push chunk)

def patch (offset : Int) (chunk : List UInt8) : Attempt Region Unit := fun r =>
  match r.view.place chunk.length offset with
  | .ok i =>
    .ok () { r with
      cells := overwrite r.cells i chunk
      fits := Nat.le_trans r.fits (Nat.le_of_eq (size_overwrite ..).symm) }
  | .error f => .error f r

def read (count : Nat) (offset : Int) : Attempt Region Nat := fun r =>
  match r.view.place count offset with
  | .ok i => .ok (ofLittleEndian (r.cells.extract i (i + count)).toList) r
  | .error f => .error f r

/-- Takes bytes out of use. They stay in memory. -/
def truncate (offset : Int) : Attempt Region Unit := fun r =>
  if h : 0 ≤ offset ∧ offset ≤ r.written then
    .ok () { r with
      written := offset.toNat
      fits := Nat.le_trans (Int.toNat_le.mpr h.2) r.fits }
  else .error (.misuse (.truncation offset r.written)) r

def reset (r : Region) : Region := { r with written := 0, fits := Nat.zero_le _ }

def release (r : Region) : Except String Region :=
  if r.cells.size = 0 then .ok r else
  match r.releaseError with
  | some text => .error text
  | none => .ok { r with cells := #[], written := 0, fits := Nat.zero_le _ }

end Region

/-- The access to a region, where memory that is granted comes with `junk`. -/
def Access.onRegion (junk : Nat → UInt8) : Access → Attempt Region (Option Nat)
  | append chunk => do
    Region.append junk chunk
    return none
  | number s v => do
    Region.append junk (littleEndian s.bytes v)
    return none
  | patch s offset v => do
    Region.patch offset (littleEndian s.bytes v)
    return none
  | read s offset => do
    let n ← Region.read s.bytes offset
    return some n
  | truncate offset => do
    Region.truncate offset
    return none
  | reset => do
    modify Region.reset
    return none

/-! ## Bytes in use -/

theorem toList_take (bytes : Array UInt8) (n : Nat) :
    (bytes.take n).toList = bytes.toList.take n := by
  rw [Array.take_eq_extract, Array.toList_extract, List.extract_eq_take_drop]
  rfl

namespace Region

variable {r : Region} {junk : Nat → UInt8} {chunk : List UInt8} {i n : Nat} {offset : Int}

@[simp] theorem length_view (r : Region) : r.view.length = r.written := by
  rw [CodeBuffer.length, view, ← Array.length_toList, toList_take, List.length_take,
    Array.length_toList]
  exact Nat.min_eq_left r.fits

theorem view_exchange (junk : Nat → UInt8) (want : Nat) (base : HostAddress) (supply : Supply)
    (r : Region) : (r.exchange junk want base supply).view = r.view.grown want base supply := by
  have hcells : (r.exchange junk want base supply).cells.take r.written =
      r.cells.take r.written := by
    apply Array.toList_inj.mp
    rw [toList_take, toList_take]
    apply List.ext_getElem?
    intro i
    rw [List.getElem?_take, List.getElem?_take]
    split
    · next hi =>
      have hin : i < r.cells.size := Nat.lt_of_lt_of_le hi r.fits
      have hroom : i < r.view.capacityFor want := Nat.lt_of_lt_of_le hin (Nat.le_add_right ..)
      simp [exchange, hi, hin, hroom]
    · rfl
  have hsize : (r.exchange junk want base supply).cells.size = r.view.capacityFor want :=
    Array.size_ofFn
  simp only [view, grown, hsize]
  exact congrArg (CodeBuffer.mk _ _ _ · _ _ _) hcells

theorem view_push (room : r.written + chunk.length ≤ r.cells.size) :
    (r.push chunk).view = r.view.push chunk := by
  have hbytes : (overwrite r.cells r.written chunk).take (r.written + chunk.length) =
      r.cells.take r.written ++ chunk := by
    have hlen : (r.cells.toList.take r.written ++ chunk).length = r.written + chunk.length := by
      rw [List.length_append, List.length_take, Array.length_toList, Nat.min_eq_left r.fits]
    apply Array.toList_inj.mp
    rw [toList_take, toList_overwrite room, Array.toList_appendList, toList_take,
      List.take_left' hlen]
  rw [push, dif_pos room]
  simp only [view, CodeBuffer.push, size_overwrite]
  exact congrArg (CodeBuffer.mk _ _ _ · _ _ _) hbytes

theorem take_overwrite {cells : Array UInt8} (h : i + chunk.length ≤ n) (hn : n ≤ cells.size) :
    (overwrite cells i chunk).take n = overwrite (cells.take n) i chunk := by
  have hsize : (cells.take n).size = n := by
    rw [← Array.length_toList, toList_take, List.length_take, Array.length_toList]
    exact Nat.min_eq_left hn
  have hlen : (cells.toList.take i ++ chunk).length = i + chunk.length := by
    rw [List.length_append, List.length_take, Array.length_toList, Nat.min_eq_left (by omega)]
  apply Array.toList_inj.mp
  rw [toList_take, toList_overwrite (by omega), toList_overwrite (by omega), toList_take,
    List.take_append, hlen, List.take_of_length_le (by omega), List.take_take, List.drop_take,
    Nat.min_eq_left (by omega)]

theorem view_release (r : Region) : r.release.map view = r.view.release := by
  by_cases hnone : r.cells.size = 0
  · have hcapacity : r.view.capacity = 0 := hnone
    rw [release, if_pos hnone, CodeBuffer.release, if_pos hcapacity]
    rfl
  · have hcapacity : r.view.capacity ≠ 0 := hnone
    have herror : r.view.releaseError = r.releaseError := rfl
    rw [release, if_neg hnone, CodeBuffer.release, if_neg hcapacity, herror]
    cases r.releaseError <;> rfl

end Region

theorem CodeBuffer.le_of_place {b : CodeBuffer} {n i : Nat} {offset : Int}
    (h : b.place n offset = .ok i) : i + n ≤ b.length := by
  unfold place at h
  split at h
  · cases h
    omega
  · split at h <;> cases h

/-! ## One access -/

/-- A region that looks like the buffer of a segment without sites. -/
structure Region.Lies (r : Region) (s : Segment) : Prop where
  buffer : s.buffer = r.view
  moves : s.moves = r.moves
  siteless : s.table.patched = []

/-- Both give the same answer or the same fault, and leave a region that looks like the buffer. -/
def Region.Agree {α : Type} :
    EStateM.Result Fault Region α → EStateM.Result Fault Segment α → Prop
  | .ok v r, .ok v' s => v = v' ∧ r.Lies s
  | .error f r, .error f' s => f = f' ∧ r.Lies s
  | _, _ => False

/-- The attempts agree on every region and the buffer that it looks like. -/
def Region.Simulates {α : Type} (x : Attempt Region α) (y : Attempt Segment α) : Prop :=
  ∀ r s, r.Lies s → Agree (x r) (y s)

namespace Region

variable {α β : Type} {x : Attempt Region α} {y : Attempt Segment α}

theorem Simulates.bind {k : α → Attempt Region β} {l : α → Attempt Segment β}
    (h : Simulates x y) (hk : ∀ v, Simulates (k v) (l v)) : Simulates (x >>= k) (y >>= l) := by
  intro r s hrs
  have hfirst := h r s hrs
  change Agree (EStateM.bind x k r) (EStateM.bind y l s)
  unfold EStateM.bind
  cases hx : x r with
  | ok v r' =>
    cases hy : y s with
    | ok v' s' =>
      rw [hx, hy] at hfirst
      obtain ⟨rfl, hlies⟩ := hfirst
      exact hk v r' s' hlies
    | error f s' => rw [hx, hy] at hfirst; exact hfirst.elim
  | error f r' =>
    cases hy : y s with
    | ok v' s' => rw [hx, hy] at hfirst; exact hfirst.elim
    | error f' s' => rw [hx, hy] at hfirst; exact hfirst

theorem Simulates.pure (v : α) : Simulates (Pure.pure v) (Pure.pure v) :=
  fun _ _ h => ⟨rfl, h⟩

variable {r : Region} {s : Segment} {junk : Nat → UInt8} {chunk : List UInt8}

theorem Lies.length_eq (h : r.Lies s) : s.length = r.written := by
  rw [Segment.length, h.buffer, length_view]

theorem Lies.capacity_eq (h : r.Lies s) : s.buffer.capacity = r.cells.size := by rw [h.buffer]; rfl

theorem moves_push (chunk : List UInt8) (r : Region) : (r.push chunk).moves = r.moves := by
  unfold push
  split <;> rfl

theorem append_of_reserve {r' : Region} (h : reserve junk chunk.length r = .ok () r') :
    append junk chunk r = .ok () (r'.push chunk) := by
  change EStateM.bind _ _ r = _
  rw [EStateM.bind, h]
  rfl

theorem append_refused {f : Fault} {r' : Region} (h : reserve junk chunk.length r = .error f r') :
    append junk chunk r = .error f r' := by
  change EStateM.bind _ _ r = _
  rw [EStateM.bind, h]

theorem simulates_append (junk : Nat → UInt8) (chunk : List UInt8) :
    Simulates (append junk chunk) (Segment.append chunk) := by
  intro r s h
  by_cases hroom : r.written + chunk.length ≤ r.cells.size
  · have hreserve : reserve junk chunk.length r = .ok () r := if_pos hroom
    rw [append_of_reserve hreserve, Segment.append_of_le (by rwa [h.length_eq, h.capacity_eq])]
    refine ⟨rfl, ?_, h.moves.trans (moves_push chunk r).symm, h.siteless⟩
    rw [view_push hroom, ← h.buffer]
  · have hlt : s.buffer.capacity < s.length + chunk.length := by
      rw [h.capacity_eq, h.length_eq]
      omega
    have htake : s.buffer.supply.take (s.buffer.capacityFor (s.length + chunk.length)) =
        r.supply.take (r.view.capacityFor (r.written + chunk.length)) := by
      rw [h.length_eq, h.buffer]
      rfl
    rcases ht : r.supply.take (r.view.capacityFor (r.written + chunk.length)) with ⟨f | base, rest⟩
    · have hreserve : reserve junk chunk.length r = .error f { r with supply := rest } := by
        rw [reserve, if_neg hroom, ht]
      rw [append_refused hreserve, Segment.append_refused hlt (htake.trans ht)]
      exact ⟨rfl, by rw [h.buffer]; rfl, h.moves, h.siteless⟩
    · have hreserve : reserve junk chunk.length r =
          .ok () (r.exchange junk (r.written + chunk.length) base rest) := by
        rw [reserve, if_neg hroom, ht]
      have hnew : (r.exchange junk (r.written + chunk.length) base rest).written + chunk.length ≤
          (r.exchange junk (r.written + chunk.length) base rest).cells.size :=
        Nat.le_trans (r.view.le_capacityFor _) (Nat.le_of_eq Array.size_ofFn.symm)
      rw [append_of_reserve hreserve, Segment.append_granted h.siteless hlt (htake.trans ht)]
      refine ⟨rfl, ?_, ?_, h.siteless⟩
      · rw [view_push hnew, view_exchange, h.buffer, h.length_eq]
      · rw [moves_push, h.buffer, h.length_eq, h.moves]
        rfl

theorem simulates_patch (offset : Int) (chunk : List UInt8) :
    Simulates (patch offset chunk) (Segment.patch offset chunk) := by
  intro r s h
  rw [patch, Segment.patch, CodeBuffer.patch, h.buffer]
  cases hplace : r.view.place chunk.length offset with
  | error f => exact ⟨rfl, h.buffer, h.moves, h.siteless⟩
  | ok i =>
    have hin : i + chunk.length ≤ r.written := r.length_view ▸ le_of_place hplace
    refine ⟨rfl, ?_, h.moves, h.siteless⟩
    simp only [view, size_overwrite]
    exact congrArg (CodeBuffer.mk _ _ _ · _ _ _) (take_overwrite hin r.fits).symm

theorem simulates_read (w : Size) (offset : Int) :
    Simulates (do let n ← read w.bytes offset; return some n) (Access.read w offset).run := by
  intro r s h
  change Agree (EStateM.bind _ _ r) _
  simp only [EStateM.bind, read, Access.run, CodeBuffer.read, h.buffer]
  cases hplace : r.view.place w.bytes offset with
  | error f => exact ⟨rfl, h⟩
  | ok i =>
    have hin : i + w.bytes ≤ r.written := r.length_view ▸ le_of_place hplace
    refine ⟨congrArg (fun bytes => some (ofLittleEndian bytes)) ?_, h⟩
    rw [slice_eq, view, toList_take, Array.toList_extract, List.extract_eq_take_drop,
      List.drop_take, List.take_take, Nat.add_sub_cancel_left, Nat.min_eq_left (by omega)]

theorem simulates_truncate (offset : Int) :
    Simulates (truncate offset) (Segment.truncateBuffer offset) := by
  intro r s h
  rw [truncate, Segment.truncateBuffer, CodeBuffer.truncate, h.buffer, length_view]
  by_cases hin : 0 ≤ offset ∧ offset ≤ r.written
  · rw [dif_pos hin, if_pos hin]
    refine ⟨rfl, congrArg (CodeBuffer.mk _ _ _ · _ _ _) ?_, h.moves, h.siteless⟩
    apply Array.toList_inj.mp
    rw [toList_take, view, toList_take, toList_take, List.take_take, Nat.min_eq_left (by omega)]
  · rw [dif_neg hin, if_neg hin]
    exact ⟨rfl, h⟩

theorem simulates_reset : Simulates (modify reset) (modify Segment.resetBuffer) := by
  intro r s h
  refine ⟨rfl, ?_, h.moves, h.siteless⟩
  rw [Segment.resetBuffer, h.buffer]
  refine congrArg (CodeBuffer.mk _ _ _ · _ _ _) (Array.toList_inj.mp ?_)
  rw [toList_take]
  rfl

end Region

/-- An access to a region and one to the buffer that it looks like. -/
theorem Access.simulates (junk : Nat → UInt8) (a : Access) :
    Region.Simulates (a.onRegion junk) a.run := by
  cases a with
  | append chunk => exact (Region.simulates_append junk chunk).bind fun _ => .pure none
  | number w v => exact (Region.simulates_append junk _).bind fun _ => .pure none
  | patch w offset v => exact (Region.simulates_patch offset _).bind fun _ => .pure none
  | read w offset => exact Region.simulates_read w offset
  | truncate offset => exact (Region.simulates_truncate offset).bind fun _ => .pure none
  | reset => exact Region.simulates_reset.bind fun _ => .pure none

/-! ## Runs -/

def Access.answer (junk : Nat → UInt8) (a : Access) (r : Region) : Except Fault (Option Nat) :=
  match a.onRegion junk r with
  | .ok v _ => .ok v
  | .error f _ => .error f

namespace Region

def step (r : Region) (x : Access × (Nat → UInt8)) : Region :=
  match x.1.onRegion x.2 r with
  | .ok _ r' => r'
  | .error _ r' => r'

/-- One access after the other, each with what comes with the memory that is granted to it. -/
def steps (r : Region) (xs : List (Access × (Nat → UInt8))) : Region := xs.foldl step r

variable {r r' : Region} {s : Segment} {increment : Nat} {l : Ledger}

theorem Lies.step (h : r.Lies s) (x : Access × (Nat → UInt8)) :
    (r.step x).Lies (x.1.step increment (s, l)).1 := by
  have hagree := x.1.simulates x.2 r s h
  rcases hr : x.1.onRegion x.2 r with ⟨v, r'⟩ | ⟨f, r'⟩ <;>
    rcases hs : x.1.run s with ⟨v', s'⟩ | ⟨f', s'⟩ <;>
    simp only [hr, hs, Agree] at hagree
  · simp only [Region.step, Access.step, hr, hs]
    exact hagree.2
  · simp only [Region.step, Access.step, hr, hs]
    exact hagree.2

theorem Lies.steps (h : r.Lies s) (xs : List (Access × (Nat → UInt8))) :
    (r.steps xs).Lies (Access.steps increment (xs.map Prod.fst) (s, l)).1 := by
  induction xs generalizing r s l with
  | nil => exact h
  | cons x xs ih => exact ih (h.step x)

theorem Lies.answer_eq (h : r.Lies s) (h' : r'.Lies s) (a : Access) (junk junk' : Nat → UInt8) :
    a.answer junk r = a.answer junk' r' := by
  have hagree := a.simulates junk r s h
  have hagree' := a.simulates junk' r' s h'
  unfold Access.answer
  rcases hr : a.onRegion junk r with ⟨v, r₁⟩ | ⟨f, r₁⟩ <;>
    rcases hr' : a.onRegion junk' r' with ⟨v', r₂⟩ | ⟨f', r₂⟩ <;>
    rcases hs : a.run s with ⟨w, s'⟩ | ⟨g, s'⟩ <;>
    simp only [hr, hr', hs, Agree] at hagree hagree'
  · exact congrArg Except.ok (hagree.1.trans hagree'.1.symm)
  · exact congrArg Except.error (hagree.1.trans hagree'.1.symm)

/-- Whatever is done to a region, and whatever was in the memory that was granted to it: the bytes
in use are what the accesses that did not break off make of a plain list. The region looks like a
buffer with these bytes only, and the next access ends as it does there. -/
theorem bytes_in_use {supply : Supply} (h : supply.NeverZero) (growth : Int)
    (before : List (Access × (Nat → UInt8))) :
    let increment := if growth ≤ 0 then 8192 else growth.toNat
    let r := Region.steps { supply, growth, fits := Nat.le_refl _ } before
    let x := Access.steps increment (before.map Prod.fst) ({ buffer := { supply, growth } }, {})
    r.cells.toList.take r.written = x.2.bytes ∧ r.Lies x.1 ∧
      ∀ (a : Access) junk, Agree (a.onRegion junk r) (a.run x.1) := by
  intro increment r x
  have hlies : r.Lies x.1 := Lies.steps ⟨rfl, rfl, rfl⟩ before
  have hx := (Ledger.Keeps.new h growth).steps (before.map Prod.fst)
  refine ⟨?_, hlies, fun a junk => a.simulates junk r x.1 hlies⟩
  rw [← hx.bytes, hlies.buffer, view, toList_take]

/-- Of two regions that look alike, no access tells which one it is made to. This stays so after any
accesses, whatever lies behind the bytes in use and whatever comes with new memory. -/
theorem answers_agree (hview : r.view = r'.view) (hmoves : r.moves = r'.moves)
    {xs xs' : List (Access × (Nat → UInt8))} (hsame : xs.map Prod.fst = xs'.map Prod.fst) :
    (r.steps xs).view = (r'.steps xs').view ∧ (r.steps xs).moves = (r'.steps xs').moves ∧
      ∀ (a : Access) junk junk', a.answer junk (r.steps xs) = a.answer junk' (r'.steps xs') := by
  -- Both look like one buffer, whose accesses leave them looking alike.
  let x : Segment × Ledger := (⟨r.view, {}, r.moves⟩, {})
  have hlies : (r.steps xs).Lies (Access.steps 0 (xs.map Prod.fst) x).1 :=
    .steps ⟨rfl, rfl, rfl⟩ xs
  have hlies' : (r'.steps xs').Lies (Access.steps 0 (xs'.map Prod.fst) x).1 :=
    .steps ⟨hview, hmoves, rfl⟩ xs'
  rw [← hsame] at hlies'
  refine ⟨hlies.buffer.symm.trans hlies'.buffer, hlies.moves.symm.trans hlies'.moves, ?_⟩
  exact fun a junk junk' => hlies.answer_eq hlies' a junk junk'

end Region

end HostCode
