import HostCode.Operand
import HostCode.Segment
import HostCode.Proofs.Buffer.Growth

/-! # A buffer is a list of bytes

Whatever is done to a buffer, its bytes are what the same accesses make of a plain list. An
access that breaks off changes nothing. Memory is asked for only when the bytes do not fit, in
whole increments and no more than are needed, and each change of the address is reported once.
-/

namespace HostCode

open CodeBuffer

/-- An access to a buffer. Numbers are written and read in a given size. -/
inductive Access
  | append (chunk : List UInt8)
  | number (s : Size) (value : Nat)
  | patch (s : Size) (offset : Int) (value : Nat)
  | read (s : Size) (offset : Int)
  | truncate (offset : Int)
  | reset
  deriving DecidableEq, Repr

namespace Access

def silent (x : Attempt Segment Unit) : Attempt Segment (Option Nat) := do
  x
  return none

def run : Access → Attempt Segment (Option Nat)
  | append chunk => silent (Segment.append chunk)
  | number s v => silent (Segment.append (littleEndian s.bytes v))
  | patch s offset v => silent (Segment.patch offset (littleEndian s.bytes v))
  | read s offset => fun x =>
    match x.buffer.read s.bytes offset with
    | .ok n => .ok (some n) x
    | .error f => .error f x
  | truncate offset => silent (Segment.truncateBuffer offset)
  | reset => silent (modify Segment.resetBuffer)

/-- The same access to a plain list, which fails if it reaches out of it. -/
def onList : Access → List UInt8 → Option (Option Nat × List UInt8)
  | append chunk, l => some (none, l ++ chunk)
  | number s v, l => some (none, l ++ littleEndian s.bytes v)
  | patch s offset v, l =>
    if 0 ≤ offset ∧ offset + s.bytes ≤ l.length then
      some (none,
        l.take offset.toNat ++ littleEndian s.bytes v ++ l.drop (offset.toNat + s.bytes))
    else none
  | read s offset, l =>
    if 0 ≤ offset ∧ offset + s.bytes ≤ l.length then
      some (some (ofLittleEndian ((l.drop offset.toNat).take s.bytes)), l)
    else none
  | truncate offset, l =>
    if 0 ≤ offset ∧ offset ≤ l.length then some (none, l.take offset.toNat) else none
  | reset, _ => some (none, [])

def added : Access → List UInt8
  | append chunk => chunk
  | number s v => littleEndian s.bytes v
  | _ => []

def want (a : Access) (s : Segment) : Nat := s.length + a.added.length

end Access

/-- What an observer knows of a buffer: the list that its bytes should be, and the bases of the
regions that were granted to it, the latest first. -/
structure Ledger where
  bytes : List UInt8 := []
  bases : List HostAddress := []
  deriving DecidableEq, Repr

def roundUp (unit n : Nat) : Nat := (n + unit - 1) / unit * unit

theorem roundUp_least {unit : Nat} (h : 0 < unit) (n : Nat) :
    unit ∣ roundUp unit n ∧ n ≤ roundUp unit n ∧
      ∀ k, unit ∣ k → n ≤ k → roundUp unit n ≤ k := by
  refine ⟨Nat.dvd_mul_left .., ?_, ?_⟩
  · have hd := Nat.div_add_mod (n + unit - 1) unit
    have hm := Nat.mod_lt (n + unit - 1) h
    rw [Nat.mul_comm] at hd
    unfold roundUp
    omega
  · rintro k ⟨q, rfl⟩ hle
    have hq : (n + unit - 1) / unit ≤ q := by
      calc (n + unit - 1) / unit ≤ (unit * q + (unit - 1)) / unit := Nat.div_le_div_right (by omega)
        _ = q := by rw [Nat.mul_add_div h, Nat.div_eq_of_lt (by omega), Nat.add_zero]
    rw [roundUp, Nat.mul_comm unit q]
    exact Nat.mul_le_mul_right unit hq

namespace Access

/-- The base of the region that is granted, if the access needs one. -/
def grant? (increment : Nat) (a : Access) (s : Segment) : Option HostAddress :=
  if a.want s ≤ s.buffer.capacity then none
  else (s.buffer.supply.take (roundUp increment (a.want s))).1.toOption

/-- The access to a buffer, and to the list beside it unless it breaks off. -/
def step (increment : Nat) (a : Access) : Segment × Ledger → Segment × Ledger
  | (s, l) =>
    match a.run s with
    | .ok _ s' =>
      (s', ⟨((a.onList l.bytes).map Prod.snd).getD l.bytes,
        (a.grant? increment s).toList ++ l.bases⟩)
    | .error _ s' => (s', l)

def steps (increment : Nat) (as : List Access) (x : Segment × Ledger) : Segment × Ledger :=
  as.foldl (fun x a => a.step increment x) x

end Access

/-- The changes from one base to another, the latest first. -/
def baseChanges : List HostAddress → List (HostAddress × HostAddress)
  | new :: old :: rest =>
    if new = old then baseChanges (old :: rest) else (old, new) :: baseChanges (old :: rest)
  | _ => []

namespace CodeBuffer

variable {b : CodeBuffer} {n : Nat}

/-! ## Making room -/

def grown (b : CodeBuffer) (want : Nat) (base : HostAddress) (rest : Supply) : CodeBuffer :=
  { b with supply := rest, base, capacity := b.capacityFor want, grows := b.grows + 1 }

theorem reserve_of_le (h : b.length + n ≤ b.capacity) : b.reserve n = (.ok none, b) := by
  rw [reserve, if_pos h]

theorem reserve_refused {f : Fault} {rest : Supply} (h : b.capacity < b.length + n)
    (ht : b.supply.take (b.capacityFor (b.length + n)) = (.error f, rest)) :
    b.reserve n = (.error f, { b with supply := rest }) := by
  simp only [reserve, if_neg (Nat.not_le_of_lt h), ht]

theorem reserve_granted {base : HostAddress} {rest : Supply} (h : b.capacity < b.length + n)
    (ht : b.supply.take (b.capacityFor (b.length + n)) = (.ok base, rest)) :
    b.reserve n = (.ok (if b.address ≠ 0 ∧ base ≠ b.address
      then some ⟨b.address, base, b.capacityFor (b.length + n)⟩ else none),
      b.grown (b.length + n) base rest) := by
  have hpos : b.capacityFor (b.length + n) ≠ 0 := by
    have := b.le_capacityFor (b.length + n)
    omega
  have haddr : (b.grown (b.length + n) base rest).address = base := if_neg hpos
  simp only [reserve, if_neg (Nat.not_le_of_lt h), ht]
  change (if b.address ≠ 0 ∧ (b.grown (b.length + n) base rest).address ≠ b.address then
    (Except.ok (some (Move.mk b.address (b.grown (b.length + n) base rest).address _)), _)
    else _) = _
  rw [haddr]
  by_cases hm : b.address ≠ 0 ∧ base ≠ b.address
  · rw [if_pos hm, if_pos hm]
    rfl
  · rw [if_neg hm, if_neg hm]
    rfl

theorem capacityFor_eq (h : b.increment ∣ b.capacity) {want : Nat} (hw : b.capacity < want) :
    b.capacityFor want = roundUp b.increment want := by
  obtain ⟨q, hq⟩ := h
  have hsum : want + b.increment - 1 =
      b.increment * q + (want - b.capacity + b.increment - 1) := by omega
  rw [capacityFor, roundUp, hsum, Nat.mul_add_div b.increment_pos, Nat.add_mul, hq,
    Nat.mul_comm b.increment q]

/-! ## Bytes as a list -/

theorem toList_push (b : CodeBuffer) (chunk : List UInt8) :
    (b.push chunk).bytes.toList = b.bytes.toList ++ chunk := by
  rw [push, Array.toList_appendList]

theorem toList_overwrite {bytes : Array UInt8} {i : Nat} {chunk : List UInt8}
    (h : i + chunk.length ≤ bytes.size) :
    (overwrite bytes i chunk).toList =
      bytes.toList.take i ++ chunk ++ bytes.toList.drop (i + chunk.length) := by
  have htake : (bytes.toList.take i).length = i := by
    rw [List.length_take, Array.length_toList]
    omega
  apply List.ext_getElem?
  intro j
  rw [Array.getElem?_toList, getElem?_overwrite, List.append_assoc, List.getElem?_append, htake,
    List.getElem?_append]
  by_cases hj : j < i
  · rw [if_neg (by omega), if_pos hj, List.getElem?_take, if_pos hj, Array.getElem?_toList]
  · rw [if_neg hj]
    by_cases hc : j < i + chunk.length
    · rw [if_pos (by omega), if_pos (by omega)]
    · rw [if_neg (by omega), if_neg (by omega), List.getElem?_drop, Array.getElem?_toList]
      congr 1
      omega

theorem place_error {offset : Int} (h : ¬ (0 ≤ offset ∧ offset + n ≤ b.length)) :
    ∃ f, b.place n offset = .error f := by
  rw [place, if_neg h]
  split <;> exact ⟨_, rfl⟩

theorem slice_eq (b : CodeBuffer) (i n : Nat) : b.slice i n = (b.bytes.toList.drop i).take n := by
  rw [slice, Array.toList_extract, List.extract_eq_take_drop, Nat.add_sub_cancel_left]

end CodeBuffer

/-! ## One access -/

/-- What the ledger tells of a buffer that grows by `increment`. -/
structure Ledger.Describes (increment : Nat) (l : Ledger) (s : Segment) : Prop where
  bytes : s.buffer.bytes.toList = l.bytes
  fits : s.length ≤ s.buffer.capacity
  whole : increment ∣ s.buffer.capacity
  grows : s.buffer.grows = l.bases.length
  address : s.buffer.address = l.bases.headD 0
  moves : s.moves.map (fun m => (m.source, m.target)) = baseChanges l.bases

/-- How an access to a buffer ends that the ledger describes. -/
structure Access.Heeds (increment : Nat) (a : Access) (s : Segment) (l : Ledger) : Prop where
  /-- What is returned and written is what the list would be. -/
  returns : ∀ v s', a.run s = .ok v s' → a.onList l.bytes = some (v, s'.buffer.bytes.toList)
  /-- Memory is replaced only if there is too little of it, by no more than is needed. -/
  capacity : ∀ v s', a.run s = .ok v s' →
    (a.want s ≤ s.buffer.capacity ∧ s'.buffer.capacity = s.buffer.capacity) ∨
    (s.buffer.capacity < a.want s ∧ increment ∣ s'.buffer.capacity ∧
      a.want s ≤ s'.buffer.capacity ∧
      ∀ k, increment ∣ k → a.want s ≤ k → s'.buffer.capacity ≤ k)
  /-- Nothing changes but the supply, and there is a reason. -/
  breaks : ∀ f s', a.run s = .error f s' →
    s' = { s with buffer := { s.buffer with supply := s'.buffer.supply } } ∧
    (a.onList l.bytes = none ∨
      s.buffer.capacity < a.want s ∧
        (s.buffer.supply.take (roundUp increment (a.want s))).1 = .error f)

/-- A ledger that describes a segment without sites that a move would rewrite. -/
structure Ledger.Keeps (increment : Nat) (l : Ledger) (s : Segment) : Prop
    extends l.Describes increment s where
  supply : s.buffer.supply.NeverZero
  growth : s.buffer.increment = increment
  siteless : s.table.patched = []
  nonzero : 0 ∉ l.bases

namespace Segment

variable {s : Segment} {chunk : List UInt8}

theorem append_of_le (h : s.length + chunk.length ≤ s.buffer.capacity) :
    append chunk s = .ok () { s with buffer := s.buffer.push chunk } := by
  simp only [append, reserve_of_le h]

theorem append_refused {f : Fault} {rest : Supply} (h : s.buffer.capacity < s.length + chunk.length)
    (ht : s.buffer.supply.take (s.buffer.capacityFor (s.length + chunk.length)) =
      (.error f, rest)) :
    append chunk s = .error f { s with buffer := { s.buffer with supply := rest } } := by
  simp only [append, reserve_refused h ht]

theorem append_granted {base : HostAddress} {rest : Supply} (hs : s.table.patched = [])
    (h : s.buffer.capacity < s.length + chunk.length)
    (ht : s.buffer.supply.take (s.buffer.capacityFor (s.length + chunk.length)) =
      (.ok base, rest)) :
    append chunk s = .ok () { s with
      buffer := (s.buffer.grown (s.length + chunk.length) base rest).push chunk
      moves := (if s.buffer.address ≠ 0 ∧ base ≠ s.buffer.address
        then [⟨s.buffer.address, base, s.buffer.capacityFor (s.length + chunk.length)⟩]
        else []) ++ s.moves } := by
  simp only [append, reserve_granted h ht]
  by_cases hm : s.buffer.address ≠ 0 ∧ base ≠ s.buffer.address
  · simp only [if_pos hm, hs, rebasePass]
    rfl
  · simp only [if_neg hm]
    rfl

end Segment

namespace Access

variable {a : Access} {s : Segment} {l : Ledger} {increment : Nat}

/-- All that can come of an access, where no site depends on the base. -/
inductive Outcome (a : Access) (s : Segment) :
    EStateM.Result Fault Segment (Option Nat) → Prop
  | outside {f : Fault} (hl : a.onList s.buffer.bytes.toList = none) : Outcome a s (.error f s)
  | rewritten {v : Option Nat} (bytes : Array UInt8) (ha : a.added = [])
    (hl : a.onList s.buffer.bytes.toList = some (v, bytes.toList)) (hle : bytes.size ≤ s.length) :
    Outcome a s (.ok v { s with buffer := { s.buffer with bytes } })
  | appended (hl : a.onList s.buffer.bytes.toList = some (none, s.buffer.bytes.toList ++ a.added))
    (h : a.want s ≤ s.buffer.capacity) :
    Outcome a s (.ok none { s with buffer := s.buffer.push a.added })
  | refused {f : Fault} (rest : Supply) (h : s.buffer.capacity < a.want s)
    (ht : s.buffer.supply.take (s.buffer.capacityFor (a.want s)) = (.error f, rest)) :
    Outcome a s (.error f { s with buffer := { s.buffer with supply := rest } })
  | granted (base : HostAddress) (rest : Supply)
    (hl : a.onList s.buffer.bytes.toList = some (none, s.buffer.bytes.toList ++ a.added))
    (h : s.buffer.capacity < a.want s)
    (ht : s.buffer.supply.take (s.buffer.capacityFor (a.want s)) = (.ok base, rest)) :
    Outcome a s (.ok none { s with
      buffer := (s.buffer.grown (a.want s) base rest).push a.added
      moves := (if s.buffer.address ≠ 0 ∧ base ≠ s.buffer.address
        then [⟨s.buffer.address, base, s.buffer.capacityFor (a.want s)⟩] else []) ++ s.moves })

theorem silent_ok {x : Attempt Segment Unit} {s' : Segment} (h : x s = .ok () s') :
    silent x s = .ok none s' := by
  change EStateM.bind x _ s = _
  rw [EStateM.bind, h]
  rfl

theorem silent_error {x : Attempt Segment Unit} {f : Fault} {s' : Segment}
    (h : x s = .error f s') : silent x s = .error f s' := by
  change EStateM.bind x _ s = _
  rw [EStateM.bind, h]

theorem step_ok {v : Option Nat} {s' : Segment} {bytes : List UInt8} (h : a.run s = .ok v s')
    (hl : a.onList l.bytes = some (v, bytes)) :
    a.step increment (s, l) = (s', ⟨bytes, (a.grant? increment s).toList ++ l.bases⟩) := by
  simp only [step, h, hl, Option.map_some, Option.getD_some]

theorem step_error {f : Fault} {s' : Segment} (h : a.run s = .error f s') :
    a.step increment (s, l) = (s', l) := by
  simp only [step, h]

theorem Outcome.of_append (hs : s.table.patched = []) (hr : a.run = silent (Segment.append a.added))
    (hl : ∀ bytes, a.onList bytes = some (none, bytes ++ a.added)) : a.Outcome s (a.run s) := by
  rw [hr]
  by_cases hroom : a.want s ≤ s.buffer.capacity
  · rw [silent_ok (Segment.append_of_le hroom)]
    exact .appended (hl _) hroom
  · have hlt := Nat.lt_of_not_le hroom
    rcases ht : s.buffer.supply.take (s.buffer.capacityFor (a.want s)) with ⟨_ | base, rest⟩
    · rw [silent_error (Segment.append_refused hlt ht)]
      exact .refused rest hlt ht
    · rw [silent_ok (Segment.append_granted hs hlt ht)]
      exact .granted base rest (hl _) hlt ht

theorem outcome (hs : s.table.patched = []) (a : Access) : a.Outcome s (a.run s) := by
  have hlen : s.buffer.bytes.toList.length = s.buffer.length := Array.length_toList
  cases a with
  | append chunk => exact .of_append hs rfl fun _ => rfl
  | number w v => exact .of_append hs rfl fun _ => rfl
  | patch w offset v =>
    have hcount := length_littleEndian w.bytes v
    by_cases hin : 0 ≤ offset ∧ offset + w.bytes ≤ s.buffer.length
    · have hplace : s.buffer.place (littleEndian w.bytes v).length offset = .ok offset.toNat := by
        rw [hcount, place, if_pos hin]
      have hsize : offset.toNat + (littleEndian w.bytes v).length ≤ s.buffer.bytes.size := by
        unfold CodeBuffer.length at hin
        omega
      have hrun : Segment.patch offset (littleEndian w.bytes v) s = .ok () { s with
          buffer := { s.buffer with
            bytes := overwrite s.buffer.bytes offset.toNat (littleEndian w.bytes v) } } := by
        simp only [Segment.patch, CodeBuffer.patch, hplace]
      rw [run, silent_ok hrun]
      refine .rewritten _ rfl ?_ (Nat.le_of_eq (size_overwrite ..))
      rw [onList, hlen, if_pos hin, toList_overwrite hsize, hcount]
    · obtain ⟨f, hplace⟩ := place_error hin
      rw [← hcount] at hplace
      have hrun : Segment.patch offset (littleEndian w.bytes v) s = .error f s := by
        simp only [Segment.patch, CodeBuffer.patch, hplace]
      rw [run, silent_error hrun]
      exact .outside (by rw [onList, hlen, if_neg hin])
  | read w offset =>
    by_cases hin : 0 ≤ offset ∧ offset + w.bytes ≤ s.buffer.length
    · have hread : s.buffer.read w.bytes offset =
          .ok (ofLittleEndian (s.buffer.slice offset.toNat w.bytes)) := by
        rw [CodeBuffer.read, place, if_pos hin]
      simp only [run, hread]
      refine .rewritten s.buffer.bytes rfl ?_ (Nat.le_refl _)
      rw [onList, hlen, if_pos hin, slice_eq]
    · obtain ⟨f, hplace⟩ := place_error hin
      have hread : s.buffer.read w.bytes offset = .error f := by rw [CodeBuffer.read, hplace]
      simp only [run, hread]
      exact .outside (by rw [onList, hlen, if_neg hin])
  | truncate offset =>
    by_cases hin : 0 ≤ offset ∧ offset ≤ s.buffer.length
    · have hrun : Segment.truncateBuffer offset s = .ok () { s with
          buffer := { s.buffer with bytes := s.buffer.bytes.take offset.toNat } } := by
        simp only [Segment.truncateBuffer, CodeBuffer.truncate, if_pos hin]
      rw [run, silent_ok hrun]
      refine .rewritten _ rfl ?_ ?_
      · rw [onList, hlen, if_pos hin, Array.take_eq_extract, Array.toList_extract,
          List.extract_eq_take_drop]
        rfl
      · rw [Array.take_eq_extract, Array.size_extract]
        exact Nat.le_trans (Nat.sub_le ..) (Nat.min_le_right ..)
    · have hrun : Segment.truncateBuffer offset s =
          .error (.misuse (.truncation offset s.buffer.length)) s := by
        simp only [Segment.truncateBuffer, CodeBuffer.truncate, if_neg hin]
      rw [run, silent_error hrun]
      exact .outside (by rw [onList, hlen, if_neg hin])
  | reset => exact .rewritten #[] rfl rfl (Nat.zero_le _)

end Access

namespace Ledger

variable {s : Segment} {l : Ledger} {increment : Nat}

theorem Keeps.increment_pos (h : l.Keeps increment s) : 0 < increment := by
  rw [← h.growth]
  exact s.buffer.increment_pos

theorem Keeps.capacityFor_eq (h : l.Keeps increment s) {want : Nat}
    (hlt : s.buffer.capacity < want) : s.buffer.capacityFor want = roundUp increment want := by
  rw [← h.growth]
  exact CodeBuffer.capacityFor_eq (by rw [h.growth]; exact h.whole) hlt

theorem Keeps.heeds (h : l.Keeps increment s) (a : Access) : a.Heeds increment s l := by
  have hout := a.outcome h.siteless
  refine ⟨?_, ?_, ?_⟩
  · intro v s' hr
    rw [hr] at hout
    rw [← h.bytes]
    cases hout with
    | rewritten bytes ha hl hle => exact hl
    | appended hl hroom => rw [hl, toList_push]
    | granted base rest hl hlt ht =>
      rw [hl, toList_push]
      rfl
  · intro v s' hr
    rw [hr] at hout
    cases hout with
    | rewritten bytes ha hl hle =>
      refine .inl ⟨?_, rfl⟩
      rw [Access.want, ha]
      exact h.fits
    | appended hl hroom => exact .inl ⟨hroom, rfl⟩
    | granted base rest hl hlt ht =>
      have hleast := roundUp_least h.increment_pos (a.want s)
      rw [← h.capacityFor_eq hlt] at hleast
      exact .inr ⟨hlt, hleast⟩
  · intro f s' hr
    rw [hr] at hout
    cases hout with
    | outside hl => exact ⟨rfl, .inl (h.bytes ▸ hl)⟩
    | refused rest hlt ht =>
      refine ⟨rfl, .inr ⟨hlt, ?_⟩⟩
      rw [← h.capacityFor_eq hlt, ht]

theorem baseChanges_cons (base : HostAddress) (bases : List HostAddress) :
    baseChanges (base :: bases) =
      (if bases ≠ [] ∧ base ≠ bases.headD 0 then [(bases.headD 0, base)] else []) ++
        baseChanges bases := by
  cases bases with
  | nil => rfl
  | cons old rest => by_cases hb : base = old <;> simp [baseChanges, hb]

theorem Keeps.address_ne_zero (h : l.Keeps increment s) :
    s.buffer.address ≠ 0 ↔ l.bases ≠ [] := by
  rw [h.address]
  cases hb : l.bases with
  | nil => simp
  | cons base rest =>
    have hne : base ≠ 0 := fun he => h.nonzero (by rw [hb, he]; exact List.mem_cons_self)
    simp [hne]

theorem Keeps.granted (h : l.Keeps increment s) {a : Access} {base : HostAddress} {rest : Supply}
    (hlt : s.buffer.capacity < a.want s)
    (ht : s.buffer.supply.take (s.buffer.capacityFor (a.want s)) = (.ok base, rest)) :
    Keeps increment ⟨l.bytes ++ a.added, base :: l.bases⟩ { s with
      buffer := (s.buffer.grown (a.want s) base rest).push a.added
      moves := (if s.buffer.address ≠ 0 ∧ base ≠ s.buffer.address
        then [⟨s.buffer.address, base, s.buffer.capacityFor (a.want s)⟩] else []) ++ s.moves } := by
  obtain ⟨hwhole, hfits, -⟩ := roundUp_least h.increment_pos (a.want s)
  rw [← h.capacityFor_eq hlt] at hwhole hfits
  have hcap : s.buffer.capacityFor (a.want s) ≠ 0 := by omega
  have hmoves : (if s.buffer.address ≠ 0 ∧ base ≠ s.buffer.address
      then [(⟨s.buffer.address, base, s.buffer.capacityFor (a.want s)⟩ : Move)] else []).map
        (fun m => (m.source, m.target)) =
      if l.bases ≠ [] ∧ base ≠ l.bases.headD 0 then [(l.bases.headD 0, base)] else [] := by
    have hiff : (s.buffer.address ≠ 0 ∧ base ≠ s.buffer.address) ↔
        (l.bases ≠ [] ∧ base ≠ l.bases.headD 0) := by rw [h.address_ne_zero, h.address]
    by_cases hm : l.bases ≠ [] ∧ base ≠ l.bases.headD 0
    · rw [if_pos hm, if_pos (hiff.mpr hm), h.address]
      rfl
    · rw [if_neg hm, if_neg (mt hiff.mp hm)]
      rfl
  have hbase : base ≠ 0 := h.supply.ne_zero ht
  exact {
    bytes := by rw [toList_push, ← h.bytes]; rfl
    fits := by
      refine Nat.le_trans (Nat.le_of_eq (length_push ..)) ?_
      exact hfits
    whole := hwhole
    grows := congrArg (· + 1) h.grows
    address := if_neg hcap
    moves := by rw [List.map_append, hmoves, h.moves, baseChanges_cons]
    supply := by have hrest := h.supply.take (s.buffer.capacityFor (a.want s)); rwa [ht] at hrest
    growth := h.growth
    siteless := h.siteless
    nonzero := by
      rintro (_ | ⟨_, hm⟩)
      · exact hbase rfl
      · exact h.nonzero hm }

/-- One access keeps the ledger. -/
theorem Keeps.step (h : l.Keeps increment s) (a : Access) :
    (a.step increment (s, l)).2.Keeps increment (a.step increment (s, l)).1 := by
  have hout := a.outcome h.siteless
  generalize hr : a.run s = r at hout
  cases hout with
  | outside hl =>
    rw [Access.step_error hr]
    exact h
  | rewritten bytes ha hl hle =>
    have hroom : a.want s ≤ s.buffer.capacity := by
      rw [Access.want, ha]
      exact h.fits
    rw [Access.step_ok hr (h.bytes ▸ hl), Access.grant?, if_pos hroom]
    exact { h with bytes := rfl, fits := Nat.le_trans hle h.fits }
  | appended hl hroom =>
    rw [Access.step_ok hr (h.bytes ▸ hl), Access.grant?, if_pos hroom]
    exact { h with
      bytes := by rw [toList_push, h.bytes]
      fits := Nat.le_trans (Nat.le_of_eq (length_push ..)) hroom }
  | refused rest hlt ht =>
    rw [Access.step_error hr]
    have hrest := h.supply.take (s.buffer.capacityFor (a.want s))
    rw [ht] at hrest
    exact { h with supply := hrest }
  | granted base rest hl hlt ht =>
    have hgrant : a.grant? increment s = some base := by
      rw [Access.grant?, if_neg (Nat.not_le_of_lt hlt), ← h.capacityFor_eq hlt, ht]
      rfl
    rw [Access.step_ok hr (h.bytes ▸ hl), hgrant]
    exact h.granted hlt ht

end Ledger

/-! ## Runs -/

theorem Ledger.Keeps.new {supply : Supply} (h : supply.NeverZero) (growth : Int) :
    Ledger.Keeps (if growth ≤ 0 then 8192 else growth.toNat) {}
      { buffer := { supply, growth } } where
  bytes := rfl
  fits := Nat.le_refl _
  whole := Nat.dvd_zero _
  grows := rfl
  address := rfl
  moves := rfl
  supply := h
  growth := rfl
  siteless := rfl
  nonzero := List.not_mem_nil

theorem Ledger.Keeps.steps {increment : Nat} {l : Ledger} {s : Segment} (h : l.Keeps increment s)
    (as : List Access) :
    (Access.steps increment as (s, l)).2.Keeps increment (Access.steps increment as (s, l)).1 := by
  induction as generalizing s l with
  | nil => exact h
  | cons a as ih => exact ih (h.step a)

/-- After any accesses, the bytes of a buffer are what those that did not break off make of a
plain list, and the next access answers as the list does. It breaks off only if it reaches out
of the list, or if it needs memory and is refused, and then nothing has changed. The capacity is
a whole number of increments that is replaced only by an append that it has no room for, and by
the least that has room. It has been replaced as often as memory was granted, and each change
of the base after the first region is reported once. -/
theorem Access.refines_list {supply : Supply} (h : supply.NeverZero) (growth : Int)
    (before : List Access) :
    let increment := if growth ≤ 0 then 8192 else growth.toNat
    let x := Access.steps increment before ({ buffer := { supply, growth } }, {})
    x.2.Describes increment x.1 ∧ ∀ a : Access, a.Heeds increment x.1 x.2 := by
  intro increment x
  have hx : x.2.Keeps increment x.1 := (Ledger.Keeps.new h growth).steps before
  exact ⟨hx.toDescribes, hx.heeds⟩

/-- Memory for four bytes is replaced by memory for eight, at the second request for it. -/
theorem Access.refines_list_after_refusal :
    let supply := Supply.listed [.ok 0x10000, .error "no memory", .ok 0x20000]
    let x := Access.steps 4 [.append [1, 2, 3], .number .dword 5, .number .dword 0x0a0b, .truncate 4,
      .patch .dword 1 7, .patch .byte 0 9] ({ buffer := { supply, growth := 4 } }, {})
    x.1.buffer.bytes.toList = [9, 2, 3, 0x0b] ∧ x.1.buffer.capacity = 8 ∧ x.1.buffer.grows = 2 ∧
      x.1.moves.map (fun m => (m.source, m.target)) = [(0x10000, 0x20000)] ∧
      x.2.Describes 4 x.1 ∧ ∀ a : Access, a.Heeds 4 x.1 x.2 := by
  intro supply x
  have h : supply.NeverZero := Supply.neverZero_listed (by simp)
  exact ⟨by decide +kernel, by decide +kernel, by decide +kernel, by decide +kernel,
    Access.refines_list h 4 _⟩

end HostCode
