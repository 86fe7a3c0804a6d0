import HostCode.Proofs.Assembler.Layout
import HostCode.Proofs.Processor.RoundTrip

/-! # What a request comes to

The mode and the request alone decide whether a request is an error, and which fields are to be
written if it is not. What the buffer, its memory and the jump sites decide is how far the writing
gets: to the end, or to the end of an earlier field.
-/

namespace HostCode

/-! ## No field is empty -/

namespace Processor

open Encoding

variable {mode : AddressingMode} {r : Request} {i : Instruction} {s : Size} {opcode : List UInt8}
  {o : Operand} {q : Register} {field : BitVec 3}

def HasOpcode (x : Except Rejection Instruction) : Prop := ∀ i, x = .ok i → i.opcode ≠ []

namespace HasOpcode

theorem error {e : Rejection} : HasOpcode (.error e) := fun _ h => nomatch h

theorem ok (h : i.opcode ≠ []) : HasOpcode (.ok i) := by
  rintro _ ⟨⟩
  exact h

theorem bind {α : Type} {z : Except Rejection α} {k : α → Except Rejection Instruction}
    (h : ∀ u, HasOpcode (k u)) : HasOpcode (z >>= k) := by
  intro i hi
  obtain ⟨u, -, hu⟩ := bind_eq_ok.mp hi
  exact h u i hu

theorem withRegister (h : opcode ≠ []) : HasOpcode (Encoding.withRegister mode s opcode o q) :=
  .bind fun _ => .bind fun _ => .ok h

theorem withExtension (h : opcode ≠ []) :
    HasOpcode (Encoding.withExtension mode s opcode o field) :=
  .bind fun _ => .ok h

theorem addImmediate {x : Except Rejection Instruction} (h : HasOpcode x) {t : Size} {v : Int64} :
    HasOpcode (do return Encoding.addImmediate (← x) t v) := by
  intro i hi
  obtain ⟨j, hj, rfl⟩ := addImmediate_ok hi
  exact h j hj

end HasOpcode

end Processor

theorem Displacement.fields_ne_nil (d : Displacement) : ∀ f ∈ d.fields, f ≠ [] := by
  cases d <;> simp [fields, littleEndian]

theorem RM.fields_ne_nil (m : RM) (reg : BitVec 3) : ∀ f ∈ m.fields reg, f ≠ [] := by
  simp only [fields, List.mem_cons, List.mem_append, Option.mem_toList]
  rintro f (rfl | hf | hf)
  · exact List.cons_ne_nil _ _
  · obtain ⟨b, -, rfl⟩ := Option.map_eq_some_iff.mp hf
    exact List.cons_ne_nil _ _
  · exact m.disp.fields_ne_nil f hf

theorem Immediate.field_ne_nil (c : Immediate) : c.field ≠ [] := by
  obtain ⟨size, value⟩ := c
  cases size <;> simp [field, Size.bytes, littleEndian]

theorem Instruction.fields_ne_nil {i : Instruction} (h : i.opcode ≠ []) :
    ∀ f ∈ i.fields, f ≠ [] := by
  intro f hf
  simp only [fields, List.mem_append, or_assoc] at hf
  rcases hf with hf | hf | hf | hf | hf
  · split at hf
    · obtain rfl := List.mem_singleton.mp hf
      exact List.cons_ne_nil _ _
    · cases hf
  · split at hf
    · obtain rfl := List.mem_singleton.mp hf
      exact List.cons_ne_nil _ _
    · cases hf
  · obtain rfl := List.mem_singleton.mp hf
    exact h
  · split at hf
    · exact RM.fields_ne_nil _ _ f hf
    · cases hf
  · obtain ⟨c, -, rfl⟩ := Option.map_eq_some_iff.mp (Option.mem_toList.mp hf)
    exact c.field_ne_nil

/-- What a request comes to on a host: an error, or the fields of an instruction. There are none
of them if no instruction is needed. -/
def Request.outcome (m : AddressingMode) (r : Request) : Except Error (List (List UInt8)) :=
  match Encoding.encode m r with
  | .error e => .error (.encode e)
  | .ok none => .ok []
  | .ok (some i) => .ok i.fields

/-- The memory is plain data. A host that is asked for too much of it does not answer. -/
def Supply.isData : Supply → Bool
  | .fresh .data _ _ => true
  | _ => false

def Supply.Denies (s : Supply) (f : Fault) : Prop :=
  (∃ e, f = .allocation e) ∨ f = .outOfRange ∧ s.isData = true

theorem Supply.isData_take (s : Supply) (size : Nat) : (s.take size).2.isData = s.isData := by
  cases s with
  | listed answers => cases answers <;> rfl
  | fresh m next limit =>
    simp only [take]
    split
    · cases m <;> rfl
    · cases m <;> rfl

theorem Supply.denies_of_take {s rest : Supply} {size : Nat} {f : Fault}
    (h : s.take size = (.error f, rest)) : s.Denies f := by
  refine (take_error h).imp_right fun hf => ⟨hf, ?_⟩
  subst hf
  cases s with
  | listed answers =>
    cases answers with
    | nil => cases h
    | cons a as => cases a <;> cases h
  | fresh m next limit =>
    simp only [take] at h
    split at h
    · cases h
    · cases m with
      | data => rfl
      | executable => cases h

/-- What making room does to a buffer in any state, whatever comes of it. -/
structure CodeBuffer.Reserved (out : Except Fault (Option Move)) (b b' : CodeBuffer) : Prop where
  bytes : b'.bytes = b.bytes
  isData : b'.supply.isData = b.supply.isData
  grows : b.grows ≤ b'.grows
  moved : ∀ m, out = .ok (some m) → b.grows < b'.grows
  denied : ∀ f, out = .error f → b.supply.Denies f

theorem CodeBuffer.reserve_reserved {b b' : CodeBuffer} {n : Nat}
    {out : Except Fault (Option Move)} (h : b.reserve n = (out, b')) : Reserved out b b' := by
  unfold reserve at h
  split at h
  · cases h
    exact ⟨rfl, rfl, Nat.le_refl _, nofun, nofun⟩
  have hdata := b.supply.isData_take (b.capacityFor (b.length + n))
  rcases ht : b.supply.take (b.capacityFor (b.length + n)) with ⟨f | base, rest⟩ <;>
    simp only [ht] at h hdata
  · cases h
    exact ⟨rfl, hdata, Nat.le_refl _, nofun, fun g hg => Except.error.inj hg ▸
      Supply.denies_of_take ht⟩
  · split at h <;> cases h
    · exact ⟨rfl, hdata, Nat.le_succ _, fun _ _ => Nat.lt_succ_self _, nofun⟩
    · exact ⟨rfl, hdata, Nat.le_succ _, nofun, nofun⟩

/-! ## Fields one by one -/

namespace Segment

open CodeBuffer

variable {s s' s'' : Segment} {chunk chunk' : List UInt8}

/-- `s'` is `s` with `chunk` added, in memory of the same kind. What was there is as it was
unless the memory has been replaced. -/
structure Adds (chunk : List UInt8) (s s' : Segment) : Prop extends Extends chunk s s' where
  isData : s'.buffer.supply.isData = s.buffer.supply.isData
  grows : s.buffer.grows ≤ s'.buffer.grows
  still : s'.buffer.grows = s.buffer.grows →
    ∀ i < s.length, s'.buffer.bytes[i]? = s.buffer.bytes[i]?

namespace Adds

theorem refl (s : Segment) : Adds [] s s := ⟨.refl s, rfl, Nat.le_refl _, fun _ _ _ => rfl⟩

theorem trans (h : Adds chunk s s') (h' : Adds chunk' s' s'')
    (hin : ∀ f ∈ dependents s.table.patched, f.stop ≤ s.length) :
    Adds (chunk ++ chunk') s s'' where
  toExtends := h.toExtends.trans h'.toExtends hin
  isData := h'.isData.trans h.isData
  grows := Nat.le_trans h.grows h'.grows
  still hg i hi := by
    have hle := h.grows
    have hle' := h'.grows
    have hi' : i < s'.length := by rw [h.length]; omega
    rw [h'.still (by omega) i hi', h.still (by omega) i hi]

end Adds

/-- A fault that breaks off the writing of bytes: there is no memory, or a move puts a jump out
of its range. -/
def Stops (s : Segment) (f : Fault) : Prop :=
  (∃ e, f = .jumpRange e) ∨ s.buffer.supply.Denies f

/-- The sites that depend on the base lie inside of the code. Nothing else is asked of the
segment: its other sites and its memory may be anything. -/
theorem append_adds (hin : ∀ f ∈ dependents s.table.patched, f.stop ≤ s.length)
    (chunk : List UInt8) :
    Ensures (append chunk) s (fun _ s' => Adds chunk s s')
      (fun f s' => Adds [] s s' ∧ s.Stops f) := by
  rcases hr : s.buffer.reserve chunk.length with ⟨f | m, b⟩ <;> have hres := reserve_reserved hr
  · simp only [Ensures, append, hr]
    refine ⟨⟨extends_nothing hres.bytes (.refl _ _), hres.isData, hres.grows, ?_⟩,
      .inr (hres.denied f rfl)⟩
    intro _ i _
    exact congrArg (·[i]?) hres.bytes
  cases m with
  | none =>
    simp only [Ensures, append, hr]
    refine ⟨extends_push hres.bytes (.refl _ _) _, hres.isData, hres.grows, ?_⟩
    intro _ i hi
    have hi' : i < b.length := by rw [CodeBuffer.length, hres.bytes]; exact hi
    rw [getElem?_push, if_pos hi', hres.bytes]
  | some m =>
    have hlen : b.length = s.length := by rw [CodeBuffer.length, hres.bytes]; rfl
    have hlt : s.buffer.grows < b.grows := hres.moved m rfl
    obtain ⟨hw, hstop⟩ := rebasePass_rewrites s.table.patched b fun f hf => hlen ▸ hin f hf
    rcases hpass : rebasePass b s.table.patched with ⟨b', stop⟩
    simp only [hpass] at hw hstop
    have hdata : b'.supply.isData = s.buffer.supply.isData := by rw [hw.rest]; exact hres.isData
    have hgrows : s.buffer.grows < b'.grows := by rw [hw.rest]; exact hlt
    -- the memory has been replaced, so the sites may have changed
    have hmoved {P : Prop} (hg : b'.grows = s.buffer.grows) : P :=
      absurd hg (Nat.ne_of_gt hgrows)
    cases stop with
    | none =>
      simp only [Ensures, append, hr, hpass]
      exact ⟨extends_push hres.bytes hw _, hdata, Nat.le_of_lt hgrows, fun hg => hmoved hg⟩
    | some f =>
      simp only [Ensures, append, hr, hpass]
      exact ⟨⟨extends_nothing hres.bytes hw, hdata, Nat.le_of_lt hgrows, fun hg => hmoved hg⟩,
        .inl (hstop f rfl)⟩

theorem Adds.inside (h : Adds chunk s s')
    (hin : ∀ f ∈ dependents s.table.patched, f.stop ≤ s.length) :
    ∀ f ∈ dependents s'.table.patched, f.stop ≤ s'.length := by
  intro f hf
  rw [h.table] at hf
  have := hin f hf
  rw [h.length]
  omega

theorem Adds.stops (h : Adds chunk s s') {f : Fault} (hf : s'.Stops f) : s.Stops f := by
  rw [Stops, Supply.Denies, h.isData] at hf
  exact hf

end Segment

namespace Assembler

variable {a a' a'' : Assembler} {chunk chunk' : List UInt8}

/-- `a'` is `a` with `chunk` added to its code. Neither of them need be tidy. -/
structure Adds (chunk : List UInt8) (a a' : Assembler) : Prop where
  rest : a' = { a with segment := a'.segment }
  segment : a.segment.Adds chunk a'.segment

theorem Adds.refl (a : Assembler) : Adds [] a a := ⟨rfl, .refl _⟩

theorem Adds.trans (h : Adds chunk a a') (h' : Adds chunk' a' a'')
    (hin : ∀ f ∈ dependents a.segment.table.patched, f.stop ≤ a.offset) :
    Adds (chunk ++ chunk') a a'' := by
  refine ⟨?_, h.segment.trans h'.segment hin⟩
  rw [h'.rest, h.rest]

theorem append_adds (hin : ∀ f ∈ dependents a.segment.table.patched, f.stop ≤ a.offset)
    (chunk : List UInt8) :
    Ensures (append chunk) a (fun _ a' => Adds chunk a a')
      (fun f a' => Adds [] a a' ∧ a.segment.Stops f) := by
  refine ensures_onSegment ((Segment.append_adds hin chunk).imp ?_ ?_)
  · rintro - s hs
    exact ⟨rfl, hs⟩
  · rintro f s ⟨hs, hf⟩
    exact ⟨⟨rfl, hs⟩, hf⟩

/-- What breaks off leaves some of the fields, and never all of them. -/
theorem forM_append_adds (hin : ∀ f ∈ dependents a.segment.table.patched, f.stop ≤ a.offset)
    (fields : List (List UInt8)) :
    Ensures (fields.forM append) a (fun _ a' => Adds fields.flatten a a')
      (fun f a' => ∃ k < fields.length, Adds (fields.take k).flatten a a' ∧
        a.segment.Stops f) := by
  induction fields generalizing a with
  | nil => exact .refl a
  | cons chunk fields ih =>
    refine .bind ((append_adds hin chunk).imp ?_ ?_)
    · rintro - a' hw
      refine (ih (hw.segment.inside hin)).imp ?_ ?_
      · rintro - a'' hw'
        exact hw.trans hw' hin
      · rintro f a'' ⟨k, hk, hw', hf⟩
        exact ⟨k + 1, Nat.succ_lt_succ hk, hw.trans hw' hin, hw.segment.stops hf⟩
    · rintro f a' ⟨hw, hf⟩
      exact ⟨0, Nat.succ_pos _, hw, hf⟩

theorem encode_apply (a : Assembler) (r : Request) :
    encode r a = (match r.outcome a.mode with
      | .error e => pure (.error e)
      | .ok fields => do
        fields.forM append
        return .ok () : Attempt Assembler (Except Error Unit)) a := by
  have hget : encode r a = (match Encoding.encode a.mode r with
      | .error e => pure (.error (.encode e))
      | .ok none => pure (.ok ())
      | .ok (some i) => do
        i.fields.forM append
        return .ok () : Attempt Assembler (Except Error Unit)) a := rfl
  rw [hget]
  unfold Request.outcome
  rcases Encoding.encode a.mode r with e | _ | i <;> rfl

end Assembler

end HostCode
