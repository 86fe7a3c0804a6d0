import HostCode.Proofs.Assembler.Jump
import HostCode.Proofs.Emission.Basic

/-! # What a call does

A call writes bytes at the end of the code, fills in the displacement of an earlier jump, or
writes a jump to a guest address. Which of these, and with which bytes, depends on the host,
on the length of the code and on the forward jumps so far, and on nothing else.
-/

namespace HostCode

open CodeBuffer Assembler

def RelocationTable.adding (sites : List Pending) (t : RelocationTable) : RelocationTable :=
  { t with pending := t.pending ++ sites, recorded := t.recorded + sites.length }

theorem RelocationTable.adding_nil (t : RelocationTable) : t.adding [] = t := by
  simp [adding]

theorem RelocationTable.adding_adding (t : RelocationTable) (sites sites' : List Pending) :
    (t.adding sites).adding sites' = t.adding (sites ++ sites') := by
  simp [adding, Nat.add_assoc]

/-- What a call does, unless it is broken off. -/
inductive Effect
  /-- Bytes at the end of the code, with the forward jumps in them, and the answer. -/
  | write (chunk : List UInt8) (labels : List Jump) (answer : Except Error Unit)
  /-- The displacement of an earlier jump. -/
  | fill (j : Jump) (chunk : List UInt8)
  /-- A jump to a guest address, at the end of the code. -/
  | branch (b : Branch)

namespace Effect

def answer : Effect → Except Error Unit
  | write _ _ r => r
  | fill .. | branch _ => .ok ()

def branches : Effect → List Branch
  | branch b => [b]
  | write .. | fill .. => []

/-- The effect is on the end of the code, or on one of the forward jumps. -/
def Fits (here : Nat) (labels : List Jump) : Effect → Prop
  | write chunk new _ => ∀ j ∈ new, here ≤ j.site ∧ j.field.stop = here + chunk.length
  | fill j _ => j ∈ labels
  | branch b => b.start = here

/-- What comes of `w` when a call has the given effect. -/
inductive Applied (w : Writing) : Effect → Writing → Prop
  | write {chunk : List UInt8} {labels : List Jump} {r : Except Error Unit} {a : Assembler}
    (wrote : Wrote chunk w.1 a) (linked : w.1.Linked → a.Linked) :
    Applied w (.write chunk labels r) (a, w.2 ++ labels)
  | fill {j : Jump} {chunk : List UInt8} {b : CodeBuffer}
    (rewrites : Rewrites [j.field] w.1.segment.buffer b) (field : b.field j.field = chunk) :
    Applied w (.fill j chunk) ({ w.1 with segment := { w.1.segment with buffer := b } }, w.2)
  | branch {b : Branch} {a : Assembler} (recorded : Recorded b w.1 a) :
    Applied w (.branch b) (a, w.2)

theorem Applied.unlabelled {w : Writing} {chunk : List UInt8} {r : Except Error Unit}
    {a : Assembler} (hw : Wrote chunk w.1 a) (hl : w.1.Linked → a.Linked) :
    Applied w (.write chunk [] r) (a, w.2) := by
  have h : Applied w (.write chunk [] r) (a, w.2 ++ []) := .write hw hl
  rwa [List.append_nil] at h

theorem Applied.table {w w' : Writing} {eff : Effect} (hf : eff.Fits w.1.offset w.2)
    (h : eff.Applied w w') :
    w'.1.segment.table =
      w.1.segment.table.adding (eff.branches.map (Branch.pending w.1.mode)) := by
  cases h with
  | write hw _ => exact hw.table.trans (RelocationTable.adding_nil _).symm
  | fill hr _ => exact (RelocationTable.adding_nil _).symm
  | branch hr =>
    rename_i b a
    obtain ⟨a₁, hw, -, rfl⟩ := hr
    have hstart : b.start = w.1.offset := hf
    have hoff := hw.offset
    rw [List.length_append, List.length_replicate] at hoff
    have hsite : a₁.offset - w.1.mode.siteKind.size = b.site w.1.mode := by
      rw [Branch.site, hstart]
      omega
    simp only [Assembler.recorded, hw.table, hw.mode, hsite]
    rfl

end Effect

namespace Call

def branches (here : Nat) : Call → List Branch
  | jumpToGuest target | branchToGuest .always target => [⟨here, none, target⟩]
  | branchToGuest (.flag f) target => [⟨here, some f, target⟩]
  | _ => []

/-- The effect of a call on a host, with the code that ends at `here` and the forward jumps so
far, or the rule that it breaks. -/
def effect (m : AddressingMode) (here : Nat) (labels : List Jump) : Call → Except Misuse Effect
  | encode r => .ok (.write (r.output m).1 [] (r.output m).2)
  | append chunk => .ok (.write chunk [] (.ok ()))
  | jumpShort c rel => (c.shortJump rel).map (.write · [] (.ok ()))
  | jumpNear c rel => (c.nearJump rel).map (.write · [] (.ok ()))
  | jumpBackward c offset => (c.backwardJump here offset).map (.write · [] (.ok ()))
  | jumpForward c short => (c.forwardJump short).map fun chunk =>
      .write chunk [.ending (here + chunk.length) short] (.ok ())
  | setJumpTarget label =>
    match labels[label]? with
    | none => .ok (.write [] [] (.ok ()))
    | some j =>
      match j.displacement here with
      | .error e => .ok (.write [] [] (.error e))
      | .ok chunk => .ok (.fill j chunk)
  | jumpToGuest target => .ok (.branch ⟨here, none, target⟩)
  | branchToGuest .always target => .ok (.branch ⟨here, none, target⟩)
  | branchToGuest (.flag f) target => .ok (.branch ⟨here, some f, target⟩)
  | branchToGuest (.unnamed code) _ => .error (.condition code)

variable {m : AddressingMode} {here : Nat} {labels : List Jump} {c : Call}

/-- Only a jump can be refused: on no condition, or to code that is not there yet. -/
theorem effect_error {e : Misuse} (h : c.effect m here labels = .error e) :
    e.blamesSites = false := by
  have hop : ∀ {c : Cond} {disp : List UInt8} {f : List UInt8 → Effect},
      (c.shortOpcode.map (· ++ disp)).map f = .error e ∨
        (c.nearOpcode.map (· ++ disp)).map f = .error e → e.blamesSites = false := by
    intro c disp f h
    cases c with
    | unnamed code => rcases h with h | h <;> cases h <;> rfl
    | _ => rcases h with h | h <;> cases h
  cases c with
  | encode r => cases h
  | append chunk => cases h
  | jumpShort c rel => exact hop (.inl h)
  | jumpNear c rel => exact hop (.inr h)
  | jumpBackward c offset =>
    simp only [effect, Cond.backwardJump] at h
    split at h
    · cases h
      rfl
    · split at h
      · exact hop (.inl h)
      · exact hop (.inr h)
  | jumpForward c short =>
    cases short with
    | true => exact hop (.inl h)
    | false => exact hop (.inr h)
  | setJumpTarget label =>
    simp only [effect] at h
    split at h
    · cases h
    · split at h <;> cases h
  | jumpToGuest target => cases h
  | branchToGuest c target =>
    cases c with
    | unnamed code => cases h; rfl
    | _ => cases h

theorem effect_fits {eff : Effect} (h : c.effect m here labels = .ok eff) :
    eff.Fits here labels := by
  have hjump : ∀ {out : Except Misuse (List UInt8)},
      out.map (Effect.write · [] (.ok ())) = .ok eff → eff.Fits here labels := by
    intro out h
    cases out <;> cases h
    exact nofun
  cases c with
  | encode r => cases h; exact nofun
  | append chunk => cases h; exact nofun
  | jumpShort c rel => exact hjump h
  | jumpNear c rel => exact hjump h
  | jumpBackward c offset => exact hjump h
  | jumpForward c short =>
    rw [effect] at h
    cases hc : c.forwardJump short with
    | error e => rw [hc] at h; cases h
    | ok chunk =>
      rw [hc] at h
      cases h
      intro j hj
      obtain rfl := List.mem_singleton.mp hj
      have hlen := Cond.length_forwardJump hc
      cases short with
      | true =>
        simp only [Jump.ending, Jump.field, Field.stop, if_true] at hlen ⊢
        omega
      | false =>
        simp only [Jump.ending, Jump.field, Field.stop, Bool.false_eq_true, if_false] at hlen ⊢
        omega
  | setJumpTarget label =>
    simp only [effect] at h
    split at h
    · cases h; exact nofun
    · next hl =>
      split at h <;> cases h
      · exact nofun
      · exact List.mem_of_getElem? hl
  | jumpToGuest target => cases h; rfl
  | branchToGuest c target => cases c <;> cases h <;> rfl

theorem effect_branches {eff : Effect} (h : c.effect m here labels = .ok eff) :
    eff.branches = c.branches here := by
  have hwrite : ∀ {out : Except Misuse (List UInt8)} {new : List UInt8 → List Jump},
      out.map (fun chunk => Effect.write chunk (new chunk) (.ok ())) = .ok eff →
        eff.branches = [] := by
    intro out new h
    cases out <;> cases h
    rfl
  cases c with
  | encode r => cases h; rfl
  | append chunk => cases h; rfl
  | jumpShort c rel => exact hwrite h
  | jumpNear c rel => exact hwrite h
  | jumpBackward c offset => exact hwrite h
  | jumpForward c short => exact hwrite h
  | setJumpTarget label =>
    simp only [effect] at h
    split at h
    · cases h; rfl
    · split at h <;> cases h <;> rfl
  | jumpToGuest target => cases h; rfl
  | branchToGuest c target => cases c <;> cases h <;> rfl

/-! ## The calls have their effects -/

/-- The call does what it is to do, or it is broken off and nothing but bytes is written. -/
def Does (x : Attempt Writing (Except Error Unit)) (w : Writing) : Except Misuse Effect → Prop
  | .error e => x w = .error (.misuse e) w
  | .ok eff => Ensures x w (fun r w' => r = eff.answer ∧ eff.Applied w w')
    (fun f w' => Broke f w.1 w'.1 ∧ w'.2 = w.2)

variable {w : Writing}

/-- A call has its effect, is refused, or is broken off. -/
theorem Does.cases {x : Attempt Writing (Except Error Unit)} {out : Except Misuse Effect}
    (h : Does x w out) :
    (∃ eff w', out = .ok eff ∧ x w = .ok eff.answer w' ∧ eff.Applied w w') ∨
    (∃ m, out = .error m ∧ x w = .error (.misuse m) w) ∨
    ∃ f a, x w = .error f (a, w.2) ∧ Broke f w.1 a := by
  cases out with
  | error m => exact .inr (.inl ⟨m, rfl, h⟩)
  | ok eff =>
    unfold Does Ensures at h
    cases hx : x w with
    | ok r w' =>
      simp only [hx] at h
      obtain ⟨rfl, happ⟩ := h
      exact .inl ⟨eff, w', rfl, rfl, happ⟩
    | error f w' =>
      simp only [hx] at h
      obtain ⟨hb, hl⟩ := h
      exact .inr (.inr ⟨f, w'.1, by rw [← hl], hb⟩)

theorem plain_does {x : Attempt Assembler (Except Error Unit)} {eff : Effect}
    (h : Ensures x w.1 (fun r a => r = eff.answer ∧ eff.Applied w (a, w.2))
      (fun f a => Broke f w.1 a)) : Does (plain x) w (.ok eff) := by
  obtain ⟨a, labels⟩ := w
  unfold Ensures at h
  unfold Does Ensures plain
  cases hx : x a <;> simp only [hx] at h ⊢
  · exact h
  · exact ⟨h, trivial⟩

theorem plain_refused {x : Attempt Assembler (Except Error Unit)} {e : Misuse}
    (h : x w.1 = .error (.misuse e) w.1) : Does (plain x) w (.error e) := by
  obtain ⟨a, labels⟩ := w
  unfold Does plain
  simp only at h
  simp only [h]

theorem plain_writes {x : Attempt Assembler Unit} {out : Except Misuse (List UInt8)}
    (h : Writes x w.1 out) :
    Does (plain (x *> pure (.ok ()))) w (out.map (Effect.write · [] (.ok ()))) := by
  cases out with
  | error e =>
    refine plain_refused ?_
    change x w.1 = _ at h
    simp only [SeqRight.seqRight, EStateM.seqRight, h]
  | ok chunk =>
    refine plain_does (.bind (h.imp ?_ fun _ _ => id))
    rintro - a ⟨hw, hl⟩
    exact .pure ⟨rfl, .unlabelled hw hl⟩

theorem plain_records {x : Attempt Assembler Unit} {b : Branch}
    (h : Ensures x w.1 (fun _ a => Recorded b w.1 a) (fun f a => Broke f w.1 a)) :
    Does (plain (x *> pure (.ok ()))) w (.ok (.branch b)) := by
  refine plain_does (.bind (h.imp ?_ fun _ _ => id))
  intro _ a hr
  exact .pure ⟨rfl, .branch hr⟩

theorem run_does (ha : w.1.Tidy) (hl : ∀ j ∈ w.2, j.field.stop ≤ w.1.offset) (c : Call) :
    Does c.run w (c.effect w.1.mode w.1.offset w.2) := by
  cases c with
  | encode r =>
    refine plain_does ((encode_ensures ha r).imp ?_ fun _ _ => id)
    rintro v a ⟨rfl, hw, hl⟩
    exact ⟨rfl, .unlabelled hw hl⟩
  | append chunk =>
    have hw : Writes (Assembler.append chunk) w.1 (.ok chunk) := append_ensures ha chunk
    exact plain_writes hw
  | jumpShort c rel => exact plain_writes (jumpShort_writes ha c rel)
  | jumpNear c rel => exact plain_writes (jumpNear_writes ha c rel)
  | jumpBackward c offset => exact plain_writes (jumpBackward_writes ha c offset)
  | jumpForward c short =>
    have hj := jumpForward_ensures ha c short
    obtain ⟨a, labels⟩ := w
    rw [effect]
    cases hc : c.forwardJump short with
    | error e =>
      simp only [hc] at hj
      change run (.jumpForward c short) (a, labels) = _
      simp only [run, hj]
    | ok chunk =>
      simp only [hc] at hj
      change Ensures _ _ _ _
      unfold Ensures at hj ⊢
      simp only [run]
      cases hr : Assembler.jumpForward c short a <;> simp only [hr] at hj ⊢
      · obtain ⟨rfl, hw, hl⟩ := hj
        exact ⟨rfl, .write hw hl⟩
      · exact ⟨hj, trivial⟩
  | setJumpTarget label =>
    obtain ⟨a, labels⟩ := w
    rw [effect]
    cases hj : labels[label]? with
    | none =>
      change Ensures _ _ _ _
      simp only [Ensures, run, hj]
      exact ⟨rfl, .unlabelled (.refl ha) id⟩
    | some j =>
      have hset := setJumpTarget_ensures j (hl j (List.mem_of_getElem? hj))
      cases hd : j.displacement a.offset with
      | error e =>
        simp only [hd] at hset ⊢
        change Ensures _ _ _ _
        simp only [Ensures, run, hj, plain, hset]
        exact ⟨rfl, .unlabelled (.refl ha) id⟩
      | ok chunk =>
        simp only [hd] at hset ⊢
        obtain ⟨b, hr, hf, he⟩ := hset
        change Ensures _ _ _ _
        simp only [Ensures, run, hj, plain, he]
        exact ⟨rfl, .fill hr hf⟩
  | jumpToGuest target => exact plain_records (jumpToGuest_ensures ha _ target)
  | branchToGuest c target =>
    cases c with
    | always => exact plain_records (jumpToGuest_ensures ha _ target)
    | flag f => exact plain_records (branchToGuest_ensures ha _ f target)
    | unnamed code => exact plain_refused rfl

end Call

end HostCode
