import HostCode.Jump
import HostCode.Listing
import HostCode.Proofs.Processor.Lengths

/-! # Listings of what an assembler writes

The instructions of an assembler have a few forms, and each is told from the bytes behind it,
whatever displacement it holds. So code that is made of such instructions, with embedded addresses
between them, is listed line by line as it was written, from any of these lines on.
-/

namespace HostCode

/-- The bytes of an instruction as they are written on a host: for a request, or for a jump over
any distance. -/
inductive Form (wide : Bool) : List UInt8 → Prop
  | request {mode : AddressingMode} {r : Request} {i : Instruction} (hw : mode.wide = wide)
    (h : Encoding.encode mode r = .ok (some i)) : Form wide i.bytes
  | short {c : Cond} {op : List UInt8} (h : c.shortOpcode = .ok op) (disp : UInt8) :
    Form wide (op ++ [disp])
  | near {c : Cond} {op disp : List UInt8} (h : c.nearOpcode = .ok op) (hd : disp.length = 4) :
    Form wide (op ++ disp)
  /-- The jump to the address behind it. -/
  | through (hw : wide = true) : Form wide [0xff, 0x25, 0, 0, 0, 0]

/-- A decoder finds the length of every instruction that can be written, whatever comes after. -/
def Measures (wide : Bool) (decode : List UInt8 → Option Nat) : Prop :=
  ∀ bytes tail, Form wide bytes → decode (bytes ++ tail) = some bytes.length

namespace Decoder

variable {wide : Bool} {c : Cond} {op disp : List UInt8}

theorem length_short (h : c.shortOpcode = .ok op) (d : UInt8) (tail : List UInt8) :
    length wide (op ++ d :: tail) = some (op.length + 1) := by
  cases c with
  | always =>
    cases h
    cases wide <;> rfl
  | flag f =>
    cases h
    cases wide <;> cases f <;> rfl
  | unnamed code => cases h

theorem length_near (h : c.nearOpcode = .ok op) (hd : disp.length = 4) (tail : List UInt8) :
    length wide (op ++ disp ++ tail) = some (op ++ disp).length := by
  match disp, hd with
  | [d₀, d₁, d₂, d₃], _ =>
    cases c with
    | always =>
      cases h
      cases wide <;> rfl
    | flag f =>
      cases h
      cases wide <;> cases f <;> rfl
    | unnamed code => cases h

theorem length_measures (wide : Bool) : Measures wide (length wide) := by
  intro bytes tail h
  cases h with
  | request hw h =>
    obtain ⟨d, -, hd⟩ := Processor.encode_answers h
    rw [hw] at hd
    exact length_append_of_decode hd tail
  | short h d =>
    rw [List.append_assoc, List.singleton_append, length_short h, List.length_append,
      List.length_singleton]
  | near h hd => exact length_near h hd tail
  | through hw =>
    subst hw
    exact length_append_of_decode
      (d := ⟨.transfer .jmp, none, none, [.relative .qword 0]⟩) (fun _ => rfl) tail

end Decoder

theorem Form.ne_nil {wide : Bool} {bytes : List UInt8} (h : Form wide bytes) : bytes ≠ [] := by
  rintro rfl
  have hlen := Decoder.length_measures wide _ [] h
  cases wide <;> cases hlen

namespace Listing

/-- Lines that follow each other from an offset on, each of them an instruction that can be
written or an embedded address. -/
inductive Laid (wide : Bool) : Nat → List Line → Prop
  | nil (offset : Nat) : Laid wide offset []
  | instruction {offset : Nat} {bytes : List UInt8} {ls : List Line} (form : Form wide bytes)
    (rest : Laid wide (offset + bytes.length) ls) :
    Laid wide offset (⟨offset, bytes, .instruction⟩ :: ls)
  | data {offset : Nat} {bytes : List UInt8} {ls : List Line} (size : bytes.length = 8)
    (rest : Laid wide (offset + 8) ls) : Laid wide offset (⟨offset, bytes, .data⟩ :: ls)

def shown (ls : List Line) : List UInt8 := ls.flatMap (·.bytes)

def embedded (ls : List Line) : List Nat := (ls.filter (·.content = .data)).map (·.offset)

def literal (offset : Nat) : Literal := ⟨offset, 8⟩

variable {wide : Bool} {decode : List UInt8 → Option Nat} {offset : Nat} {bytes : List UInt8}
  {ls : List Line}

@[simp] theorem shown_cons {content : Content} :
    shown (⟨offset, bytes, content⟩ :: ls) = bytes ++ shown ls := rfl

@[simp] theorem embedded_instruction :
    embedded (⟨offset, bytes, .instruction⟩ :: ls) = embedded ls := rfl

@[simp] theorem embedded_data :
    embedded (⟨offset, bytes, .data⟩ :: ls) = offset :: embedded ls := rfl

theorem Laid.le_offset (h : Laid wide offset ls) : ∀ l ∈ ls, offset ≤ l.offset := by
  induction h with
  | nil offset => simp
  | instruction form rest ih =>
    refine List.forall_mem_cons.mpr ⟨Nat.le_refl _, fun l hl => ?_⟩
    exact Nat.le_trans (Nat.le_add_right ..) (ih l hl)
  | data size rest ih =>
    refine List.forall_mem_cons.mpr ⟨Nat.le_refl _, fun l hl => ?_⟩
    exact Nat.le_trans (Nat.le_add_right ..) (ih l hl)

theorem Laid.ascending (h : Laid wide offset ls) : ls.Pairwise fun l m => l.offset < m.offset := by
  induction h with
  | nil offset => exact .nil
  | instruction form rest ih =>
    refine List.pairwise_cons.mpr ⟨fun m hm => ?_, ih⟩
    have hle := rest.le_offset m hm
    have hpos := List.length_pos_iff.mpr form.ne_nil
    exact Nat.lt_of_lt_of_le (Nat.lt_add_of_pos_right hpos) hle
  | data size rest ih =>
    refine List.pairwise_cons.mpr ⟨fun m hm => ?_, ih⟩
    exact Nat.lt_of_lt_of_le (Nat.lt_add_of_pos_right (by decide)) (rest.le_offset m hm)

theorem Laid.embedded_inside (h : Laid wide offset ls) :
    ∀ o ∈ embedded ls, offset ≤ o ∧ o + 8 ≤ offset + (shown ls).length := by
  induction h with
  | nil offset => simp [embedded]
  | instruction form rest ih =>
    intro o ho
    have hin := ih o ho
    rw [shown_cons, List.length_append]
    omega
  | data size rest ih =>
    intro o ho
    rw [shown_cons, List.length_append, size]
    rcases List.mem_cons.mp ho with rfl | ho
    · omega
    · have hin := ih o ho
      omega

theorem lines_skip (old literals : List Literal) (hold : ∀ l ∈ old, l.offset < offset)
    (code : List UInt8) :
    lines decode offset code (old ++ literals) = lines decode offset code literals := by
  induction old with
  | nil => rfl
  | cons l old ih =>
    obtain ⟨hl, hold⟩ := List.forall_mem_cons.mp hold
    cases code with
    | nil => simp only [lines]
    | cons b bs =>
      rw [List.cons_append, lines, if_pos hl]
      exact ih hold

theorem lines_instruction (hd : Measures wide decode) (form : Form wide bytes)
    (rest : List UInt8) {literals : List Literal} (hlit : ∀ l ∈ literals.head?,
      (offset + bytes.length : Nat) ≤ l.offset ∧
        l.offset ≤ (offset + (bytes ++ rest).length : Nat)) :
    lines decode offset (bytes ++ rest) literals =
      add ⟨offset, bytes, .instruction⟩ (lines decode (offset + bytes.length) rest literals) := by
  obtain ⟨b, bs, rfl⟩ := List.exists_cons_of_ne_nil form.ne_nil
  cases literals with
  | nil =>
    have hn : decode (b :: (bs ++ rest)) = some (bs.length + 1) := hd (b :: bs) rest form
    rw [List.cons_append, lines]
    simp only [hn]
    simp
  | cons l ls =>
    obtain ⟨hlow, hhigh⟩ := hlit l rfl
    simp only [List.length_append, List.length_cons] at hlow hhigh
    have htake : (b :: (bs ++ rest)).take (l.offset - offset).toNat =
        (b :: bs) ++ rest.take ((l.offset - offset).toNat - (b :: bs).length) := by
      rw [← List.cons_append, List.take_append, List.take_of_length_le]
      rw [List.length_cons]
      omega
    have hn := hd (b :: bs) (rest.take ((l.offset - offset).toNat - (b :: bs).length)) form
    rw [← htake] at hn
    rw [List.cons_append, lines, if_neg (by omega), if_neg (by omega), if_neg]
    · simp only [hn, List.length_cons]
      simp
    · rw [List.length_cons, List.length_append]
      omega

theorem lines_data (hsize : bytes.length = 8) (rest : List UInt8)
    (hlimit : offset + 8 < offsetLimit) (literals : List Literal) :
    lines decode offset (bytes ++ rest) (literal offset :: literals) =
      add ⟨offset, bytes, .data⟩ (lines decode (offset + 8) rest literals) := by
  obtain ⟨b, bs, rfl⟩ : ∃ b bs, bytes = b :: bs := List.exists_cons_of_length_pos (by omega)
  have hmin : min (8 : Int).toNat (b :: (bs ++ rest)).length = (b :: bs).length := by
    simp only [List.length_cons, List.length_append] at hsize ⊢
    omega
  have hoff : (literal offset).offset = offset := rfl
  have hsize' : (literal offset).size = 8 := rfl
  rw [List.cons_append, lines, if_neg (by omega), if_pos hoff, if_neg (by omega)]
  simp only [hsize', hmin]
  rw [← List.cons_append, List.take_left, List.drop_left, hsize]

/-- Such lines are the listing of the code that they show. -/
theorem Laid.lines_eq (h : Laid wide offset ls) (hd : Measures wide decode)
    (hlimit : offset + (shown ls).length < offsetLimit) :
    lines decode offset (shown ls) ((embedded ls).map literal) = .ok ls := by
  induction h with
  | nil offset => rw [shown, List.flatMap_nil, lines]
  | @instruction offset bytes ls form rest ih =>
    rw [shown_cons, List.length_append] at hlimit
    rw [shown_cons, embedded_instruction, lines_instruction hd form, ih (by omega)]
    · rfl
    · -- no instruction reaches into an address, since these are all behind it
      intro l hl
      obtain ⟨o, ho, rfl⟩ := List.mem_map.mp (List.mem_of_mem_head? hl)
      have hin := rest.embedded_inside o ho
      rw [List.length_append]
      simp only [literal]
      omega
  | @data offset bytes ls size rest ih =>
    rw [shown_cons, List.length_append, size] at hlimit
    rw [shown_cons, embedded_data, List.map_cons, lines_data size _ (by omega), ih (by omega)]
    rfl

end Listing

end HostCode
