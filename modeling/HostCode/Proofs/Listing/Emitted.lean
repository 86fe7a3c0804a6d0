import HostCode.Proofs.Listing.Parts

/-! # Listings of an assembler in use

While instructions are written, jumps resolved, buffers moved and code discarded, an assembler
keeps what it has written line by line. So a listing has one line for each instruction that is
still there, one for each embedded address and no other, and a listing from one call on is the
rest of it.
-/

namespace HostCode

open CodeBuffer Segment Assembler

/-! ## Parts that follow each other -/

namespace Part

def origin (stop : Nat) : List Part → Nat
  | [] => stop
  | p :: _ => p.start

def lines (b : CodeBuffer) (es : List (List Part)) : List Listing.Line := es.flatten.map (line b)

variable {wide : Bool} {i j k : Nat} {p : Part} {ps qs : List Part} {b : CodeBuffer}

theorem tiled_append :
    Tiled i (ps ++ qs) k ↔ Tiled i ps (origin k qs) ∧ Tiled (origin k qs) qs k := by
  induction ps generalizing i with
  | nil =>
    cases qs with
    | nil => exact ⟨fun h => ⟨h, rfl⟩, And.left⟩
    | cons q qs =>
      constructor
      · rintro ⟨rfl, h⟩
        exact ⟨rfl, rfl, h⟩
      · rintro ⟨rfl, h⟩
        exact h
  | cons p ps ih =>
    rw [List.cons_append, Tiled, Tiled, ih, and_assoc]

theorem Tiled.origin_eq (h : Tiled i ps j) : origin j ps = i := by
  cases ps with
  | nil => exact h.symm
  | cons p ps => exact h.1

theorem start_le_stop (p : Part) : p.start ≤ p.stop := by
  rw [stop, Nat.add_assoc]
  exact Nat.le_add_right ..

theorem Tiled.le (h : Tiled i ps j) : i ≤ j := by
  induction ps generalizing i with
  | nil => exact Nat.le_of_eq h
  | cons p ps ih =>
    obtain ⟨rfl, h⟩ := h
    exact Nat.le_trans p.start_le_stop (ih h)

theorem Tiled.inside (h : Tiled i ps j) : ∀ p ∈ ps, i ≤ p.start ∧ p.stop ≤ j := by
  induction ps generalizing i with
  | nil => simp
  | cons q ps ih =>
    obtain ⟨rfl, h⟩ := h
    refine List.forall_mem_cons.mpr ⟨⟨Nat.le_refl _, h.le⟩, fun p hp => ?_⟩
    obtain ⟨hstart, hstop⟩ := ih h p hp
    exact ⟨Nat.le_trans q.start_le_stop hstart, hstop⟩

theorem Tiled.stop_le (h : Tiled i ps j) (hled : Led ps) {f : Field} (hin : f.stop ≤ j)
    (hap : ∀ p ∈ ps, p.fixed.Apart f) (hlt : f.start < i) : f.stop ≤ i := by
  cases ps with
  | nil =>
    obtain rfl : i = j := h
    exact hin
  | cons p ps =>
    obtain ⟨rfl, -⟩ := h
    have hpos := List.length_pos_iff.mpr (hled p rfl)
    rcases hap p List.mem_cons_self with hap | hap
    · simp only [fixed, Field.stop] at hap
      omega
    · exact hap

theorem embedded_append (ps qs : List Part) : embedded (ps ++ qs) = embedded ps ++ embedded qs := by
  rw [embedded, List.filter_append, List.map_append, embedded, embedded]

theorem embedded_lines (b : CodeBuffer) (ps : List Part) :
    Listing.embedded (ps.map (line b)) = embedded ps := by
  rw [Listing.embedded, List.filter_map, List.map_map]
  rfl

theorem Sound.start_lt_stop (h : p.Sound wide) : p.start < p.stop := by
  obtain ⟨start, stem, hole, content⟩ := p
  rw [stop, Nat.add_assoc]
  refine Nat.lt_add_of_pos_right ?_
  cases content with
  | instruction =>
    have hform := h (List.replicate hole 0) List.length_replicate
    have hpos := List.length_pos_iff.mpr hform.ne_nil
    rw [List.length_append, List.length_replicate] at hpos
    exact hpos
  | data =>
    obtain ⟨rfl, rfl⟩ : stem = [] ∧ hole = 8 := h
    exact Nat.zero_lt_succ 7
  | bad => exact h.elim

theorem Tiled.embedded_inside (h : Tiled i ps j) (hs : ∀ p ∈ ps, p.Sound wide) :
    ∀ l ∈ embedded ps, i ≤ l ∧ l < j := by
  intro l hl
  obtain ⟨p, hp, rfl⟩ := List.mem_map.mp hl
  have hp := List.mem_of_mem_filter hp
  obtain ⟨hstart, hstop⟩ := h.inside p hp
  exact ⟨hstart, Nat.lt_of_lt_of_le (hs p hp).start_lt_stop hstop⟩

theorem led_flatten {es : List (List Part)} (h : ∀ ps ∈ es, Led ps) : Led es.flatten := by
  induction es with
  | nil => simp [Led]
  | cons ps es ih =>
    obtain ⟨hps, hes⟩ := List.forall_mem_cons.mp h
    cases ps with
    | nil => exact ih hes
    | cons p ps => exact hps

theorem Tiled.laid (h : Tiled i ps j) (hs : ∀ p ∈ ps, p.Sound wide) (hj : j ≤ b.length) :
    Listing.Laid wide i (ps.map (line b)) := by
  induction ps generalizing i with
  | nil => exact .nil i
  | cons p ps ih =>
    obtain ⟨hp, hps⟩ := List.forall_mem_cons.mp hs
    obtain ⟨rfl, h⟩ := h
    have hgap : (b.field p.gap).length = p.hole := length_field (Nat.le_trans h.le hj)
    have hrest := ih h hps
    rw [stop, Nat.add_assoc] at hrest
    obtain ⟨start, stem, hole, content⟩ := p
    cases content with
    | instruction =>
      refine .instruction (hp _ hgap) ?_
      rw [List.length_append, hgap]
      exact hrest
    | data =>
      obtain ⟨rfl, rfl⟩ : stem = [] ∧ hole = 8 := hp
      exact .data hgap hrest
    | bad => exact hp.elim

theorem Tiled.shown_eq (h : Tiled i ps j) (hkept : ∀ p ∈ ps, b.field p.fixed = p.stem) :
    Listing.shown (ps.map (line b)) = b.field ⟨i, j - i⟩ := by
  induction ps generalizing i with
  | nil =>
    obtain rfl : i = j := h
    rw [Nat.sub_self]
    simp [Listing.shown, field, slice]
  | cons p ps ih =>
    obtain ⟨hp, hps⟩ := List.forall_mem_cons.mp hkept
    obtain ⟨rfl, h⟩ := h
    have hle := h.le
    have hsize : j - p.start = p.stem.length + (p.hole + (j - p.stop)) := by
      rw [stop] at hle ⊢
      omega
    have hgap : p.start + p.stem.length + p.hole = p.stop := rfl
    rw [List.map_cons, line, Listing.shown_cons, ih h hps, hsize, field_add, field_add, hgap,
      List.append_assoc]
    exact congrArg (· ++ _) hp.symm

end Part

/-! ## What a run leaves -/

inductive Resolving
  | outside (target : GuestAddress) (host : HostAddress)
  | inside (target : GuestAddress) (offset : Int)
  | known (lookup : GuestAddress → Option Int)

def Resolving.run : Resolving → Attempt Segment (Nat × Option JumpRange)
  | outside target host => Segment.resolve target host
  | inside target offset => resolveOffset target offset
  | known lookup => resolveKnown lookup

/-- What was written with an assembler and is still there, call by call. No raw bytes are written,
and code is discarded from one of the calls on. A call that finds no room moves the buffer. -/
inductive Emitted : List (List Part) → Writing → Prop
  | new {b : CodeBuffer} {m : AddressingMode} (unused : b.Unused) : Emitted [] (.new b m, [])
  | call {es : List (List Part)} {w w' : Writing} {c : Call} {r : Except Error Unit}
    (h : Emitted es w) (hc : ∀ chunk, c ≠ .append chunk) (hx : c.run w = .ok r w') :
    Emitted (es ++ [c.parts w.1.mode w.1.offset w.2]) w'
  | resolve {es : List (List Part)} {w : Writing} {x : Resolving} {v : Nat × Option JumpRange}
    {a : Assembler} (h : Emitted es w) (hx : onSegment x.run w.1 = .ok v a) : Emitted es (a, w.2)
  /-- The forward jumps that are discarded cannot be given a target any more. -/
  | truncate {kept dropped : List (List Part)} {w : Writing} {a : Assembler}
    (h : Emitted (kept ++ dropped) w)
    (hx : Assembler.truncate (Part.origin w.1.offset dropped.flatten) w.1 = .ok () a) :
    Emitted kept (a, w.2.filter (·.site < Part.origin w.1.offset dropped.flatten))

/-- The code is made of what the calls have written, and all of it can be listed. -/
structure Exact (es : List (List Part)) (w : Writing) : Prop where
  ready : Ready w
  tiled : Part.Tiled 0 es.flatten w.1.offset
  led : ∀ ps ∈ es, Part.Led ps
  sound : ∀ p ∈ es.flatten, p.Sound w.1.mode.wide
  kept : ∀ p ∈ es.flatten, Kept w p
  literals : w.1.literals = Part.embedded es.flatten

namespace Exact

variable {es kept dropped : List (List Part)} {w w' : Writing} {a : Assembler}
  {labels : List Jump} {s : Segment}

theorem new {b : CodeBuffer} {m : AddressingMode} (unused : b.Unused) :
    Exact [] (.new b m, []) where
  ready := (Assembled.new unused).ready
  tiled := by
    have hempty : b.length = 0 := by simp [CodeBuffer.length, unused.bytes]
    exact hempty.symm
  led := by simp
  sound := by simp
  kept := by simp
  literals := rfl

/-- A call adds its own lines at the end, and keeps the others. -/
theorem call (h : Exact es w) {c : Call} (hc : ∀ chunk, c ≠ .append chunk)
    {r : Except Error Unit} (hx : c.run w = .ok r w') :
    Exact (es ++ [c.parts w.1.mode w.1.offset w.2]) w' := by
  obtain ⟨eff, w'', heff, hrun, happ⟩ | ⟨m, -, hrun⟩ | ⟨f, a, hrun, -⟩ := h.ready.run_cases c
  · cases hx.symm.trans hrun
    have hproper := Call.effect_proper hc heff
    have hfits := Call.effect_fits heff
    have hused : Used (·.failure = none) w none w' := .applied hfits happ
    have hflat : (es ++ [c.parts w.1.mode w.1.offset w.2]).flatten =
        es.flatten ++ eff.parts w.1.mode w.1.offset := by
      rw [List.flatten_append, List.flatten_singleton, Call.parts, heff]
    have htiled := hproper.tiled happ
    refine ⟨hused.ready h.ready, ?_, ?_, ?_, ?_, ?_⟩
    · rw [hflat, Part.tiled_append, htiled.origin_eq]
      exact ⟨h.tiled, htiled⟩
    · refine List.forall_mem_append.mpr ⟨h.led, List.forall_mem_singleton.mpr ?_⟩
      rw [Call.parts, heff]
      exact hproper.led
    · rw [hflat, hused.mode]
      exact List.forall_mem_append.mpr ⟨h.sound, hproper.sound⟩
    · rw [hflat]
      refine List.forall_mem_append.mpr ⟨fun p hp => ?_, hproper.kept h.ready.toKempt happ⟩
      exact (h.kept p hp).applied hfits happ
    · rw [hflat, Part.embedded_append, ← h.literals]
      exact hproper.literals h.ready.tidy happ
  · cases hx.symm.trans hrun
  · cases hx.symm.trans hrun

theorem resolved (h : Exact es (a, labels)) {target : GuestAddress} {dest : Destination}
    {new : List Patched} (hres : Resolved (leadOne target dest) new a.segment s) :
    Exact es ({ a with segment := s }, labels) where
  ready := (Used.resolved hres).ready h.ready
  tiled := by
    have hlen : Assembler.offset { a with segment := s } = a.offset := hres.length
    rw [hlen]
    exact h.tiled
  led := h.led
  sound := h.sound
  kept p hp := (h.kept p hp).resolved hres
  literals := h.literals

theorem resolveTo (h : Exact es (a, labels)) (target : GuestAddress) (dest : Destination) :
    Ensures (Segment.resolveTo target dest) a.segment
      (fun _ s => Exact es ({ a with segment := s }, labels)) (fun _ _ => True) := by
  refine (resolveTo_ensures h.ready.tidy.segment target dest).imp ?_ fun _ _ _ => trivial
  rintro v s ⟨new, hres, -⟩
  exact h.resolved hres

theorem resolveOffset (h : Exact es (a, labels)) (target : GuestAddress) (offset : Int) :
    Ensures (Segment.resolveOffset target offset) a.segment
      (fun _ s => Exact es ({ a with segment := s }, labels)) (fun _ _ => True) := by
  by_cases hin : 0 ≤ offset ∧ offset ≤ a.segment.length
  · rw [Ensures, resolveOffset_eq, if_pos hin]
    exact h.resolveTo target _
  · rw [Ensures, resolveOffset_eq, if_neg hin]
    trivial

theorem resolveEach (h : Exact es ({ a with segment := s }, labels))
    (lookup : GuestAddress → Option Int) (targets : List GuestAddress) :
    Ensures (Segment.resolveEach lookup targets) s
      (fun _ s => Exact es ({ a with segment := s }, labels)) (fun _ _ => True) := by
  induction targets generalizing s with
  | nil => exact .pure h
  | cons g gs ih =>
    rw [Segment.resolveEach]
    cases lookup g with
    | none => exact ih h
    | some offset =>
      refine .bind ((h.resolveOffset g offset).imp ?_ fun _ _ => id)
      rintro ⟨n, _ | e⟩ s' h'
      · refine .bind ((ih h').imp ?_ fun _ _ => id)
        intro v s'' h''
        exact .pure h''
      · exact .pure h'

theorem resolving (h : Exact es w) (x : Resolving) {v : Nat × Option JumpRange}
    (hx : onSegment x.run w.1 = .ok v a) : Exact es (a, w.2) := by
  obtain ⟨start, labels⟩ := w
  have hensures : Ensures x.run start.segment
      (fun _ s => Exact es ({ start with segment := s }, labels)) (fun _ _ => True) := by
    cases x with
    | outside target host => exact h.resolveTo target (.outside host)
    | inside target offset => exact h.resolveOffset target offset
    | known lookup =>
      have hall : Exact es ({ start with segment := start.segment }, labels) := h
      exact hall.resolveEach lookup start.segment.table.targets
  unfold Ensures at hensures
  unfold onSegment at hx
  split at hx
  · next hrun =>
    cases hx
    simp only [hrun] at hensures
    exact hensures
  · cases hx

theorem tiled_from (h : Exact (kept ++ dropped) w) :
    Part.Tiled 0 kept.flatten (Part.origin w.1.offset dropped.flatten) ∧
      Part.Tiled (Part.origin w.1.offset dropped.flatten) dropped.flatten w.1.offset := by
  have htiled := h.tiled
  rw [List.flatten_append] at htiled
  exact Part.tiled_append.mp htiled

/-- Discarding the code from one of the calls on discards what it and the later ones have
written, and nothing else. -/
theorem truncate (h : Exact (kept ++ dropped) w)
    (hx : Assembler.truncate (Part.origin w.1.offset dropped.flatten) w.1 = .ok () a) :
    Exact kept (a, w.2.filter (·.site < Part.origin w.1.offset dropped.flatten)) := by
  obtain ⟨hbefore, hbehind⟩ := h.tiled_from
  generalize Part.origin w.1.offset dropped.flatten = n at hx hbefore hbehind ⊢
  have hsound := h.sound
  have hall := h.kept
  rw [List.flatten_append, List.forall_mem_append] at hsound hall
  have hled : Part.Led dropped.flatten :=
    Part.led_flatten fun ps hps => h.led ps (List.mem_append_right _ hps)
  -- nothing that can be written again reaches across the cut, since a call begins there
  have hcut : Boundary n w.1.segment := by
    intro f hf
    exact hbehind.stop_le hled (h.ready.tidy.segment.inside f hf) fun p hp =>
      (hall.2 p hp).sites f hf
  have hlabels : ∀ j ∈ w.2, j.site < n → j.field.stop ≤ n := by
    intro j hj
    exact hbehind.stop_le hled (h.ready.labels j hj).1 fun p hp => (hall.2 p hp).labels j hj
  obtain ⟨s', hcutOff, ht, hready⟩ := h.ready.truncated hbehind.le hcut hlabels
  cases hx.symm.trans hcutOff
  have hoff : Assembler.offset { w.1 with segment := s', literals := w.1.literals.filter (· < n) } =
      n := ht.length
  refine ⟨hready, ?_, ?_, hsound.1, ?_, ?_⟩
  · rw [hoff]
    exact hbefore
  · exact fun ps hps => h.led ps (List.mem_append_left _ hps)
  · exact fun p hp => (hall.1 p hp).truncated (hbefore.inside p hp).2 ht _
  · change w.1.literals.filter (· < n) = _
    rw [h.literals, List.flatten_append, Part.embedded_append, List.filter_append,
      List.filter_eq_self.mpr, List.filter_eq_nil_iff.mpr, List.append_nil]
    · intro l hl hlt
      exact Nat.not_lt_of_le (hbehind.embedded_inside hsound.2 l hl).1 (of_decide_eq_true hlt)
    · intro l hl
      exact decide_eq_true (hbefore.embedded_inside hsound.1 l hl).2

end Exact

theorem Emitted.exact {es : List (List Part)} {w : Writing} (h : Emitted es w) : Exact es w := by
  induction h with
  | new unused => exact .new unused
  | call _ hc hx ih => exact ih.call hc hx
  | resolve _ hx ih => exact ih.resolving _ hx
  | truncate _ hx ih => exact ih.truncate hx

/-! ## The listing -/

theorem Assembler.length_code (a : Assembler) : a.code.length = a.offset := Array.length_toList

theorem Assembler.drop_code (a : Assembler) (k : Nat) :
    a.code.drop k = a.segment.buffer.field ⟨k, a.offset - k⟩ := by
  have hlen : (a.code.drop k).length ≤ a.offset - k := by rw [List.length_drop, length_code]
  simp only [field, slice, Array.toList_extract, List.extract_eq_take_drop,
    Nat.add_sub_cancel_left]
  exact (List.take_of_length_le hlen).symm

namespace Exact

variable {es before behind : List (List Part)} {w : Writing}

theorem laid (h : Exact es w) :
    Listing.Laid w.1.mode.wide 0 (Part.lines w.1.segment.buffer es) :=
  h.tiled.laid h.sound (Nat.le_refl _)

theorem shown_eq (h : Exact es w) :
    Listing.shown (Part.lines w.1.segment.buffer es) = w.1.code := by
  rw [Part.lines, h.tiled.shown_eq fun p hp => (h.kept p hp).held]
  exact (w.1.drop_code 0).symm

theorem lines_from (h : Exact (before ++ behind) w) :
    (Part.lines w.1.segment.buffer (before ++ behind)).filter
        (Part.origin w.1.offset behind.flatten ≤ ·.offset) =
      Part.lines w.1.segment.buffer behind := by
  obtain ⟨hbefore, hbehind⟩ := h.tiled_from
  have hsound := h.sound
  rw [List.flatten_append, List.forall_mem_append] at hsound
  rw [Part.lines, List.flatten_append, List.map_append, List.filter_append,
    List.filter_eq_nil_iff.mpr, List.filter_eq_self.mpr, List.nil_append, Part.lines]
  · intro l hl
    obtain ⟨p, hp, rfl⟩ := List.mem_map.mp hl
    exact decide_eq_true (hbehind.inside p hp).1
  · intro l hl hle
    obtain ⟨p, hp, rfl⟩ := List.mem_map.mp hl
    have hlt := Nat.lt_of_lt_of_le (hsound.1 p hp).start_lt_stop (hbefore.inside p hp).2
    exact Nat.not_le_of_lt hlt (of_decide_eq_true hle)

theorem lines_eq (h : Exact (before ++ behind) w) (hlimit : w.1.offset < offsetLimit)
    {decode : List UInt8 → Option Nat} (hd : Measures w.1.mode.wide decode) :
    Listing.lines decode (Part.origin w.1.offset behind.flatten)
        (w.1.code.drop (Part.origin w.1.offset behind.flatten))
        (w.1.literals.map Listing.literal) =
      .ok (Part.lines w.1.segment.buffer behind) := by
  obtain ⟨hbefore, hbehind⟩ := h.tiled_from
  have hsound := h.sound
  have hkept := h.kept
  rw [List.flatten_append, List.forall_mem_append] at hsound hkept
  have hlaid := hbehind.laid hsound.2 (Nat.le_refl w.1.segment.buffer.length)
  have hshown := (w.1.drop_code _).trans
    (hbehind.shown_eq fun p hp => (hkept.2 p hp).held).symm
  rw [hshown, h.literals, List.flatten_append, Part.embedded_append,
    List.map_append, Listing.lines_skip, ← Part.embedded_lines w.1.segment.buffer behind.flatten]
  · refine hlaid.lines_eq hd ?_
    rw [← hshown, List.length_drop, length_code, Nat.add_sub_cancel' hbehind.le]
    exact hlimit
  · intro l hl
    obtain ⟨o, ho, rfl⟩ := List.mem_map.mp hl
    exact Int.ofNat_lt.mpr (hbefore.embedded_inside hsound.1 o ho).2

end Exact

/-- The listing of an assembler shows what was written with it and is still there, whatever was
resolved, moved or discarded meanwhile: a line for each instruction, at its offset and with its
bytes, a line for the address of each jump that reads one, and nothing else. From where one of the
calls has begun to write, the listing is the rest of this one. All of it holds for any decoder
that finds the lengths of these instructions, like the one at hand, as long as the code has not
outgrown the offsets. -/
theorem Emitted.listing_eq {es : List (List Part)} {w : Writing} (h : Emitted es w)
    (hlimit : w.1.offset < offsetLimit) :
    (Part.lines w.1.segment.buffer es).Pairwise (fun l m => l.offset < m.offset) ∧
    Listing.shown (Part.lines w.1.segment.buffer es) = w.1.code ∧
    Measures w.1.mode.wide (Decoder.length w.1.mode.wide) ∧
    ∀ decode, Measures w.1.mode.wide (decode w.1.mode.wide) →
      w.1.listing 0 decode = .ok (Part.lines w.1.segment.buffer es) ∧
      ∀ before behind k, es = before ++ behind → k = Part.origin w.1.offset behind.flatten →
        w.1.listing k decode =
          .ok ((Part.lines w.1.segment.buffer es).filter (k ≤ ·.offset)) := by
  have hexact := h.exact
  refine ⟨hexact.laid.ascending, hexact.shown_eq, Decoder.length_measures _, fun decode hd => ?_⟩
  have hfrom : ∀ before behind k, es = before ++ behind →
      k = Part.origin w.1.offset behind.flatten →
        w.1.listing k decode =
          .ok ((Part.lines w.1.segment.buffer es).filter (k ≤ ·.offset)) := by
    rintro before behind k rfl rfl
    rw [hexact.lines_from, listing, Listing.ofCode, if_neg (by omega), Int.toNat_natCast]
    exact hexact.lines_eq hlimit hd
  refine ⟨?_, hfrom⟩
  have hall := hfrom [] es 0 rfl hexact.tiled.origin_eq.symm
  rwa [List.filter_eq_self.mpr (by simp)] at hall

/-- A jump to the code behind it, and a forward jump over a return. The return moves the code, and
one more jump is discarded again. -/
theorem listing_eq_after_move :
    ∃ es w, Emitted es w ∧ w.1.offset < offsetLimit ∧ w.1.segment.buffer.address = 0x20000 ∧
      w.1.listing 0 = .ok [
        ⟨0, [0xff, 0x25, 0, 0, 0, 0], .instruction⟩, ⟨6, [14, 0, 2, 0, 0, 0, 0, 0], .data⟩,
        ⟨14, [0xeb, 1], .instruction⟩, ⟨16, [0xc3], .instruction⟩] ∧
      w.1.listing 14 = .ok [⟨14, [0xeb, 1], .instruction⟩, ⟨16, [0xc3], .instruction⟩] := by
  let w₀ : Writing := (.new Config.twoPlaces.buffer (.baseRelative ⟨.bp, by decide⟩ 0), [])
  let jump : Call := .jumpToGuest 7
  let ahead : Call := .jumpForward .always true
  let ret : Call := .encode { op := .plain .ret }
  let land : Call := .setJumpTarget 0
  let parts (c : Call) (w : Writing) : List Part := c.parts w.1.mode w.1.offset w.2
  have hfacts : returned (fun _ w₁ =>
      returned (fun _ a₁ =>
        returned (fun _ w₂ =>
          returned (fun _ w₃ =>
            returned (fun _ w₄ =>
              returned (fun _ w₅ =>
                returned (fun _ a₆ =>
                  a₆.offset < offsetLimit ∧ a₆.segment.buffer.address = 0x20000 ∧
                  Part.origin a₆.offset
                    [parts ahead (a₁, w₁.2), parts ret w₂, parts land w₃].flatten = 14 ∧
                  Part.lines a₆.segment.buffer
                    [parts jump w₀, parts ahead (a₁, w₁.2), parts ret w₂, parts land w₃] =
                  [⟨0, [0xff, 0x25, 0, 0, 0, 0], .instruction⟩,
                    ⟨6, [14, 0, 2, 0, 0, 0, 0, 0], .data⟩, ⟨14, [0xeb, 1], .instruction⟩,
                    ⟨16, [0xc3], .instruction⟩])
                (Assembler.truncate (Part.origin w₅.1.offset [parts jump w₄].flatten) w₅.1))
              (jump.run w₄))
            (land.run w₃))
          (ret.run w₂))
        (ahead.run (a₁, w₁.2)))
      (onSegment (Resolving.inside 7 14).run w₁.1))
    (jump.run w₀) = true := by decide +kernel
  obtain ⟨r₁, w₁, hx₁, h₁⟩ := exists_of_returned hfacts
  obtain ⟨v, a₁, hresolve, hresolved⟩ := exists_of_returned h₁
  obtain ⟨r₂, w₂, hx₂, h₂⟩ := exists_of_returned hresolved
  obtain ⟨r₃, w₃, hx₃, h₃⟩ := exists_of_returned h₂
  obtain ⟨r₄, w₄, hx₄, h₄⟩ := exists_of_returned h₃
  obtain ⟨r₅, w₅, hx₅, h₅⟩ := exists_of_returned h₄
  obtain ⟨u, a₆, hcut, h₆⟩ := exists_of_returned h₅
  obtain ⟨hlimit, haddr, horigin, hlines⟩ := of_decide_eq_true h₆
  have hw₁ := Emitted.call (.new Config.twoPlaces_unused) (by simp [jump]) hx₁
  have hw₃ := ((hw₁.resolve hresolve).call (by simp [ahead]) hx₂).call (by simp [ret]) hx₃
  have hw₆ := ((hw₃.call (by simp [land]) hx₄).call (by simp [jump]) hx₅).truncate hcut
  obtain ⟨-, -, hmeasures, hlists⟩ := hw₆.listing_eq hlimit
  obtain ⟨hall, hfrom⟩ := hlists _ hmeasures
  refine ⟨_, _, hw₆, hlimit, haddr, hall.trans (congrArg Except.ok hlines), ?_⟩
  refine (hfrom [parts jump w₀] _ 14 rfl horigin.symm).trans ?_
  exact congrArg (fun ls : List Listing.Line => Except.ok (ls.filter (14 ≤ ·.offset))) hlines

end HostCode
