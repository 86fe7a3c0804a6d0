import Mathlib.Data.List.Forall2
import HostCode.Source.Program

/-! # Programs put together

A program is read line by line, and what a line says does not depend on those around it. So the
lines of one program can be put behind those of another: if they begin with a heading, the blocks
of both follow each other, and an error is met at the line where it was, counted from the start.
No line is lost when lines are gathered in blocks.
-/

namespace HostCode.Source

/-! ## Lines and what they say -/

def wordOf (text : List Char) : List Char := (cutAt ' ' (significant text)).1

def argumentOf (text : List Char) : List Char :=
  trimBlanks ((cutAt ' ' (significant text)).2.getD [])

def isBlankLine (text : List Char) : Bool := (significant text).isEmpty

def isHeadingLine (text : List Char) : Bool := isHeading (wordOf text)

def isCodeLine (text : List Char) : Bool := !isBlankLine text && !isHeadingLine text

inductive Says (stateBase : HostAddress) (text : List Char) : Option Item → Prop
  | blank (h : isBlankLine text = true) : Says stateBase text none
  | heading {guest : GuestAddress} (h : isHeadingLine text = true)
      (hread : readGuest (argumentOf text) = .ok guest) :
      Says stateBase text (some (.heading guest))
  | line {l : Line} (h : isCodeLine text = true)
      (hread : readLine stateBase (wordOf text) (argumentOf text) = .ok l) :
      Says stateBase text (some (.line l))

theorem isHeadingLine_of_blank {text : List Char} (h : isBlankLine text = true) :
    isHeadingLine text = false := by
  rw [isHeadingLine, wordOf, List.isEmpty_iff.1 h]
  decide

variable {stateBase : HostAddress} {text : List Char} {lines a b : List (List Char)}
  {number start n : Nat} {item : Option Item} {items : List Item}

theorem says_of_readItem (h : readItem stateBase number text = .ok item) :
    Says stateBase text item := by
  unfold readItem at h
  split at h
  · cases h
  dsimp only at h
  split at h
  · next hempty =>
    cases h
    exact .blank hempty
  next hcontent =>
  split at h
  · next hword =>
    split at h
    · next hread =>
      cases h
      exact .heading hword hread
    · cases h
  · next hword =>
    split at h
    · next hread =>
      cases h
      refine .line ?_ hread
      rw [isCodeLine, isBlankLine, Bool.eq_false_iff.2 hcontent, isHeadingLine, wordOf,
        Bool.eq_false_iff.2 hword]
      rfl
    · cases h

/-- The error with `n` more lines in front of the program. -/
def ProgramError.after (n : Nat) : ProgramError → ProgramError
  | heading number cause => heading (n + number) cause
  | line number text cause => line (n + number) text cause
  | tooLong => tooLong

theorem readItem_after (stateBase : HostAddress) (n number : Nat) (text : List Char) :
    readItem stateBase (n + number) text =
      (readItem stateBase number text).mapError (·.after n) := by
  unfold readItem
  split
  · rfl
  dsimp only
  split
  · rfl
  split
  · split <;> rfl
  · split <;> rfl

/-! ## Lists of lines -/

@[simp] theorem readItems_nil : readItems stateBase start [] = .ok [] := rfl

theorem readItems_cons : readItems stateBase start (text :: lines) = (do
    let item ← readItem stateBase start text
    let items ← readItems stateBase (start + 1) lines
    return item.toList ++ items) := by
  simp only [readItems, List.zipIdx_cons, List.mapM_cons]
  cases readItem stateBase start text with
  | error e => rfl
  | ok item =>
    cases (lines.zipIdx (start + 1)).mapM fun p => readItem stateBase p.2 p.1 with
    | error e => rfl
    | ok items => cases item <;> rfl

theorem readItems_append : readItems stateBase start (a ++ b) = (do
    let before ← readItems stateBase start a
    let after ← readItems stateBase (a.length + start) b
    return before ++ after) := by
  induction a generalizing start with
  | nil =>
    simp only [List.nil_append, List.length_nil, Nat.zero_add, readItems_nil]
    cases readItems stateBase start b <;> rfl
  | cons text a ih =>
    have hstart : a.length + (start + 1) = (text :: a).length + start := by
      simp only [List.length_cons]
      omega
    rw [List.cons_append, readItems_cons, readItems_cons, ih, hstart]
    cases readItem stateBase start text with
    | error e => rfl
    | ok item =>
      cases readItems stateBase (start + 1) a with
      | error e => rfl
      | ok before =>
        cases readItems stateBase ((text :: a).length + start) b with
        | error e => rfl
        | ok after => exact congrArg Except.ok (List.append_assoc _ _ _).symm

theorem readItems_after : readItems stateBase (n + start) lines =
    (readItems stateBase start lines).mapError (·.after n) := by
  induction lines generalizing start with
  | nil => rfl
  | cons text lines ih =>
    rw [readItems_cons, readItems_cons, readItem_after, Nat.add_assoc, ih]
    cases readItem stateBase start text with
    | error e => rfl
    | ok item => cases readItems stateBase (start + 1) lines <;> rfl

/-! ## Items in blocks -/

def Item.line? : Item → Option Line
  | line l => some l
  | heading _ => none

def Item.guest? : Item → Option GuestAddress
  | heading guest => some guest
  | line _ => none

def leadsWithLine (items : List Item) : Bool := (items.head?.bind Item.line?).isSome

/-- The lines in front of the first heading, and the blocks after them. -/
def gathered (items : List Item) : List Line × List Block := items.foldr Item.join ([], [])

theorem gathered_cons (item : Item) (items : List Item) :
    gathered (item :: items) = item.join (gathered items) := rfl

theorem gathered_fst_eq_nil_iff : (gathered items).1 = [] ↔ leadsWithLine items = false := by
  cases items with
  | nil => exact iff_of_true rfl rfl
  | cons item items =>
    rw [gathered_cons]
    cases item with
    | heading guest => exact iff_of_true rfl rfl
    | line l => exact iff_of_false (List.cons_ne_nil _ _) (Bool.noConfusion ·)

theorem gathered_append {after : List Item} (h : leadsWithLine after = false) :
    gathered (items ++ after) =
      ((gathered items).1, (gathered items).2 ++ (gathered after).2) := by
  induction items with
  | nil =>
    exact Prod.ext (gathered_fst_eq_nil_iff.2 h) rfl
  | cons item items ih =>
    rw [List.cons_append, gathered_cons, gathered_cons, ih]
    cases item <;> rfl

theorem lines_gathered : (gathered items).1 ++ (gathered items).2.flatMap Block.lines =
    items.filterMap Item.line? := by
  induction items with
  | nil => rfl
  | cons item items ih =>
    rw [gathered_cons]
    cases item with
    | heading guest => exact ih
    | line l => exact congrArg (l :: ·) ih

theorem guests_gathered : (gathered items).2.map Block.guest = items.filterMap Item.guest? := by
  induction items with
  | nil => rfl
  | cons item items ih =>
    rw [gathered_cons]
    cases item with
    | heading guest => exact congrArg (guest :: ·) ih
    | line l => exact ih

theorem blocksOf_eq (items : List Item) : blocksOf items =
    (if leadsWithLine items then [⟨0, (gathered items).1⟩] else []) ++ (gathered items).2 := by
  have hlead : (gathered items).1 = [] ↔ leadsWithLine items = false := gathered_fst_eq_nil_iff
  rw [blocksOf, ← gathered]
  split
  · next hgathered =>
    rw [hgathered] at hlead ⊢
    rw [hlead.1 rfl]
    rfl
  · next lines blocks hne hgathered =>
    rw [hgathered] at hlead ⊢
    have hline : leadsWithLine items = true := by simpa using mt hlead.2 hne
    rw [hline]
    rfl

theorem blocksOf_append {after : List Item} (h : leadsWithLine after = false) :
    blocksOf (items ++ after) = blocksOf items ++ blocksOf after := by
  have hlead : leadsWithLine (items ++ after) = leadsWithLine items := by
    cases items with
    | nil => exact h
    | cons item items => rfl
  rw [blocksOf_eq, blocksOf_eq, blocksOf_eq after, hlead, gathered_append h, h]
  simp

/-- No line is lost, and none is added. -/
theorem lines_blocksOf (items : List Item) :
    (blocksOf items).flatMap Block.lines = items.filterMap Item.line? := by
  rw [blocksOf_eq, ← lines_gathered]
  cases h : leadsWithLine items with
  | false => simp [gathered_fst_eq_nil_iff.2 h]
  | true => simp

theorem guests_blocksOf (items : List Item) : (blocksOf items).map Block.guest =
    (if leadsWithLine items then [0] else []) ++ items.filterMap Item.guest? := by
  rw [blocksOf_eq, ← guests_gathered, List.map_append]
  cases leadsWithLine items <;> rfl

/-! ## Lines that were read -/

/-- A line of code comes before the first heading. -/
def startsWithCode (lines : List (List Char)) : Bool :=
  (lines.takeWhile (!isHeadingLine ·)).any isCodeLine

theorem startsWithCode_eq_false_iff : startsWithCode lines = false ↔
    ∀ text, lines.find? (!isBlankLine ·) = some text → isHeadingLine text = true := by
  induction lines with
  | nil => exact iff_of_true rfl fun _ h => nomatch h
  | cons text lines ih =>
    cases hblank : isBlankLine text with
    | true =>
      have hhead := isHeadingLine_of_blank hblank
      simpa [startsWithCode, isCodeLine, hblank, hhead] using ih
    | false =>
      cases hhead : isHeadingLine text <;> simp [startsWithCode, isCodeLine, hblank, hhead]

/-- The items of a program are those of its lines, each in its place. -/
structure Itemized (stateBase : HostAddress) (lines : List (List Char)) (items : List Item) :
    Prop where
  code : List.Forall₂ (fun text l => readLine stateBase (wordOf text) (argumentOf text) = .ok l)
    (lines.filter isCodeLine) (items.filterMap Item.line?)
  headings : List.Forall₂ (fun text guest => readGuest (argumentOf text) = .ok guest)
    (lines.filter isHeadingLine) (items.filterMap Item.guest?)
  leads : leadsWithLine items = startsWithCode lines

theorem Itemized.cons (hitem : Says stateBase text item) (h : Itemized stateBase lines items) :
    Itemized stateBase (text :: lines) (item.toList ++ items) := by
  obtain ⟨hcode, hheadings, hleads⟩ := h
  cases hitem with
  | blank hblank =>
    have hhead := isHeadingLine_of_blank hblank
    have hline : isCodeLine text = false := by rw [isCodeLine, hblank]; rfl
    refine ⟨?_, ?_, ?_⟩
    · simpa [hline] using hcode
    · simpa [hhead] using hheadings
    · simpa [startsWithCode, hhead, hline] using hleads
  | heading hhead hread =>
    have hline : isCodeLine text = false := by rw [isCodeLine, hhead, Bool.not_true, Bool.and_false]
    refine ⟨?_, ?_, ?_⟩
    · simpa [hline, List.filterMap_cons, Item.line?] using hcode
    · simpa [hhead, Item.guest?] using ⟨hread, hheadings⟩
    · simp [startsWithCode, hhead, leadsWithLine, Item.line?]
  | line hline hread =>
    have hhead : isHeadingLine text = false := by
      rw [isCodeLine, Bool.and_eq_true, Bool.not_eq_true'] at hline
      simpa using hline.2
    refine ⟨?_, ?_, ?_⟩
    · simpa [hline, Item.line?] using ⟨hread, hcode⟩
    · simpa [hhead, List.filterMap_cons, Item.guest?] using hheadings
    · simp [startsWithCode, hhead, hline, leadsWithLine, Item.line?]

theorem itemized_of_readItems (h : readItems stateBase start lines = .ok items) :
    Itemized stateBase lines items := by
  induction lines generalizing start items with
  | nil =>
    cases h
    exact ⟨.nil, .nil, rfl⟩
  | cons text lines ih =>
    rw [readItems_cons] at h
    cases hitem : readItem stateBase start text with
    | error e => rw [hitem] at h; cases h
    | ok item =>
      cases hitems : readItems stateBase (start + 1) lines with
      | error e => rw [hitem, hitems] at h; cases h
      | ok rest =>
        rw [hitem, hitems] at h
        cases h
        exact (ih hitems).cons (says_of_readItem hitem)

/-! ## Texts -/

/-- A text with the given lines, of which the last one need not be ended. -/
def IsText (lines : List (List Char)) (text : String) : Prop :=
  (∀ l ∈ lines, '\n' ∉ l) ∧
    (text.toList = lines.flatMap (· ++ ['\n']) ∨ text.toList = ['\n'].intercalate lines)

theorem flatMap_ended (lines : List (List Char)) :
    lines.flatMap (· ++ ['\n']) = ['\n'].intercalate (lines ++ [[]]) := by
  induction lines with
  | nil => rfl
  | cons l lines ih =>
    rw [List.flatMap_cons, ih]
    cases lines <;> simp [List.intercalate_cons_cons]

theorem readItems_blank (stateBase : HostAddress) (start : Nat) :
    readItems stateBase start [[]] = .ok [] := rfl

/-- The end of the last line makes no difference. -/
theorem readProgram_of_isText {text : String} (h : IsText lines text) :
    readProgram stateBase text = blocksOf <$> readItems stateBase 1 lines := by
  obtain ⟨hlines, htext⟩ := h
  have hread : readItems stateBase 1 (text.toList.splitOn '\n') =
      readItems stateBase 1 lines := by
    obtain htext | htext := htext
    · have hlines' : ∀ l ∈ lines ++ [[]], '\n' ∉ l := by
        intro l hl
        rw [List.mem_append, List.mem_singleton] at hl
        obtain hl | rfl := hl
        · exact hlines l hl
        · exact List.not_mem_nil
      rw [htext, flatMap_ended, List.splitOn_intercalate '\n' hlines' (by simp), readItems_append,
        readItems_blank]
      cases readItems stateBase 1 lines with
      | error e => rfl
      | ok items => exact congrArg Except.ok (List.append_nil items)
    · rw [htext]
      cases lines with
      | nil => rfl
      | cons l lines => rw [List.splitOn_intercalate '\n' hlines (List.cons_ne_nil _ _)]
  rw [readProgram, hread]
  cases readItems stateBase 1 lines <;> rfl

theorem readProgram_eq_ok {text : String} {blocks : List Block}
    (h : readProgram stateBase text = .ok blocks) :
    ∃ items, Itemized stateBase (text.toList.splitOn '\n') items ∧ blocks = blocksOf items := by
  rw [readProgram] at h
  cases hread : readItems stateBase 1 (text.toList.splitOn '\n') with
  | error e => rw [hread] at h; cases h
  | ok items =>
    rw [hread] at h
    cases h
    exact ⟨items, itemized_of_readItems hread, rfl⟩

/-- Lines that begin with a heading can be put behind others: the blocks follow each other, and the
first error is the answer, at the line where it is now. The blocks of a text hold its lines of code
in order. Their addresses are those of the headings in order, behind a zero if there is code in
front of the first heading. -/
theorem readProgram_composes (stateBase : HostAddress) :
    (∀ (a b : List (List Char)) (before after whole : String), IsText a before → IsText b after →
      IsText (a ++ b) whole →
      (∀ text, b.find? (!isBlankLine ·) = some text → isHeadingLine text = true) →
      readProgram stateBase whole = (do
        let blocks ← readProgram stateBase before
        let more ← (readProgram stateBase after).mapError (·.after a.length)
        return blocks ++ more)) ∧
    ∀ (text : String) (blocks : List Block), readProgram stateBase text = .ok blocks →
      List.Forall₂ (fun text l => readLine stateBase (wordOf text) (argumentOf text) = .ok l)
        ((text.toList.splitOn '\n').filter isCodeLine) (blocks.flatMap Block.lines) ∧
      ∃ guests, List.Forall₂ (fun text guest => readGuest (argumentOf text) = .ok guest)
          ((text.toList.splitOn '\n').filter isHeadingLine) guests ∧
        blocks.map Block.guest =
          (if startsWithCode (text.toList.splitOn '\n') then [0] else []) ++ guests := by
  constructor
  · intro a b before after whole ha hb hwhole hstart
    rw [readProgram_of_isText ha, readProgram_of_isText hb, readProgram_of_isText hwhole,
      readItems_append, readItems_after]
    cases readItems stateBase 1 a with
    | error e => rfl
    | ok items =>
      cases hitems : readItems stateBase 1 b with
      | error e => rfl
      | ok more =>
        have hleads := (itemized_of_readItems hitems).leads
        rw [startsWithCode_eq_false_iff.2 hstart] at hleads
        exact congrArg Except.ok (blocksOf_append hleads)
  · intro text blocks h
    obtain ⟨items, hitems, rfl⟩ := readProgram_eq_ok h
    rw [lines_blocksOf, guests_blocksOf, hitems.leads]
    exact ⟨hitems.code, _, hitems.headings, rfl⟩

/-- A comment and code come before the headings, so there is a block at zero. A line that cannot be
read has the number that it has in the whole text. -/
theorem readProgram_composes_behind_comment :
    readProgram 0 "; nothing\nnop\n\nblock 0x20 ; a loop\ngoto 0x20" =
        .ok [⟨0, [.instruction { op := .plain .nop, width := 32 }]⟩, ⟨0x20, [.goto 0x20]⟩] ∧
      readProgram 0 "; nothing\nnop\nblock 0x20\ngoto x\n" =
        .error (.line 4 "goto x".toList (.guestAddress ['x'])) ∧
      List.Forall₂ (fun text l => readLine 0 (wordOf text) (argumentOf text) = .ok l)
        ["nop".toList, "goto 0x20".toList]
        [.instruction { op := .plain .nop, width := 32 }, .goto 0x20] := by
  have hfirst : IsText ["; nothing".toList, "nop".toList] "; nothing\nnop" :=
    ⟨by decide, .inr (by decide +kernel)⟩
  have hwhole : readProgram 0 "; nothing\nnop\n\nblock 0x20 ; a loop\ngoto 0x20" =
      .ok [⟨0, [.instruction { op := .plain .nop, width := 32 }]⟩, ⟨0x20, [.goto 0x20]⟩] := by
    rw [(readProgram_composes 0).1 _ [[], "block 0x20 ; a loop".toList, "goto 0x20".toList] _
      "\nblock 0x20 ; a loop\ngoto 0x20" _ hfirst ⟨by decide, .inr (by decide +kernel)⟩
      ⟨by decide, .inr (by decide +kernel)⟩ (by decide +kernel)]
    decide +kernel
  refine ⟨hwhole, ?_, ?_⟩
  · rw [(readProgram_composes 0).1 _ ["block 0x20".toList, "goto x".toList] _
      "block 0x20\ngoto x\n" _ hfirst ⟨by decide, .inl (by decide +kernel)⟩
      ⟨by decide, .inl (by decide +kernel)⟩ (by decide +kernel)]
    decide +kernel
  · exact ((readProgram_composes 0).2 _ _ hwhole).1

end HostCode.Source
