import Mathlib.Algebra.Ring.Int.Defs
import Mathlib.Algebra.Ring.Nat
import HostCode.Proofs.Session.Figures

/-! # Counters

Sessions that share a registry add to its counters what has changed since they were last
observed. Each counter holds what has happened in all of them, but for the blocks: a reset is
not observed, and a session that had one block and was reset seems not to have changed when it
has one block again.
-/

namespace HostCode

open Assembler

/-! ## Values in a registry -/

namespace Registry

variable {r r' : Registry} {name : String}

/-- What a metric shows, or zero as long as it is not there. -/
def value (name : String) (r : Registry) : Int :=
  ((r.metrics.find? (·.name == name)).map (Metric.shown r.precision)).getD 0

def Has (name : String) (r : Registry) : Prop := ∃ m ∈ r.metrics, m.name = name

theorem has_add {other : String} {amount : Int} (h : r.Has name) :
    (r.add other amount).Has name := by
  obtain ⟨m, hm, rfl⟩ := h
  refine ⟨_, List.mem_map_of_mem hm, ?_⟩
  split <;> rfl

theorem value_add (hexact : r.precision = .exact) (h : r.Has name) (other : String) (amount : Int) :
    (r.add other amount).value name = r.value name + if other = name then amount else 0 := by
  have hname : ∀ m : Metric,
      (if m.name == other then m.add r.precision amount else m).name = m.name := by
    intro m
    split <;> rfl
  obtain ⟨m, hm⟩ : ∃ m, r.metrics.find? (·.name == name) = some m := by
    obtain ⟨m, hm, hn⟩ := h
    exact Option.isSome_iff_exists.1 (List.find?_isSome.2 ⟨m, hm, by simp [hn]⟩)
  have hmname : m.name = name := by simpa using List.find?_some hm
  have hfind : (r.add other amount).metrics.find? (·.name == name) =
      some (if m.name == other then m.add r.precision amount else m) := by
    rw [add, List.find?_map, show ((·.name == name) ∘ fun m : Metric =>
      if m.name == other then m.add r.precision amount else m) = (·.name == name) from
        funext fun m => by simp only [Function.comp, hname], hm]
    rfl
  have hprecision : (r.add other amount).precision = .exact := hexact
  rw [value, value, hfind, hm, hprecision, hexact]
  by_cases ho : other = name
  · rw [if_pos ho, if_pos (by simp [hmname, ho])]
    rfl
  · rw [if_neg ho, if_neg (by simpa [hmname] using Ne.symm ho), Int.add_zero]

theorem addEach_keeps (rows : List (String × String × (Stats → Int)))
    (amount : (Stats → Int) → Int) :
    let r' := rows.foldl (fun r (n, _, figure) => r.add (Metrics.full n) (amount figure)) r
    r'.precision = r.precision ∧ ∀ n, r.Has n → r'.Has n := by
  induction rows generalizing r with
  | nil => exact ⟨rfl, fun _ => id⟩
  | cons row rows ih =>
    obtain ⟨hp, hh⟩ := ih (r := r.add (Metrics.full row.1) (amount row.2.2))
    exact ⟨hp, fun n hn => hh n (has_add hn)⟩

theorem value_addEach_of_ne (hexact : r.precision = .exact) (h : r.Has name)
    {rows : List (String × String × (Stats → Int))}
    (hne : ∀ row ∈ rows, Metrics.full row.1 ≠ name) (amount : (Stats → Int) → Int) :
    (rows.foldl (fun r (n, _, figure) => r.add (Metrics.full n) (amount figure)) r).value name =
      r.value name := by
  induction rows generalizing r with
  | nil => rfl
  | cons row rows ih =>
    obtain ⟨hrow, hrows⟩ := List.forall_mem_cons.mp hne
    rw [List.foldl_cons, ih (r := r.add (Metrics.full row.1) (amount row.2.2)) hexact (has_add h)
      hrows, value_add hexact h, if_neg hrow, Int.add_zero]

theorem value_addEach_of_mem (hexact : r.precision = .exact) {n help : String}
    {figure : Stats → Int} (h : r.Has (Metrics.full n))
    {rows : List (String × String × (Stats → Int))}
    (hnodup : (rows.map fun row => Metrics.full row.1).Nodup) (hmem : (n, help, figure) ∈ rows)
    (amount : (Stats → Int) → Int) :
    (rows.foldl (fun r (n, _, figure) => r.add (Metrics.full n) (amount figure)) r).value
        (Metrics.full n) =
      r.value (Metrics.full n) + amount figure := by
  induction rows generalizing r with
  | nil => cases hmem
  | cons row rows ih =>
    obtain ⟨hfirst, hnodup⟩ := List.nodup_cons.mp hnodup
    have hother : ∀ row' ∈ rows, Metrics.full row'.1 ≠ Metrics.full row.1 := by
      intro row' hrow' he
      exact hfirst (List.mem_map.mpr ⟨row', hrow', he⟩)
    rw [List.foldl_cons]
    rcases List.mem_cons.mp hmem with rfl | hmem
    · rw [value_addEach_of_ne (r := r.add (Metrics.full n) (amount figure)) hexact (has_add h)
        hother, value_add hexact h, if_pos rfl]
    · rw [ih (r := r.add (Metrics.full row.1) (amount row.2.2)) hexact (has_add h) hnodup hmem,
        value_add hexact h, if_neg (hother _ hmem).symm, Int.add_zero]

theorem value_register {m : Metric} (hm : m.value = 0) (hexact : r.precision = .exact)
    (h : r.register m = some r') :
    r'.precision = .exact ∧ r'.Has m.name ∧ (∀ n, r.Has n → r'.Has n) ∧
      ∀ n, r'.value n = r.value n := by
  unfold register at h
  split at h
  · next hnone =>
    cases h
    refine ⟨hexact, ⟨m, by simp, rfl⟩, ?_, fun n => ?_⟩
    · rintro n ⟨m', hm', hn⟩
      exact ⟨m', List.mem_append_left _ hm', hn⟩
    · simp only [value, List.find?_append, hexact]
      cases hfind : r.metrics.find? (·.name == n) with
      | some old => rfl
      | none =>
        by_cases hn : m.name = n
        · simp [hn, Metric.shown, hm]
        · simp [hn]
  · next old hold =>
    split at h <;> cases h
    refine ⟨hexact, ⟨old, List.mem_of_find?_eq_some hold, ?_⟩, fun _ => id, fun _ => rfl⟩
    simpa using List.find?_some hold

/-- A metric that is registered starts at zero, so no value changes, not even if a later one is
refused. -/
theorem registerEach_keeps {ms : List Metric} (hms : ∀ m ∈ ms, m.value = 0)
    (hexact : r.precision = .exact) :
    (Metrics.registerEach ms r).2.precision = .exact ∧
      (∀ n, r.Has n → (Metrics.registerEach ms r).2.Has n) ∧
      (∀ n, (Metrics.registerEach ms r).2.value n = r.value n) ∧
      ((Metrics.registerEach ms r).1 = true →
        ∀ m ∈ ms, (Metrics.registerEach ms r).2.Has m.name) := by
  induction ms generalizing r with
  | nil => exact ⟨hexact, fun _ => id, fun _ => rfl, fun _ => by simp⟩
  | cons m ms ih =>
    obtain ⟨hm, hms⟩ := List.forall_mem_cons.mp hms
    unfold Metrics.registerEach
    split
    · next r₁ hr₁ =>
      obtain ⟨hp₁, hh₁, hk₁, hv₁⟩ := value_register hm hexact hr₁
      obtain ⟨hp, hk, hv, hh⟩ := ih hms hp₁
      refine ⟨hp, fun n hn => hk n (hk₁ n hn), fun n => (hv n).trans (hv₁ n), fun hall => ?_⟩
      exact List.forall_mem_cons.mpr ⟨hk _ hh₁, hh hall⟩
    · refine ⟨hexact, fun _ => id, fun _ => rfl, fun hall => ?_⟩
      cases hall

end Registry

/-! ## Names -/

namespace Metrics

theorem counters_nodup : (counters.map fun row => full row.1).Nodup := by decide +kernel

theorem gauges_nodup : (gauges.map fun row => full row.1).Nodup := by decide +kernel

theorem full_counter_ne_gauge : ∀ row ∈ counters, ∀ row' ∈ gauges, full row.1 ≠ full row'.1 := by
  have hall : ∀ n ∈ counters.map (full ·.1), ∀ n' ∈ gauges.map (full ·.1), n ≠ n' := by
    decide +kernel
  intro row hrow row' hrow'
  exact hall _ (List.mem_map_of_mem hrow) _ (List.mem_map_of_mem hrow')

end Metrics

/-! ## What an observation adds -/

def Stats.Fits (t : Stats) : Prop :=
  t.blocks < offsetLimit ∧ t.grows < offsetLimit ∧ t.recorded < offsetLimit ∧
    t.patched < offsetLimit ∧ t.bytes < offsetLimit

instance (t : Stats) : Decidable t.Fits := inferInstanceAs (Decidable (_ ∧ _))

namespace Meter

theorem change_eq {now last : Int} (hlow : -offsetLimit ≤ now - last)
    (hhigh : now - last < offsetLimit) : change now last = now - last := by
  unfold offsetLimit at hlow hhigh
  exact Int.bmod_eq_of_le (by omega) (by omega)

theorem advance_nonneg (now last : Int) : 0 ≤ advance now last := Int.le_max_left ..

theorem advance_of_le {now last : Int} (hlast : 0 ≤ last) (hle : last ≤ now)
    (hfits : now < offsetLimit) : advance now last = now - last := by
  rw [advance, if_neg (by omega), change_eq (by omega) (by omega)]
  omega

theorem advance_of_lt {now last : Int} (hnow : 0 ≤ now) (hlt : now < last) :
    advance now last = now := by
  rw [advance, if_pos hlt]
  omega

theorem nearest_advance {last t : Nat} (hfits : ((last + t : Nat) : Int) < offsetLimit)
    (ht : Precision.Represents t) :
    Precision.nearest (advance (last + t : Nat) last) = t := by
  have hchange : ((last + t : Nat) : Int) - last = t := by omega
  rw [advance_of_le (by omega) (by omega) hfits, hchange]
  exact (Precision.nearest_eq_self_iff t).mpr ht

/-- A counter keeps up with a figure that was `before` when it was last seen, and of which it adds
what has come since. -/
theorem value_add_of_advance {value value' now last : Int} {before t : Nat}
    (hvalue : value' = value + Precision.nearest (advance now last)) (hlast : last = before)
    (hnow : now = (before + t : Nat)) (hfits : now < offsetLimit)
    (ht : Precision.Represents t) : value' + before = value + (before + t : Nat) := by
  subst hlast hnow
  rw [hvalue, nearest_advance hfits ht]
  omega

theorem observe_keeps (r : Registry) (now : Stats) (m : Meter) :
    (m.observe now r).2.precision = r.precision ∧ ∀ n, r.Has n → (m.observe now r).2.Has n := by
  obtain ⟨hp, hh⟩ := r.addEach_keeps Metrics.counters
    fun figure => Precision.nearest (advance (figure now) (figure m.last))
  obtain ⟨hp', hh'⟩ := Registry.addEach_keeps Metrics.gauges
    fun figure => Precision.nearest (change (figure now) (figure m.last))
  exact ⟨hp'.trans hp, fun n hn => hh' n (hh n hn)⟩

/-- Each counter goes on by the number nearest to what its figure has advanced by. -/
theorem observe_value {r : Registry} (hexact : r.precision = .exact) {name help : String}
    {figure : Stats → Int} (hmem : (name, help, figure) ∈ Metrics.counters)
    (h : r.Has (Metrics.full name)) (now : Stats) (m : Meter) :
    (m.observe now r).2.value (Metrics.full name) =
      r.value (Metrics.full name) +
        Precision.nearest (advance (figure now) (figure m.last)) := by
  obtain ⟨hp, hh⟩ := r.addEach_keeps Metrics.counters
    fun figure => Precision.nearest (advance (figure now) (figure m.last))
  have hother : ∀ row ∈ Metrics.gauges, Metrics.full row.1 ≠ Metrics.full name :=
    fun row hrow => (Metrics.full_counter_ne_gauge _ hmem row hrow).symm
  refine (Registry.value_addEach_of_ne (hp.trans hexact) (hh _ h) hother
    fun figure => Precision.nearest (change (figure now) (figure m.last))).trans ?_
  exact Registry.value_addEach_of_mem hexact h Metrics.counters_nodup hmem
    fun figure => Precision.nearest (advance (figure now) (figure m.last))

theorem observe_counters {r : Registry} (hexact : r.precision = .exact)
    (h : ∀ row ∈ Metrics.counters, r.Has (Metrics.full row.1)) (now : Stats) (m : Meter) :
    (m.observe now r).2.value "dynarec_blocks_translated_total" =
        r.value "dynarec_blocks_translated_total" +
          Precision.nearest (advance now.blocks m.last.blocks) ∧
      (m.observe now r).2.value "dynarec_buffer_grows_total" =
        r.value "dynarec_buffer_grows_total" +
          Precision.nearest (advance now.grows m.last.grows) ∧
      (m.observe now r).2.value "dynarec_relocations_recorded_total" =
        r.value "dynarec_relocations_recorded_total" +
          Precision.nearest (advance now.recorded m.last.recorded) ∧
      (m.observe now r).2.value "dynarec_relocations_patched_total" =
        r.value "dynarec_relocations_patched_total" +
          Precision.nearest (advance now.patched m.last.patched) := by
  have hvalue : ∀ row ∈ Metrics.counters, (m.observe now r).2.value (Metrics.full row.1) =
      r.value (Metrics.full row.1) +
        Precision.nearest (advance (row.2.2 now) (row.2.2 m.last)) :=
    fun row hrow => observe_value hexact hrow (h row hrow) now m
  simp only [Metrics.counters, List.forall_mem_cons, Metrics.full] at hvalue
  exact ⟨hvalue.1, hvalue.2.1, hvalue.2.2.1, hvalue.2.2.2.1⟩

end Meter

theorem Session.new_metered {c : Config} {r r' : Registry} {s : Session} (hc : c.metrics = true)
    (hexact : r.precision = .exact) (h : Session.new c r = (.ok s, r')) :
    s.meter = some {} ∧ r'.precision = .exact ∧ (∀ m ∈ Metrics.all, r'.Has m.name) ∧
      ∀ n, r'.value n = r.value n := by
  unfold Session.new at h
  split at h
  · cases h
  · rw [hc] at h
    rcases hm : Meter.new r with ⟨_ | m, r₁⟩
    · simp [hm] at h
    · simp only [hm, Bool.not_true, Bool.false_eq_true, if_false, Prod.mk.injEq,
        Except.ok.injEq] at h
      obtain ⟨rfl, rfl⟩ := h
      unfold Meter.new at hm
      split at hm
      · next hreg =>
        cases hm
        have hzero : ∀ m ∈ Metrics.all, m.value = 0 := by decide
        have hkeeps := Registry.registerEach_keeps hzero hexact
        rw [hreg] at hkeeps
        obtain ⟨hp, -, hv, hh⟩ := hkeeps
        exact ⟨rfl, hp, hh rfl, hv⟩
      · cases hm

/-! ## Sessions that share a registry -/

def Tally.plus (t t' : Tally) : Tally where
  translated := t.translated + t'.translated
  grown := t.grown + t'.grown
  recorded := t.recorded + t'.recorded
  patched := t.patched + t'.patched

/-- What has happened is counted by numbers of 53 significant bits, as all numbers up to 2 to the
power of 53 are. -/
def Tally.Represented (t : Tally) : Prop :=
  Precision.Represents t.grown ∧ Precision.Represents t.recorded ∧ Precision.Represents t.patched

instance (t : Tally) : Decidable t.Represented := inferInstanceAs (Decidable (_ ∧ _))

structure Member where
  session : Session
  total : Tally := {}
  /-- How many blocks it had after the last call other than a reset. -/
  known : Nat := 0
  /-- How many translated blocks the metrics have missed. -/
  missed : Nat := 0

/-- The account after a call. A block is missed if it is the first one since a reset, and
there was one block before the reset, too. -/
def Member.after (m : Member) (act : Action) (out : Verdict × Shared) : Member :=
  let t := act.tally m.session out.1 out.2.session
  { session := out.2.session
    total := m.total.plus t
    known := if act.isReset then m.known else out.2.session.blocks.length
    missed := m.missed +
      if t.translated = 1 ∧ m.known = 1 ∧ m.session.blocks = [] then 1 else 0 }

/-- Sessions that share a registry, which was `r₀` before the first of them: they join at any
time, and are called in any order. A prologue is not broken off for want of addresses, figures
stay in signed words, and what happens in one call is not rounded when it is counted. -/
inductive Pool (r₀ : Registry) : List Member → Registry → Prop
  | empty : Pool r₀ [] r₀
  | join {ms : List Member} {r r' : Registry} {c : Config} {s : Session} (before : Pool r₀ ms r)
    (unused : c.buffer.Unused) (ungrown : c.buffer.grows = 0) (shares : c.metrics = true)
    (made : Session.new c r = (.ok s, r')) : Pool r₀ ({ session := s } :: ms) r'
  | call {ms ms' : List Member} {m : Member} {r : Registry}
    (before : Pool r₀ (ms ++ m :: ms') r) (act : Action)
    (carried : act = .prologue → ∀ f, (act.apply ⟨m.session, r⟩).1 ≠ .panicked f)
    (fits : (act.apply ⟨m.session, r⟩).2.session.stats.Fits)
    (counted : (act.tally m.session (act.apply ⟨m.session, r⟩).1
      (act.apply ⟨m.session, r⟩).2.session).Represented) :
    Pool r₀ (ms ++ m.after act (act.apply ⟨m.session, r⟩) :: ms')
      (act.apply ⟨m.session, r⟩).2.registry

/-- The account and the meter of a session agree with its figures. Since the last reset there
are as many blocks as were seen, or no call yet. -/
structure Member.Kept (m : Member) : Prop where
  sound : ∃ history, m.session.Sound history
  grown : m.session.asm.grows = m.total.grown
  recorded : m.session.asm.segment.table.recorded = m.total.recorded
  patched : m.session.asm.segment.table.resolved = m.total.patched
  blocks : m.session.blocks.length = m.known ∨ m.session.blocks = [] ∧ m.session.failed = none
  seen : ∃ last : Stats, m.session.meter = some ⟨last⟩ ∧ last.blocks = m.known ∧
    last.grows = m.total.grown ∧ last.recorded = m.total.recorded ∧ last.patched = m.total.patched

/-- A call other than a reset brings the metrics up to date, unless it is a block that is
refused. -/
theorem Session.Sound.observed {s : Session} {history : List Action} (hs : s.Sound history)
    (act : Action) (r : Registry) (hact : act.isReset = false)
    (carried : act = .prologue → ∀ f, (act.apply ⟨s, r⟩).1 ≠ .panicked f) :
    (∃ s₂, s₂.meter = s.meter ∧ (act.apply ⟨s, r⟩).2 = Shared.observe ⟨s₂, r⟩) ∨
      (act.apply ⟨s, r⟩).2 = ⟨s, r⟩ ∧ (s.failed ≠ none ∨ s.blocks ≠ []) := by
  cases act with
  | block guest e =>
    cases hf : s.failed with
    | some err =>
      refine .inr ⟨?_, .inl (by rintro ⟨⟩)⟩
      simp only [Action.apply, Shared.block, hf]
      rfl
    | none =>
      cases hl : s.lookup guest with
      | some o =>
        refine .inr ⟨?_, .inr (List.ne_nil_of_mem (mem_of_lookup hl))⟩
        simp only [Action.apply, Shared.block, hf, hl]
        rfl
      | none =>
        obtain ⟨s₂, hm, hobs, -⟩ := block_observed (e := e) hs.settled hf hl r
        exact .inl ⟨s₂, hm, hobs⟩
  | prologue => exact .inl (prologue_observed r (carried rfl))
  | resolve guest host => exact .inl (resolve_observed hs.settled guest host r)
  | reset => cases hact

theorem Shared.observe_metered {s : Session} {m : Meter} (h : s.meter = some m) (r : Registry) :
    (observe ⟨s, r⟩).session.meter = some ⟨(observe ⟨s, r⟩).session.stats⟩ ∧
      (observe ⟨s, r⟩).registry = (m.observe (observe ⟨s, r⟩).session.stats r).2 := by
  simp only [observe, h]
  exact ⟨rfl, rfl⟩

/-- What the counter of blocks advances by, when a session of `before` blocks gets `t` more and
was last seen with `known`. -/
theorem advance_blocks {before known t : Nat} (hb : before = known ∨ before = 0) (ht : t ≤ 1)
    (hfits : before + t < offsetLimit) :
    Precision.nearest (Meter.advance (before + t : Nat) known) +
      (if t = 1 ∧ known = 1 ∧ before = 0 then 1 else 0 : Nat) = t := by
  have hadvance : Meter.advance (before + t : Nat) known +
      (if t = 1 ∧ known = 1 ∧ before = 0 then 1 else 0 : Nat) = t := by
    rcases hb with rfl | rfl
    · rw [Meter.advance_of_le (by omega) (by omega) (by omega), if_neg (by omega)]
      omega
    · by_cases hlt : t < known
      · rw [Meter.advance_of_lt (by omega) (by omega), if_neg (by omega)]
        omega
      · rw [Meter.advance_of_le (by omega) (by omega) (by omega)]
        split <;> omega
  have hnonneg := Meter.advance_nonneg (before + t : Nat) known
  rwa [(Precision.nearest_eq_self_iff _).mpr (Precision.represents_of_natAbs_le (by omega))]

namespace Member

variable {m : Member} {r : Registry}

structure Counted (m m' : Member) (r r' : Registry) : Prop where
  kept : m'.Kept
  exact : r'.precision = .exact
  has : ∀ n, r.Has n → r'.Has n
  translated : r'.value "dynarec_blocks_translated_total" + m'.missed + m.total.translated =
    r.value "dynarec_blocks_translated_total" + m.missed + m'.total.translated
  grown : r'.value "dynarec_buffer_grows_total" + m.total.grown =
    r.value "dynarec_buffer_grows_total" + m'.total.grown
  recorded : r'.value "dynarec_relocations_recorded_total" + m.total.recorded =
    r.value "dynarec_relocations_recorded_total" + m'.total.recorded
  patched : r'.value "dynarec_relocations_patched_total" + m.total.patched =
    r.value "dynarec_relocations_patched_total" + m'.total.patched

theorem Kept.idle {act : Action} {v : Verdict} {s' : Session} (h : m.Kept)
    (hexact : r.precision = .exact) (hsound : ∃ history, s'.Sound history)
    (hmeter : s'.meter = m.session.meter)
    (hadv : m.session.Advances s' (act.tally m.session v s'))
    (hgrown : s'.asm.grows = m.session.asm.grows)
    (hrecorded : s'.asm.segment.table.recorded = m.session.asm.segment.table.recorded)
    (hpatched : s'.asm.segment.table.resolved = m.session.asm.segment.table.resolved)
    (hnone : (act.tally m.session v s').translated = 0)
    (hknown : (m.after act (v, ⟨s', r⟩)).known = m.known)
    (hblocks : s'.blocks.length = m.known ∨ s'.blocks = [] ∧ s'.failed = none) :
    m.Counted (m.after act (v, ⟨s', r⟩)) r r := by
  have htotal : (m.after act (v, ⟨s', r⟩)).total = m.total := by
    have h₁ := hadv.grown
    have h₂ := hadv.recorded
    have h₃ := hadv.patched
    ext <;> simp only [after, Tally.plus] <;> omega
  have hmissed : (m.after act (v, ⟨s', r⟩)).missed = m.missed := by
    simp only [after, hnone]
    rw [if_neg (by omega), Nat.add_zero]
  constructor
  case kept =>
    constructor
    case sound => exact hsound
    case grown => rw [htotal, ← h.grown]; exact hgrown
    case recorded => rw [htotal, ← h.recorded]; exact hrecorded
    case patched => rw [htotal, ← h.patched]; exact hpatched
    case blocks => rw [hknown]; exact hblocks
    case seen =>
      obtain ⟨last, hlast, hrest⟩ := h.seen
      rw [htotal, hknown]
      exact ⟨last, hmeter.trans hlast, hrest⟩
  case exact => exact hexact
  case has => exact fun _ => id
  all_goals rw [htotal]
  case translated => rw [hmissed]

theorem Kept.observed {act : Action} {v : Verdict} {s : Session} (h : m.Kept)
    (hexact : r.precision = .exact)
    (hhas : ∀ row ∈ Metrics.counters, r.Has (Metrics.full row.1)) (hact : act.isReset = false)
    (hmeter : s.meter = m.session.meter)
    (hsound : ∃ history, (Shared.observe ⟨s, r⟩).session.Sound history)
    (hadv : m.session.Advances (Shared.observe ⟨s, r⟩).session
      (act.tally m.session v (Shared.observe ⟨s, r⟩).session))
    (hcount : (Shared.observe ⟨s, r⟩).session.blocks.length = m.session.blocks.length +
      (act.tally m.session v (Shared.observe ⟨s, r⟩).session).translated)
    (fits : (Shared.observe ⟨s, r⟩).session.stats.Fits)
    (counted : (act.tally m.session v (Shared.observe ⟨s, r⟩).session).Represented) :
    m.Counted (m.after act (v, Shared.observe ⟨s, r⟩)) r (Shared.observe ⟨s, r⟩).registry := by
  obtain ⟨last, hlast, hblocks, hgrown, hrecorded, hpatched⟩ := h.seen
  obtain ⟨hmeter', hreg⟩ := Shared.observe_metered (hmeter.trans hlast) r
  generalize Shared.observe ⟨s, r⟩ = x at *
  obtain ⟨hp, hh⟩ := Meter.observe_keeps r x.session.stats ⟨last⟩
  have hvalue := Meter.observe_counters hexact hhas x.session.stats ⟨last⟩
  rw [← hreg] at hp hh hvalue
  obtain ⟨hvalue₁, hvalue₂, hvalue₃, hvalue₄⟩ := hvalue
  obtain ⟨hfit₁, hfit₂, hfit₃, hfit₄, -⟩ := fits
  obtain ⟨hcount₂, hcount₃, hcount₄⟩ := counted
  have h₂ : x.session.asm.grows = (m.after act (v, x)).total.grown :=
    hadv.grown.trans (by rw [h.grown]; rfl)
  have h₃ : x.session.asm.segment.table.recorded = (m.after act (v, x)).total.recorded :=
    hadv.recorded.trans (by rw [h.recorded]; rfl)
  have h₄ : x.session.asm.segment.table.resolved = (m.after act (v, x)).total.patched :=
    hadv.patched.trans (by rw [h.patched]; rfl)
  have hknown : (m.after act (v, x)).known = x.session.blocks.length := by
    simp only [after, hact]
    rfl
  constructor
  case kept =>
    constructor
    case sound => exact hsound
    case grown => exact h₂
    case recorded => exact h₃
    case patched => exact h₄
    case blocks => exact .inl hknown.symm
    case seen =>
      refine ⟨x.session.stats, hmeter', ?_, ?_, ?_, ?_⟩
      · exact congrArg Int.ofNat hknown.symm
      · exact congrArg Int.ofNat h₂
      · exact congrArg Int.ofNat h₃
      · exact congrArg Int.ofNat h₄
  case exact => exact hp.trans hexact
  case has => exact hh
  case translated =>
    have ht : (act.tally m.session v x.session).translated ≤ 1 := by
      simp only [Action.tally]
      split <;> omega
    have hbefore : m.session.blocks.length = m.known ∨ m.session.blocks.length = 0 :=
      h.blocks.imp_right fun hb => List.length_eq_zero_iff.2 hb.1
    have hnow : x.session.stats.blocks = x.session.blocks.length := rfl
    have hadvance := advance_blocks hbefore ht (by rw [← hcount]; omega)
    rw [hvalue₁, hnow, hblocks, hcount]
    simp only [after, Tally.plus, ← List.length_eq_zero_iff]
    omega
  case grown =>
    exact Meter.value_add_of_advance hvalue₂ hgrown (congrArg Int.ofNat h₂) hfit₂ hcount₂
  case recorded =>
    exact Meter.value_add_of_advance hvalue₃ hrecorded (congrArg Int.ofNat h₃) hfit₃ hcount₃
  case patched =>
    exact Meter.value_add_of_advance hvalue₄ hpatched (congrArg Int.ofNat h₄) hfit₄ hcount₄

theorem Kept.step (h : m.Kept) (hexact : r.precision = .exact)
    (hhas : ∀ row ∈ Metrics.counters, r.Has (Metrics.full row.1)) (act : Action)
    (carried : act = .prologue → ∀ f, (act.apply ⟨m.session, r⟩).1 ≠ .panicked f)
    (fits : (act.apply ⟨m.session, r⟩).2.session.stats.Fits)
    (counted : (act.tally m.session (act.apply ⟨m.session, r⟩).1
      (act.apply ⟨m.session, r⟩).2.session).Represented) :
    m.Counted (m.after act (act.apply ⟨m.session, r⟩)) r (act.apply ⟨m.session, r⟩).2.registry := by
  obtain ⟨history, hs⟩ := h.sound
  have hadv := hs.advances act r
  have hsound := (hs.step act r).1
  have hcount := hs.step_blocks act r (by
    have := fits.2.2.2.2
    simp only [Session.stats] at this
    omega)
  cases hact : act.isReset with
  | true =>
    cases act with
    | reset =>
      exact h.idle hexact ⟨_, hsound⟩ rfl hadv rfl rfl rfl rfl rfl (.inr ⟨rfl, rfl⟩)
    | _ => cases hact
  | false =>
    simp only [hact, Bool.false_eq_true, if_false] at hcount
    rcases hout : act.apply ⟨m.session, r⟩ with ⟨v, x⟩
    rcases hs.observed act r hact carried with ⟨s₂, hm, hobs⟩ | ⟨hsame, hbusy⟩
    · rw [hout] at hobs hsound hadv hcount fits counted
      cases hobs
      exact h.observed hexact hhas hact hm ⟨_, hsound⟩ hadv hcount fits counted
    · rw [hout] at hsame hsound hadv hcount fits
      cases hsame
      have hknown : m.session.blocks.length = m.known := by
        refine h.blocks.resolve_right ?_
        rintro ⟨hb, hf⟩
        exact hbusy.elim (· hf) (· hb)
      refine h.idle hexact ⟨_, hsound⟩ rfl hadv rfl rfl rfl ?_ ?_ (.inl hknown)
      · exact Nat.left_eq_add.1 hcount
      · simp only [after, hact]
        exact hknown

end Member

/-- A wide host without memory, where only blocks without code can be translated. -/
def Config.metered : Config where
  buffer := { supply := .listed [], growth := 16 }
  metrics := true

theorem Config.metered_unused : metered.buffer.Unused :=
  ⟨rfl, rfl, Supply.neverZero_listed (by simp)⟩

namespace Pool

variable {r₀ r : Registry} {ms : List Member}

structure Agrees (r₀ : Registry) (ms : List Member) (r : Registry) : Prop where
  kept : ∀ m ∈ ms, m.Kept
  exact : r.precision = .exact
  has : ms ≠ [] → ∀ row ∈ Metrics.counters, r.Has (Metrics.full row.1)
  translated : r.value "dynarec_blocks_translated_total" + (ms.map (·.missed)).sum =
    r₀.value "dynarec_blocks_translated_total" + (ms.map (·.total.translated)).sum
  grown : r.value "dynarec_buffer_grows_total" =
    r₀.value "dynarec_buffer_grows_total" + (ms.map (·.total.grown)).sum
  recorded : r.value "dynarec_relocations_recorded_total" =
    r₀.value "dynarec_relocations_recorded_total" + (ms.map (·.total.recorded)).sum
  patched : r.value "dynarec_relocations_patched_total" =
    r₀.value "dynarec_relocations_patched_total" + (ms.map (·.total.patched)).sum

theorem agrees (hexact : r₀.precision = .exact) (h : Pool r₀ ms r) : Agrees r₀ ms r := by
  induction h with
  | empty => exact ⟨by simp, hexact, by simp, by simp, by simp, by simp, by simp⟩
  | @join ms r r' c s before unused ungrown shares made ih =>
    obtain ⟨hmeter, hp, hh, hv⟩ := Session.new_metered shares ih.exact made
    obtain ⟨mode, -, hcore⟩ := Session.new_core made
    have hasm : s.asm = .new c.buffer mode := congrArg Core.asm hcore
    have hblocks : s.blocks = [] := congrArg Core.blocks hcore
    have hkept : Member.Kept { session := s } := by
      constructor
      case sound => exact ⟨[], Session.new_sound unused made⟩
      case grown => simp only [hasm, Assembler.grows, Assembler.new, ungrown]
      case recorded => simp only [hasm, Assembler.new]
      case patched => simp only [hasm, Assembler.new]
      case blocks => simp only [hblocks, List.length_nil, true_or]
      case seen => exact ⟨{}, hmeter, rfl, rfl, rfl, rfl⟩
    constructor
    case kept =>
      rintro m (_ | ⟨_, hm⟩)
      · exact hkept
      · exact ih.kept m hm
    case exact => exact hp
    case has =>
      intro _ row hrow
      have hall : ∀ row ∈ Metrics.counters, ∃ m ∈ Metrics.all, m.name = Metrics.full row.1 := by
        simp [Metrics.counters, Metrics.all]
      obtain ⟨m, hm, hname⟩ := hall row hrow
      exact hname ▸ hh m hm
    all_goals simp only [hv, List.map_cons, List.sum_cons, Nat.zero_add]
    case translated => exact ih.translated
    case grown => exact ih.grown
    case recorded => exact ih.recorded
    case patched => exact ih.patched
  | @call ms ms' m r before act carried fits counted ih =>
    have hhas := ih.has (by simp)
    have hstep := (ih.kept m (by simp)).step ih.exact hhas act carried fits counted
    have h₁ := ih.translated
    have h₂ := ih.grown
    have h₃ := ih.recorded
    have h₄ := ih.patched
    have hs₁ := hstep.translated
    have hs₂ := hstep.grown
    have hs₃ := hstep.recorded
    have hs₄ := hstep.patched
    simp only [List.map_append, List.map_cons, List.sum_append, List.sum_cons] at h₁ h₂ h₃ h₄
    constructor
    case kept =>
      intro m' hm'
      rw [List.mem_append, List.mem_cons] at hm'
      obtain hm' | rfl | hm' := hm'
      · exact ih.kept m' (List.mem_append_left _ hm')
      · exact hstep.kept
      · exact ih.kept m' (List.mem_append_right _ (List.mem_cons_of_mem _ hm'))
    case exact => exact hstep.exact
    case has => exact fun _ row hrow => hstep.has _ (hhas row hrow)
    all_goals
      simp only [List.map_append, List.map_cons, List.sum_append, List.sum_cons]
      omega

/-- Whatever sessions share a registry, and in whatever order they are called: memory that was
replaced, sites that were recorded and sites that were patched are all counted once. So are the
blocks, except the first one after a reset of a session that was last seen with one block. -/
theorem counters (hexact : r₀.precision = .exact) (h : Pool r₀ ms r) :
    r.value "dynarec_blocks_translated_total" + (ms.map (·.missed)).sum =
        r₀.value "dynarec_blocks_translated_total" + (ms.map (·.total.translated)).sum ∧
      r.value "dynarec_buffer_grows_total" =
        r₀.value "dynarec_buffer_grows_total" + (ms.map (·.total.grown)).sum ∧
      r.value "dynarec_relocations_recorded_total" =
        r₀.value "dynarec_relocations_recorded_total" + (ms.map (·.total.recorded)).sum ∧
      r.value "dynarec_relocations_patched_total" =
        r₀.value "dynarec_relocations_patched_total" + (ms.map (·.total.patched)).sum := by
  have hagrees := h.agrees hexact
  exact ⟨hagrees.translated, hagrees.grown, hagrees.recorded, hagrees.patched⟩

/-- A block, a reset, and the block again. -/
theorem exists_missed :
    ∃ m r, Pool { precision := .exact } [m] r ∧ m.total.translated = 2 ∧ m.missed = 1 ∧
      r.value "dynarec_blocks_translated_total" = 1 := by
  have made : Session.new Config.metered { precision := .exact } = (.ok _, _) := rfl
  have h₀ := Pool.join .empty Config.metered_unused rfl rfl made
  have h₁ := @Pool.call _ [] [] _ _ h₀ (.block 1 (.done (.ok ())))
    (by intro h; cases h) (by decide +kernel) (by decide +kernel)
  have h₂ := @Pool.call _ [] [] _ _ h₁ .reset (by intro h; cases h) (by decide +kernel)
    (by decide +kernel)
  have h₃ := @Pool.call _ [] [] _ _ h₂ (.block 1 (.done (.ok ())))
    (by intro h; cases h) (by decide +kernel) (by decide +kernel)
  exact ⟨_, _, h₃, by decide +kernel, by decide +kernel, by decide +kernel⟩

/-- The counter of blocks does not hold how many were translated. -/
theorem counter_misses_block : ¬∀ ms r, Pool { precision := .exact } ms r →
    r.value "dynarec_blocks_translated_total" = (ms.map (·.total.translated)).sum := by
  intro h
  obtain ⟨m, r, hpool, htranslated, -, hvalue⟩ := exists_missed
  have hsum := h [m] r hpool
  rw [hvalue, List.map_singleton, List.sum_singleton, htranslated] at hsum
  exact absurd hsum (by decide)

theorem counters_after_reset :
    ∃ m r, Pool { precision := .exact } [m] r ∧ m.total.translated = 2 ∧ m.missed = 1 ∧
      r.value "dynarec_blocks_translated_total" + ([m].map (·.missed)).sum =
        Registry.value "dynarec_blocks_translated_total" { precision := .exact } +
          ([m].map (·.total.translated)).sum := by
  obtain ⟨m, r, hpool, htranslated, hmissed, -⟩ := exists_missed
  exact ⟨m, r, hpool, htranslated, hmissed, (counters rfl hpool).1⟩

end Pool

end HostCode
