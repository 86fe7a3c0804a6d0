import Mathlib.Algebra.BigOperators.Group.List.Basic
import Mathlib.Algebra.Ring.Int.Defs
import HostCode.Proofs.Session.Counters

/-! # Gauges

Each of the meters on a registry moves the gauges by what its own figures have changed by, and
takes its share out again when it is closed. So a gauge is the sum of the figures that the
meters were last observed with, as long as no change is more than a word holds and no change or
share is rounded. Figures from 0 to 2 to the power of 53 always satisfy this.
-/

namespace HostCode

/-! ## What is added to a gauge -/

namespace Meter

variable {r : Registry} {name help : String} {figure : Stats → Int}

/-- Each gauge moves by the number nearest to what its figure has changed by. -/
theorem observe_gauge (hexact : r.precision = .exact)
    (hmem : (name, help, figure) ∈ Metrics.gauges) (h : r.Has (Metrics.full name)) (now : Stats)
    (m : Meter) :
    (m.observe now r).2.value (Metrics.full name) =
      r.value (Metrics.full name) +
        Precision.nearest (change (figure now) (figure m.last)) := by
  obtain ⟨hp, hh⟩ := r.addEach_keeps Metrics.counters
    fun figure => Precision.nearest (advance (figure now) (figure m.last))
  have hother : ∀ row ∈ Metrics.counters, Metrics.full row.1 ≠ Metrics.full name :=
    fun row hrow => Metrics.full_counter_ne_gauge row hrow _ hmem
  refine (Registry.value_addEach_of_mem (hp.trans hexact) (hh _ h) Metrics.gauges_nodup hmem
    fun figure => Precision.nearest (change (figure now) (figure m.last))).trans ?_
  rw [Registry.value_addEach_of_ne hexact h hother
    fun figure => Precision.nearest (advance (figure now) (figure m.last))]

theorem close_keeps (r : Registry) (m : Meter) :
    (m.close r).2.precision = r.precision ∧ ∀ n, r.Has n → (m.close r).2.Has n :=
  r.addEach_keeps Metrics.gauges fun figure => -Precision.nearest (figure m.last)

theorem close_gauge (hexact : r.precision = .exact)
    (hmem : (name, help, figure) ∈ Metrics.gauges) (h : r.Has (Metrics.full name)) (m : Meter) :
    (m.close r).2.value (Metrics.full name) =
      r.value (Metrics.full name) - Precision.nearest (figure m.last) := by
  refine (Registry.value_addEach_of_mem hexact h Metrics.gauges_nodup hmem
    fun figure => -Precision.nearest (figure m.last)).trans ?_
  exact Int.sub_eq_add_neg.symm

theorem close_counter (hexact : r.precision = .exact)
    (hmem : (name, help, figure) ∈ Metrics.counters) (h : r.Has (Metrics.full name)) (m : Meter) :
    (m.close r).2.value (Metrics.full name) = r.value (Metrics.full name) := by
  have hother : ∀ row ∈ Metrics.gauges, Metrics.full row.1 ≠ Metrics.full name :=
    fun row hrow => (Metrics.full_counter_ne_gauge _ hmem row hrow).symm
  exact Registry.value_addEach_of_ne hexact h hother fun figure => -Precision.nearest (figure m.last)

end Meter

/-! ## Meters that share a registry -/

/-- A meter with the figures that it was last observed with, unless it was closed since. -/
structure Share where
  meter : Meter := {}
  seen : Option Stats := none

namespace Share

def part (figure : Stats → Int) (s : Share) : Int := (s.seen.map figure).getD 0

def observe (now : Stats) (s : Share) (r : Registry) : Share × Registry :=
  let (m, r) := s.meter.observe now r
  (⟨m, some now⟩, r)

def close (s : Share) (r : Registry) : Share × Registry :=
  let (m, r) := s.meter.close r
  (⟨m, none⟩, r)

end Share

structure Meters where
  shares : List Share := []
  registry : Registry

namespace Meters

def total (figure : Stats → Int) (x : Meters) : Int := (x.shares.map (·.part figure)).sum

def join (x : Meters) : Meters :=
  match Meter.new x.registry with
  | (some m, r) => ⟨x.shares ++ [{ meter := m }], r⟩
  | (none, r) => ⟨x.shares, r⟩

def update (i : Nat) (f : Share → Registry → Share × Registry) (x : Meters) : Meters :=
  match x.shares[i]? with
  | some s =>
    let (s, r) := f s x.registry
    ⟨x.shares.set i s, r⟩
  | none => x

inductive Event | join | observe (i : Nat) (now : Stats) | close (i : Nat)

def Event.apply : Event → Meters → Meters
  | join => Meters.join
  | observe i now => update i (Share.observe now)
  | close i => update i Share.close

def run (x : Meters) (events : List Event) : Meters := events.foldl (fun x e => e.apply x) x

/-- An observation changes a figure by no more than a signed word holds, and neither the change nor
a share that is taken out is rounded. -/
def Event.Fits (figure : Stats → Int) : Event → Meters → Prop
  | join, _ => True
  | observe i now, x => ∀ s ∈ x.shares[i]?,
    -offsetLimit ≤ figure now - s.part figure ∧ figure now - s.part figure < offsetLimit ∧
      Precision.Represents (figure now - s.part figure)
  | close i, x => ∀ s ∈ x.shares[i]?, Precision.Represents (s.part figure)

def Steady (figure : Stats → Int) : Meters → List Event → Prop
  | _, [] => True
  | x, e :: events => e.Fits figure x ∧ Steady figure (e.apply x) events

/-! ## One event -/

variable {x : Meters} {name help : String} {figure : Stats → Int}

/-- The metrics are there once there is a meter, and each meter remembers its part of the
gauges. -/
structure Kept (x : Meters) : Prop where
  exact : x.registry.precision = .exact
  has : x.shares ≠ [] →
    ∀ row ∈ Metrics.counters ++ Metrics.gauges, x.registry.Has (Metrics.full row.1)
  last : ∀ s ∈ x.shares, ∀ row ∈ Metrics.gauges, row.2.2 s.meter.last = s.part row.2.2

theorem Kept.has_counter (h : x.Kept) {i : Nat} {s : Share} (hs : x.shares[i]? = some s)
    (hmem : (name, help, figure) ∈ Metrics.counters) : x.registry.Has (Metrics.full name) :=
  h.has (List.ne_nil_of_mem (List.mem_of_getElem? hs)) _ (List.mem_append_left _ hmem)

theorem Kept.has_gauge (h : x.Kept) {i : Nat} {s : Share} (hs : x.shares[i]? = some s)
    (hmem : (name, help, figure) ∈ Metrics.gauges) : x.registry.Has (Metrics.full name) :=
  h.has (List.ne_nil_of_mem (List.mem_of_getElem? hs)) _ (List.mem_append_right _ hmem)

theorem mem_join {t : Share} (ht : t ∈ x.join.shares) : t ∈ x.shares ∨ t = ⟨{}, none⟩ := by
  unfold join Meter.new at ht
  rcases hreg : Metrics.registerEach Metrics.all x.registry with ⟨_ | _, r⟩
  · rw [hreg] at ht
    exact .inl ht
  · rw [hreg] at ht
    exact (List.mem_append.mp ht).imp_right List.mem_singleton.mp

theorem mem_update {i : Nat} {f : Share → Registry → Share × Registry} {t : Share}
    (ht : t ∈ (x.update i f).shares) : t ∈ x.shares ∨ ∃ s, t = (f s x.registry).1 := by
  unfold update at ht
  split at ht
  · exact (List.mem_or_eq_of_mem_set ht).imp_right fun h => ⟨_, h⟩
  · exact .inl ht

theorem mem_apply {e : Event} {t : Share} (ht : t ∈ (e.apply x).shares) :
    t ∈ x.shares ∨ t.seen = none ∨ ∃ i now, e = .observe i now ∧ t.seen = some now := by
  cases e with
  | join =>
    rcases mem_join ht with hold | rfl
    · exact .inl hold
    · exact .inr (.inl rfl)
  | observe i now =>
    rcases mem_update ht with hold | ⟨s, rfl⟩
    · exact .inl hold
    · exact .inr (.inr ⟨i, now, rfl, rfl⟩)
  | close i =>
    rcases mem_update ht with hold | ⟨s, rfl⟩
    · exact .inl hold
    · exact .inr (.inl rfl)

theorem join_spec (hexact : x.registry.precision = .exact) :
    (x.join.shares = x.shares ∨ x.join.shares = x.shares ++ [⟨{}, none⟩] ∧
      ∀ row ∈ Metrics.counters ++ Metrics.gauges, x.join.registry.Has (Metrics.full row.1)) ∧
    x.join.registry.precision = .exact ∧ (∀ n, x.registry.Has n → x.join.registry.Has n) ∧
      ∀ n, x.join.registry.value n = x.registry.value n := by
  have hzero : ∀ m ∈ Metrics.all, m.value = 0 := by decide
  have hkeeps := Registry.registerEach_keeps hzero hexact
  unfold join Meter.new
  rcases hreg : Metrics.registerEach Metrics.all x.registry with ⟨_ | _, r⟩
  · rw [hreg] at hkeeps
    obtain ⟨hp, hk, hv, -⟩ := hkeeps
    exact ⟨.inl rfl, hp, hk, hv⟩
  · rw [hreg] at hkeeps
    obtain ⟨hp, hk, hv, hh⟩ := hkeeps
    refine ⟨.inr ⟨rfl, fun row hrow => ?_⟩, hp, hk, hv⟩
    have hall : ∀ row ∈ Metrics.counters ++ Metrics.gauges,
        ∃ m ∈ Metrics.all, m.name = Metrics.full row.1 := by
      simp [Metrics.counters, Metrics.gauges, Metrics.all]
    obtain ⟨m, hm, hname⟩ := hall row hrow
    exact hname ▸ hh rfl m hm

theorem Kept.joined (h : x.Kept) : x.join.Kept := by
  obtain ⟨hshares, hexact, hkeeps, -⟩ := join_spec h.exact
  constructor
  case exact => exact hexact
  case has =>
    intro hne
    rcases hshares with hsame | ⟨-, hhas⟩
    · rw [hsame] at hne
      exact fun row hrow => hkeeps _ (h.has hne row hrow)
    · exact hhas
  case last =>
    intro s hs
    rcases mem_join hs with hs | rfl
    · exact h.last s hs
    · simp [Metrics.gauges, Share.part]

theorem Kept.updated (h : x.Kept) {i : Nat} {f : Share → Registry → Share × Registry}
    (hkeeps : ∀ s r, (f s r).2.precision = r.precision ∧ ∀ n, r.Has n → (f s r).2.Has n)
    (hlast : ∀ s r, ∀ row ∈ Metrics.gauges,
      row.2.2 (f s r).1.meter.last = (f s r).1.part row.2.2) : (x.update i f).Kept := by
  have hall : ∀ t ∈ (x.update i f).shares, ∀ row ∈ Metrics.gauges,
      row.2.2 t.meter.last = t.part row.2.2 := by
    intro t ht
    rcases mem_update ht with ht | ⟨s, rfl⟩
    · exact h.last t ht
    · exact hlast s x.registry
  unfold update at hall ⊢
  split at hall
  · next s hs =>
    have hne : x.shares ≠ [] := List.ne_nil_of_mem (List.mem_of_getElem? hs)
    obtain ⟨hp, hh⟩ := hkeeps s x.registry
    exact ⟨hp.trans h.exact, fun _ row hrow => hh _ (h.has hne row hrow), hall⟩
  · exact h

theorem Kept.step (h : x.Kept) (e : Event) : (e.apply x).Kept := by
  cases e with
  | join => exact h.joined
  | observe i now =>
    refine h.updated (f := Share.observe now) (fun s r => s.meter.observe_keeps r now) ?_
    exact fun s r row hrow => rfl
  | close i =>
    refine h.updated (f := Share.close) (fun s r => s.meter.close_keeps r) fun s r => ?_
    simp [Metrics.gauges, Share.close, Meter.close, Share.part]

/-- If a share and a metric change by the same, so do the shares and the metric. -/
theorem update_balance {i : Nat} {f : Share → Registry → Share × Registry}
    (hf : ∀ s, x.shares[i]? = some s → (f s x.registry).2.value name + s.part figure =
      x.registry.value name + (f s x.registry).1.part figure) :
    (x.update i f).registry.value name + x.total figure =
      x.registry.value name + (x.update i f).total figure := by
  unfold update
  split
  · next s hs =>
    have hbalance := hf s hs
    obtain ⟨hi, rfl⟩ := List.getElem?_eq_some_iff.mp hs
    simp only [total, List.map_set, List.sum_set', List.length_map, hi, dif_pos, List.getElem_map]
    omega
  · rfl

/-- An event moves a gauge by as much as the parts of the meters. -/
theorem Kept.balance (h : x.Kept) (hmem : (name, help, figure) ∈ Metrics.gauges) {e : Event}
    (hfits : e.Fits figure x) :
    (e.apply x).registry.value (Metrics.full name) + x.total figure =
      x.registry.value (Metrics.full name) + (e.apply x).total figure := by
  cases e with
  | join =>
    obtain ⟨hshares, -, -, hvalue⟩ := join_spec h.exact
    have htotal : x.join.total figure = x.total figure := by
      rcases hshares with hsame | ⟨hmore, -⟩
      · rw [total, hsame, total]
      · rw [total, hmore, total]
        simp [Share.part]
    change x.join.registry.value _ + _ = _ + x.join.total figure
    rw [hvalue, htotal]
  | observe i now =>
    refine update_balance fun s hs => ?_
    obtain ⟨hlow, hhigh, hkept⟩ := hfits s hs
    have hlast : figure s.meter.last = s.part figure :=
      h.last s (List.mem_of_getElem? hs) _ hmem
    have hvalue := Meter.observe_gauge h.exact hmem (h.has_gauge hs hmem) now s.meter
    rw [hlast, Meter.change_eq hlow hhigh, (Precision.nearest_eq_self_iff _).mpr hkept] at hvalue
    change (s.meter.observe now x.registry).2.value _ + _ = _ + figure now
    omega
  | close i =>
    refine update_balance fun s hs => ?_
    have hlast : figure s.meter.last = s.part figure :=
      h.last s (List.mem_of_getElem? hs) _ hmem
    have hvalue := Meter.close_gauge h.exact hmem (h.has_gauge hs hmem) s.meter
    rw [hlast, (Precision.nearest_eq_self_iff _).mpr (hfits s hs)] at hvalue
    change (s.meter.close x.registry).2.value _ + _ = _ + 0
    omega

theorem Kept.counter_le (h : x.Kept) (hmem : (name, help, figure) ∈ Metrics.counters) (e : Event) :
    x.registry.value (Metrics.full name) ≤ (e.apply x).registry.value (Metrics.full name) := by
  cases e with
  | join =>
    obtain ⟨-, -, -, hvalue⟩ := join_spec h.exact
    exact Int.le_of_eq (hvalue _).symm
  | observe i now =>
    simp only [Event.apply, update]
    split
    · next s hs =>
      have hvalue := Meter.observe_value h.exact hmem (h.has_counter hs hmem) now s.meter
      have hadvance := Precision.nearest_nonneg
        (Meter.advance_nonneg (figure now) (figure s.meter.last))
      change _ ≤ (s.meter.observe now x.registry).2.value _
      omega
    · exact Int.le_refl _
  | close i =>
    simp only [Event.apply, update]
    split
    · next s hs =>
      exact Int.le_of_eq (Meter.close_counter h.exact hmem (h.has_counter hs hmem) s.meter).symm
    · exact Int.le_refl _

/-! ## Runs -/

theorem Kept.after (h : x.Kept) (events : List Event) : (x.run events).Kept := by
  induction events generalizing x with
  | nil => exact h
  | cons e events ih => exact ih (h.step e)

theorem Kept.run_balance (h : x.Kept) (hmem : (name, help, figure) ∈ Metrics.gauges)
    {events : List Event} (hsteady : Steady figure x events) :
    (x.run events).registry.value (Metrics.full name) + x.total figure =
      x.registry.value (Metrics.full name) + (x.run events).total figure := by
  induction events generalizing x with
  | nil => rfl
  | cons e events ih =>
    have hfirst := h.balance hmem hsteady.1
    have hrest := ih (h.step e) hsteady.2
    change ((e.apply x).run events).registry.value _ + _ = _ + ((e.apply x).run events).total _
    omega

theorem Kept.run_counter_le (h : x.Kept) (hmem : (name, help, figure) ∈ Metrics.counters)
    (events : List Event) :
    x.registry.value (Metrics.full name) ≤ (x.run events).registry.value (Metrics.full name) := by
  induction events generalizing x with
  | nil => exact Int.le_refl _
  | cons e events ih => exact Int.le_trans (h.counter_le hmem e) (ih (h.step e))

theorem steady_of_small {events : List Event}
    (hparts : ∀ s ∈ x.shares, 0 ≤ s.part figure ∧ s.part figure ≤ 0x20000000000000)
    (hfigures : ∀ i now, .observe i now ∈ events →
      0 ≤ figure now ∧ figure now ≤ 0x20000000000000) :
    Steady figure x events := by
  induction events generalizing x with
  | nil => trivial
  | cons e events ih =>
    constructor
    · cases e with
      | join => trivial
      | observe i now =>
        intro s hs
        have hpart := hparts s (List.mem_of_getElem? hs)
        have hnow := hfigures i now List.mem_cons_self
        unfold offsetLimit
        exact ⟨by omega, by omega, Precision.represents_of_natAbs_le (by omega)⟩
      | close i =>
        intro s hs
        have hpart := hparts s (List.mem_of_getElem? hs)
        exact Precision.represents_of_natAbs_le (by omega)
    · refine ih ?_ fun i now h => hfigures i now (List.mem_cons_of_mem _ h)
      intro t ht
      rcases mem_apply ht with hold | hnone | ⟨i, now, rfl, hnow⟩
      · exact hparts t hold
      · simp [Share.part, hnone]
      · rw [Share.part, hnow]
        exact hfigures i now List.mem_cons_self

/-- The gauges are the sums of what the meters were last observed with, whatever meters are made on
a registry, and in whatever order they are observed and closed. No counter ever goes down. -/
theorem gauges_sum (r₀ : Registry) (hexact : r₀.precision = .exact) (events : List Event) :
    (∀ row ∈ Metrics.gauges, Steady row.2.2 ⟨[], r₀⟩ events →
      (run ⟨[], r₀⟩ events).registry.value (Metrics.full row.1) =
        r₀.value (Metrics.full row.1) + (run ⟨[], r₀⟩ events).total row.2.2) ∧
    ∀ row ∈ Metrics.counters, ∀ more,
      (run ⟨[], r₀⟩ events).registry.value (Metrics.full row.1) ≤
        (run ⟨[], r₀⟩ (events ++ more)).registry.value (Metrics.full row.1) := by
  have hkept : Kept ⟨[], r₀⟩ := by
    constructor
    case exact => exact hexact
    case has => exact fun h => absurd rfl h
    case last => exact fun s hs => absurd hs List.not_mem_nil
  constructor
  · rintro ⟨name, help, figure⟩ hmem hsteady
    have hbalance := hkept.run_balance hmem hsteady
    rwa [show total figure ⟨[], r₀⟩ = 0 from rfl, Int.add_zero] at hbalance
  · rintro ⟨name, help, figure⟩ hmem more
    rw [show run ⟨[], r₀⟩ (events ++ more) = run (run ⟨[], r₀⟩ events) more from
      List.foldl_append ..]
    exact (hkept.after events).run_counter_le hmem more

/-- A figure that goes up and down, and a meter that is closed twice and then observed again. -/
theorem gauges_sum_two_meters :
    (run ⟨[], { precision := .exact }⟩
      [.join, .join, .observe 0 { bytes := 10 }, .observe 1 { bytes := 7 },
        .observe 0 { bytes := 4 }, .close 1, .close 1, .observe 1 { bytes := 5 },
        .join]).registry.value "dynarec_code_bytes" = 9 := by
  have hsteady : Steady Stats.bytes ⟨[], { precision := .exact }⟩
      [.join, .join, .observe 0 { bytes := 10 }, .observe 1 { bytes := 7 },
        .observe 0 { bytes := 4 }, .close 1, .close 1, .observe 1 { bytes := 5 }, .join] := by
    refine steady_of_small (fun s hs => absurd hs List.not_mem_nil) fun i now h => ?_
    simp only [List.mem_cons, List.not_mem_nil, reduceCtorEq, Event.observe.injEq, false_or,
      or_false] at h
    rcases h with ⟨-, rfl⟩ | ⟨-, rfl⟩ | ⟨-, rfl⟩ | ⟨-, rfl⟩ <;> decide
  have hsum := (gauges_sum { precision := .exact } rfl _).1 _ List.mem_cons_self hsteady
  exact hsum.trans (by decide +kernel)

/-- A figure that changes by 2 to the power of 63 turns a gauge around, and the first whole number
that has more than 53 significant bits is off by one. -/
theorem gauge_wraps_or_rounds :
    (∃ x, run ⟨[], { precision := .exact }⟩
        [.join, .join, .observe 1 { bytes := 0x4000000000000000 },
          .observe 0 { bytes := -0x4000000000000000 },
          .observe 0 { bytes := 0x4000000000000000 }] = x ∧
      x.registry.value "dynarec_code_bytes" = -0x8000000000000000 ∧
      x.total Stats.bytes = 0x8000000000000000) ∧
    ∃ x, run ⟨[], { precision := .exact }⟩
        [.join, .observe 0 { bytes := 0x20000000000001 }] = x ∧
      x.registry.value "dynarec_code_bytes" = 0x20000000000000 ∧
      x.total Stats.bytes = 0x20000000000001 :=
  ⟨⟨_, rfl, by decide +kernel, by decide +kernel⟩, _, rfl, by decide +kernel, by decide +kernel⟩

end Meters

end HostCode
