import HostCode.Precision

/-! # Metrics

A registry holds named counters and gauges. The sessions that use a registry share them: each
adds what has changed since it was last observed, so that they hold the sums.
-/

namespace HostCode

structure Stats where
  blocks : Int := 0
  grows : Int := 0
  recorded : Int := 0
  patched : Int := 0
  pending : Int := 0
  bytes : Int := 0
  capacity : Int := 0
  deriving DecidableEq, Repr

inductive MetricKind | counter | gauge
  deriving DecidableEq, Repr

structure Metric where
  kind : MetricKind
  name : String
  help : String
  value : Int := 0
  deriving DecidableEq, Repr

namespace Metric

/-- Adds a number of 53 significant bits. A counter keeps the sum and is rounded when it is
shown, where a gauge is rounded each time. -/
def add (p : Precision) (amount : Int) (m : Metric) : Metric :=
  { m with value := match p, m.kind with
      | .exact, _ => m.value + amount
      | .double, .counter => (m.value + amount) % 0x10000000000000000
      | .double, .gauge => Precision.nearest (m.value + amount) }

def shown (p : Precision) (m : Metric) : Int :=
  match p with
  | .exact => m.value
  | .double => Precision.nearest m.value

end Metric

structure Registry where
  precision : Precision := .double
  /-- In the order of their registration. -/
  metrics : List Metric := []
  deriving DecidableEq, Repr

namespace Registry

/-- Registers a metric that starts at zero. One of the same name and help text is used
instead if there is one, where a gauge can also serve as a counter. -/
def register (m : Metric) (r : Registry) : Option Registry :=
  match r.metrics.find? (·.name == m.name) with
  | none => some { r with metrics := r.metrics ++ [m] }
  | some old =>
    if old.help = m.help ∧ (m.kind = .counter ∨ old.kind = .gauge) then some r else none

def add (name : String) (amount : Int) (r : Registry) : Registry :=
  { r with metrics := r.metrics.map fun m =>
      if m.name == name then m.add r.precision amount else m }

end Registry

namespace Metrics

def full (name : String) : String := "dynarec_" ++ name

def counters : List (String × String × (Stats → Int)) :=
  [("blocks_translated_total", "Number of guest blocks translated", Stats.blocks),
    ("buffer_grows_total", "Number of code buffer reallocations", Stats.grows),
    ("relocations_recorded_total", "Number of jump sites recorded for later patching",
      Stats.recorded),
    ("relocations_patched_total", "Number of jump sites patched", Stats.patched)]

def gauges : List (String × String × (Stats → Int)) :=
  [("code_bytes", "Bytes of host code written", Stats.bytes),
    ("code_capacity_bytes", "Bytes of executable memory allocated", Stats.capacity),
    ("relocations_pending", "Number of jump sites waiting for their target", Stats.pending)]

def all : List Metric :=
  counters.map (fun (name, help, _) => ⟨.counter, full name, help, 0⟩) ++
    gauges.map (fun (name, help, _) => ⟨.gauge, full name, help, 0⟩)

/-- Registers metrics one by one, up to the first that is refused. -/
def registerEach : List Metric → Registry → Bool × Registry
  | [], r => (true, r)
  | m :: ms, r =>
    match r.register m with
    | some r => registerEach ms r
    | none => (false, r)

end Metrics

/-- The share of one session in the metrics: the figures that it was last seen with. -/
structure Meter where
  last : Stats := {}
  deriving DecidableEq, Repr

namespace Meter

/-- A share in the metrics of a registry, unless a metric of another kind is in the way. -/
def new (r : Registry) : Option Meter × Registry :=
  match Metrics.registerEach Metrics.all r with
  | (true, r) => (some {}, r)
  | (false, r) => (none, r)

/-- What a figure has changed by, as a word of 64 bits. -/
def change (now last : Int) : Int := (now - last).bmod 0x10000000000000000

/-- What a counter advances by. A figure that went down belongs to a source that started
over, so all of it is new. -/
def advance (now last : Int) : Int := max 0 (if now < last then now else change now last)

/-- Brings the metrics up to date. Words become numbers of 53 significant bits before they are
added, whatever the registry can hold. -/
def observe (now : Stats) (m : Meter) (r : Registry) : Meter × Registry :=
  let r := Metrics.counters.foldl (fun r (name, _, figure) =>
    r.add (Metrics.full name) (Precision.nearest (advance (figure now) (figure m.last)))) r
  let r := Metrics.gauges.foldl (fun r (name, _, figure) =>
    r.add (Metrics.full name) (Precision.nearest (change (figure now) (figure m.last)))) r
  (⟨now⟩, r)

/-- Takes the share out of the gauges. Counters keep theirs. -/
def close (m : Meter) (r : Registry) : Meter × Registry :=
  let r := Metrics.gauges.foldl (fun r (name, _, figure) =>
    r.add (Metrics.full name) (-Precision.nearest (figure m.last))) r
  (⟨{ m.last with bytes := 0, capacity := 0, pending := 0 }⟩, r)

end Meter

end HostCode
