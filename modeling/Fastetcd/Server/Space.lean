import Fastetcd.Mvcc.Run

/-!
# Disk space (`server/src/space.rs`, `server/src/compaction.rs`)

The space monitor samples what the store holds on its volume, raises the NOSPACE alarm at one mark
and clears it at a lower one. Under pressure it proposes a compaction, as the auto-compaction ticker
does, and the data file is rewritten when enough of it is free.

A sample is what the engine, the snapshot store and the filesystem report. Its other counters, the
times between samples and the log messages are left out.
-/

namespace Fastetcd.Server.Space

structure RewriteConfig where
  freePercent : UInt8 := 50
  minFileBytes : Nat := 64 * 2 ^ 20

structure SpaceConfig where
  quotaBackendBytes : Nat := 0
  highWaterPercent : UInt8 := 80
  alarmPercent : UInt8 := 95
  clearPercent : UInt8 := 70
  reclaimRetention : Int := 1000
  rewrite : RewriteConfig := {}

/-- What a sample finds; `available` is `none` where the platform has no probe. -/
structure Footprint where
  dbBytes : Nat
  snapshotBytes : Nat
  dataDirBytes : Nat
  available : Option Nat

/-- `u64::MAX`. -/
def u64Max : Nat := 18446744073709551615

def usedBytes (f : Footprint) : Nat :=
  if f.dataDirBytes > 0 then f.dataDirBytes else min (f.dbBytes + f.snapshotBytes) u64Max

def capacityBytes (cfg : SpaceConfig) (used : Nat) (available : Option Nat) : Nat :=
  match cfg.quotaBackendBytes, available.map fun avail => min (used + avail) u64Max with
  | 0, some reachable => reachable
  | 0, none => 0
  | quota, some reachable => min quota reachable
  | quota, none => quota

/-- The capacity that a sample measures against. -/
def Footprint.capacity (f : Footprint) (cfg : SpaceConfig) : Nat :=
  capacityBytes cfg (usedBytes f) f.available

def usedPpm (used capacity : Nat) : Nat :=
  if capacity = 0 then 0 else min (used * 1000000 / capacity) u64Max

def pctPpm (percent : UInt8) : Nat := percent.toNat * 10000

/-- Whether the alarm is raised after a sample; `raised` is whether it was before. -/
def updateAlarm (cfg : SpaceConfig) (raised : Bool) (ppm capacity : Nat) : Bool :=
  if capacity = 0 then raised
  else if !raised && decide (ppm ≥ pctPpm cfg.alarmPercent) then true
  else if raised && decide (ppm ≤ pctPpm cfg.clearPercent) then false
  else raised

/-- `refresh`, of which the alarm is kept. -/
def refresh (cfg : SpaceConfig) (raised : Bool) (f : Footprint) : Bool :=
  updateAlarm cfg raised (usedPpm (usedBytes f) (f.capacity cfg)) (f.capacity cfg)

/-- What happens to the alarm: a sample, or an operator's `alarm disarm`. -/
inductive Event where
  | sample (f : Footprint)
  | disarm

def step (cfg : SpaceConfig) (raised : Bool) : Event → Bool
  | .sample f => refresh cfg raised f
  | .disarm => false

/-- The alarm after some events, from a start of the process. -/
def nospace (cfg : SpaceConfig) (events : List Event) : Bool := events.foldl (step cfg) false

/-- Whether to rewrite the data file now, and if not, why. -/
def rewriteDecision (cfg : RewriteConfig) (highWaterPercent : UInt8)
    (file inUse used capacity : Nat) : Except String Unit :=
  if cfg.freePercent = 0 then .error "off"
  else if file < cfg.minFileBytes then .error "file below --defrag-min-file-bytes"
  else if inUse = 0 ∨ (file - inUse) * 100 < file * cfg.freePercent.toNat then
    .error "free share below --defrag-free-percent"
  else if capacity > 0 ∧ min (used + inUse) u64Max * 100 > capacity * highWaterPercent.toNat then
    .error "no room for the copy under the high-water mark"
  else .ok ()

/-- History the reclaim keeps. -/
def reclaimRetention (cfg : SpaceConfig) (nospace : Bool) : Int :=
  if nospace then 0 else cfg.reclaimRetention

/-- The compaction that `compact_to_retention` proposes, if any. -/
def compactToRetention (leads : Bool) (s : Mvcc.Store) (retention : Int) : Option Int :=
  let target := s.view.current - retention
  if !leads then none
  else if target ≤ s.view.compact ∨ target ≤ 0 then none
  else some target

end Fastetcd.Server.Space
