import Mast.Lib.Fuel
import Mast.Scan.Configure

/-!
# Data cycles

`DoDataCycles_Impl` configures the tree and does a data cycle as long as something is pending. A data cycle serves the pending channels of an access interface one after the other: the active registers of a channel are shifted out, and what comes back updates them.

A configuration algorithm decides on the paths of the linkers. There is a built-in one, and four that `ConfigureAlgorithmFactory` makes.
-/

namespace Mast

open Outcome

/-! ### The configuration algorithms -/

def PathSelector.isSelectedAndActive (p : PathSelector) (s : SystemModel) (pathIdentifier : Nat) :
    Except Fault Bool := do
  let selectValue ← p.entry p.selectTable pathIdentifier
  let lastToSut ← p.muxRegisters.lastToSut s
  let nextToSut ← p.muxRegisters.nextToSut s
  let isSelected ← p.accepts nextToSut selectValue
  let isActive ← p.accepts lastToSut selectValue
  return isSelected && isActive

namespace Linker

variable (l : Linker)

/-- Selects a path unless it is active. -/
def selectInactive (pathIdentifier : Nat) (s : SystemModel) : Except Fault SystemModel := do
  let isActive ← Linker.isActive l.selector s pathIdentifier
  if isActive then .ok s else l.select pathIdentifier s

/-- The loop of the greedy algorithm: whether one of `count` paths, from an identifier on, is selected and active. -/
def anySelectedAndActive (s : SystemModel) : Nat → Nat → Except Fault Bool
  | 0, _ => .ok false
  | count + 1, pathId => do
    if ← l.selector.isSelectedAndActive s pathId then .ok true
    else anySelectedAndActive s count (pathId + 1)

/-- `ResolvePendings` of the greedy algorithm. -/
def resolveGreedily (s : SystemModel) : Except Fault SystemModel :=
  if l.isPending s = false then l.select 0 s
  else if s.pendingCounts l.id = 1 then do
    if ← l.anySelectedAndActive s l.selector.selectablePaths 1 then l.select 0 s else .ok s
  else .ok s

/-- `ProcessPending` of the algorithm that closes all paths. -/
def closeActive (pathIdentifier : Nat) (s : SystemModel) : Except Fault SystemModel := do
  let isActive ← Linker.isActive l.selector s pathIdentifier
  if isActive then
    if l.keepOpen then .ok s else l.deselect pathIdentifier s
  else l.select pathIdentifier s

theorem nothing_steers (s : SystemModel) :
    Keeps l.Steers s (.ok s : Except Fault SystemModel) := Keeps.ok .refl

theorem selectInactive_steers (pathIdentifier : Nat) (s : SystemModel) :
    Keeps l.Steers s (l.selectInactive pathIdentifier s) := Keeps.read fun _ _ =>
  Keeps.ite (fun _ => Keeps.ok .refl) fun _ => l.select_steers pathIdentifier s

theorem resolveGreedily_steers (s : SystemModel) : Keeps l.Steers s (l.resolveGreedily s) := by
  refine Keeps.ite (fun _ => l.select_steers 0 s) fun _ => Keeps.ite (fun _ => ?_) fun _ => ?_
  · exact Keeps.read fun _ _ => Keeps.ite (fun _ => l.select_steers 0 s) fun _ => Keeps.ok .refl
  · exact Keeps.ok .refl

theorem closeActive_steers (pathIdentifier : Nat) (s : SystemModel) :
    Keeps l.Steers s (l.closeActive pathIdentifier s) := by
  refine Keeps.read fun _ _ => Keeps.ite (fun _ => Keeps.ite (fun _ => Keeps.ok .refl) fun _ => ?_)
    fun _ => l.select_steers pathIdentifier s
  exact fun s' hs' => .deselect pathIdentifier .refl hs'

end Linker

/-- `ConfigureAlgorithm_LastOrDefault_Greedy`. -/
def lastOrDefaultGreedy : ConfigurationAlgorithm where
  startLinkerProcessing _ s := .ok s
  processPending := Linker.selectInactive
  resolvePendings := Linker.resolveGreedily
  start_steers := Linker.nothing_steers
  process_steers := Linker.selectInactive_steers
  resolve_steers := Linker.resolveGreedily_steers

/-- `ConfigureAlgorithm_Last_Lazy`. -/
def lastLazy : ConfigurationAlgorithm where
  startLinkerProcessing _ s := .ok s
  processPending := Linker.selectInactive
  resolvePendings _ s := .ok s
  start_steers := Linker.nothing_steers
  process_steers := Linker.selectInactive_steers
  resolve_steers := Linker.nothing_steers

/-- `ConfigureAlgorithm_CloseAll`. -/
def closeAll : ConfigurationAlgorithm where
  startLinkerProcessing _ s := .ok s
  processPending := Linker.closeActive
  resolvePendings _ s := .ok s
  start_steers := Linker.nothing_steers
  process_steers := Linker.closeActive_steers
  resolve_steers := Linker.nothing_steers

/-- The algorithms of `ConfigureAlgorithmFactory`, and none of them. -/
inductive ConfigureAlgorithm
  | builtIn
  | lastOrDefault
  | lastOrDefaultGreedy
  | lastLazy
  | closeAll
  deriving DecidableEq

def ConfigureAlgorithm.create : ConfigureAlgorithm → Option ConfigurationAlgorithm
  | .builtIn => none
  | .lastOrDefault => some Mast.lastOrDefault
  | .lastOrDefaultGreedy => some Mast.lastOrDefaultGreedy
  | .lastLazy => some Mast.lastLazy
  | .closeAll => some Mast.closeAll

/-! ### The loop -/

namespace SystemModelManager

/-- The part of `DoHierarchicalDataCycle` for one channel; `protocol` is what `DoCallback` returns for the vector it is given. -/
def doChannel (protocol : Bits → Bits) (channel : Nodes) (s : SystemModel) :
    Except Fault SystemModel :=
  if channel.isPending s then do
    let visitor ← ToSutVisitor.visit s false none channel .start
    if visitor.toSutVector = [] then .ok s
    else FromSutUpdater.updateRegisters visitor.activeRegisters (protocol visitor.toSutVector) s
  else .ok s

/-- The loop of `DoHierarchicalDataCycle` over the channels, the children of the access interface. -/
def doChannels (protocol : Nat → Bits → Bits) : Nat → Nodes → SystemModel → Except Fault SystemModel
  | _, .none, s => .ok s
  | channelId, .register id nextSibling, s => do
    let s ← doChannel (protocol channelId) (.register id .none) s
    doChannels protocol (channelId + 1) nextSibling s
  | channelId, .parent kind id firstChild nextSibling, s => do
    let s ← doChannel (protocol channelId) (.parent kind id firstChild .none) s
    doChannels protocol (channelId + 1) nextSibling s

def doHierarchicalDataCycle (protocol : Nat → Bits → Bits) (id : Nat) (channels : Nodes)
    (s : SystemModel) : Except Fault SystemModel :=
  if s.pendingCounts id ≠ 0 then doChannels protocol 1 channels s else .ok s

/-- The passes of the configurator and of the propagator over a model. -/
def configureModel (algorithm : ConfigureAlgorithm) (root : Nodes) (s : SystemModel) :
    Except Fault SystemModel := do
  let s ← ConfigureVisitor.visit algorithm.create none root s
  return PropagatePendingVisitor.propagate root s

/-- `DoDataCycles_Impl` for a model whose root is an access interface. The protocol may answer differently in each cycle. -/
def doDataCycles (algorithm : ConfigureAlgorithm) (protocol : Nat → Nat → Bits → Bits) (id : Nat)
    (channels : Nodes) : Nat → Nat → SystemModel → Option (Except Fault SystemModel)
  | 0, _, _ => none
  | fuel + 1, cycle, s =>
    match configureModel algorithm (.parent .accessInterface id channels .none) s with
    | .error fault => some (.error fault)
    | .ok configured =>
      if configured.pendingCounts id ≠ 0 then
        match doHierarchicalDataCycle (protocol cycle) id channels configured with
        | .error fault => some (.error fault)
        | .ok updated => doDataCycles algorithm protocol id channels fuel (cycle + 1) updated
      else some (.ok configured)

end SystemModelManager

end Mast
