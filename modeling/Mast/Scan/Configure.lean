import Mast.Scan.ScanPath

/-!
# Configuration and propagation of pending requests

`ConfigureVisitor` flags the registers to write and selects the paths to the pending ones; as it changes selector registers that it may have visited already, `PropagatePendingVisitor` visits the tree once more and sets the counts of the parent nodes. A configuration algorithm decides on the paths of one linker at a time; it acts through `Select` and `Deselect` of that linker only.
-/

namespace Mast

open Outcome

/-- A linker as its visitors see it. -/
structure Linker where
  id : Nat
  selector : PathSelector
  keepOpen : Bool

namespace Linker

variable (l : Linker)

/-- `Linker::Select`; no path is selected while a register of the multiplexer is pending. -/
def select (pathIdentifier : Nat) (s : SystemModel) : Except Fault SystemModel :=
  checkPathIdentifier l.selector pathIdentifier <|
    if pathIdentifier = 0 ∧
        (l.selector.muxRegisters.any fun slice => (s.registers slice.reg).isPending) then .ok s
    else l.selector.select pathIdentifier s

/-- `Linker::Deselect`. -/
def deselect (pathIdentifier : Nat) (s : SystemModel) : Except Fault SystemModel :=
  checkPathIdentifier l.selector pathIdentifier (l.selector.deselect pathIdentifier s)

/-- `Linker::IsSelected`. -/
def isSelected (s : SystemModel) (pathIdentifier : Nat) : Except Fault Bool :=
  checkPathIdentifier l.selector pathIdentifier (l.selector.isSelected s pathIdentifier)

/-- `IsPending` of the linker itself. -/
def isPending (s : SystemModel) : Bool := s.pendingCounts l.id ≠ 0

/-- A state reached from another one by calls of `Select` and `Deselect`. -/
inductive Steers (l : Linker) (s : SystemModel) : SystemModel → Prop
  | refl : Steers l s s
  | select {s' s'' : SystemModel} (pathIdentifier : Nat) (h : Steers l s s')
      (hselect : l.select pathIdentifier s' = .ok s'') : Steers l s s''
  | deselect {s' s'' : SystemModel} (pathIdentifier : Nat) (h : Steers l s s')
      (hdeselect : l.deselect pathIdentifier s' = .ok s'') : Steers l s s''

end Linker

/-- `ConfigurationAlgorithm`. Whatever its three methods observe, they act on the linker they are given by selecting and deselecting its paths. -/
structure ConfigurationAlgorithm where
  startLinkerProcessing : Linker → SystemModel → Except Fault SystemModel
  processPending : Linker → Nat → SystemModel → Except Fault SystemModel
  resolvePendings : Linker → SystemModel → Except Fault SystemModel
  start_steers (l : Linker) (s : SystemModel) : Keeps l.Steers s (startLinkerProcessing l s)
  process_steers (l : Linker) (pathIdentifier : Nat) (s : SystemModel) :
    Keeps l.Steers s (processPending l pathIdentifier s)
  resolve_steers (l : Linker) (s : SystemModel) : Keeps l.Steers s (resolvePendings l s)

/-- Selects the reserved path of a linker that has nothing pending. -/
def Linker.selectNone (l : Linker) (s : SystemModel) : Except Fault SystemModel :=
  if l.isPending s = false then l.select 0 s else .ok s

theorem Linker.select_steers (l : Linker) (pathIdentifier : Nat) (s : SystemModel) :
    Keeps l.Steers s (l.select pathIdentifier s) := fun _ h => .select pathIdentifier .refl h

theorem Linker.selectNone_steers (l : Linker) (s : SystemModel) :
    Keeps l.Steers s (l.selectNone s) :=
  Keeps.ite (fun _ => l.select_steers 0 s) fun _ => Keeps.ok .refl

/-- `ConfigureAlgorithm_LastOrDefault`. -/
def lastOrDefault : ConfigurationAlgorithm where
  startLinkerProcessing _ s := .ok s
  processPending l pathIdentifier s := do
    let isActive ← Linker.isActive l.selector s pathIdentifier
    if isActive then .ok s else l.select pathIdentifier s
  resolvePendings := Linker.selectNone
  start_steers _ _ := Keeps.ok .refl
  process_steers l pathIdentifier s := Keeps.read fun _ _ =>
    Keeps.ite (fun _ => Keeps.ok .refl) fun _ => l.select_steers pathIdentifier s
  resolve_steers := Linker.selectNone_steers

namespace Nodes

/-- `PendingCount` of the first of the nodes. -/
def pendingCount (s : SystemModel) : Nodes → Nat
  | none => 0
  | register id _ => (s.registers id).pendings
  | parent _ id _ _ => s.pendingCounts id

/-- `IsPending` of the first of the nodes. -/
def isPending (s : SystemModel) : Nodes → Bool
  | none => false
  | register id _ => (s.registers id).isPending
  | parent _ id _ _ => s.pendingCounts id ≠ 0

def tally (s : SystemModel) : Nodes → Nat
  | none => 0
  | register id nextSibling => (s.registers id).pendings + nextSibling.tally s
  | parent _ id _ nextSibling => s.pendingCounts id + nextSibling.tally s

def selectorRegisters : Nodes → List Nat
  | none => []
  | register _ nextSibling => nextSibling.selectorRegisters
  | parent (.linker p _) _ firstChild nextSibling =>
    p.muxRegisters.identifiers ++ firstChild.selectorRegisters ++ nextSibling.selectorRegisters
  | parent _ _ firstChild nextSibling =>
    firstChild.selectorRegisters ++ nextSibling.selectorRegisters

def parents : Nodes → List (Nat × Nodes)
  | none => []
  | register _ nextSibling => nextSibling.parents
  | parent _ id firstChild nextSibling =>
    (id, firstChild) :: firstChild.parents ++ nextSibling.parents

end Nodes

/-! ### Configuration -/

namespace ConfigureVisitor

/-- The linker whose children are being visited, with the path of the current child. -/
abbrev Path := Option (Linker × Nat)

def Path.next : Path → Path
  | none => none
  | some (l, pathIdentifier) => some (l, pathIdentifier + 1)

def visitRegister (r : Register) : Register := r.setPendingForWrite (r.nextToSut ≠ r.lastToSut)

/-- What `VisitLinker` does once it has visited a child. -/
def decide (algorithm : Option ConfigurationAlgorithm) (path : Path) (child : Nodes)
    (s : SystemModel) : Except Fault SystemModel :=
  match path with
  | none => .ok s
  | some (l, pathIdentifier) =>
    if child.isPending s then
      let s := s.setPendingCount l.id (s.pendingCounts l.id + child.pendingCount s)
      match algorithm with
      | some algorithm => algorithm.processPending l pathIdentifier s
      | none => l.select pathIdentifier s
    else do
      let isSelected ← l.isSelected s pathIdentifier
      if isSelected && !l.keepOpen then l.deselect pathIdentifier s else .ok s

/-- The last decision of `VisitLinker`. -/
def resolve (algorithm : Option ConfigurationAlgorithm) (l : Linker) (s : SystemModel) :
    Except Fault SystemModel :=
  match algorithm with
  | some algorithm => algorithm.resolvePendings l s
  | none => l.selectNone s

/-- The beginning of `VisitLinker`. -/
def start (algorithm : Option ConfigurationAlgorithm) (l : Linker) (s : SystemModel) :
    Except Fault SystemModel :=
  match algorithm with
  | some algorithm => algorithm.startLinkerProcessing l (s.setPendingCount l.id 0)
  | none => .ok (s.setPendingCount l.id 0)

/-- The visit of nodes that are siblings: the children of a linker when there is a path. -/
def visit (algorithm : Option ConfigurationAlgorithm) :
    Path → Nodes → SystemModel → Except Fault SystemModel
  | _, .none, s => .ok s
  | path, .register id nextSibling, s => do
    let s ← decide algorithm path (.register id nextSibling)
      (s.setRegister id (visitRegister (s.registers id)))
    visit algorithm path.next nextSibling s
  | path, .parent (.linker selector keepOpen) id firstChild nextSibling, s => do
    let s ← start algorithm ⟨id, selector, keepOpen⟩ s
    let s ← visit algorithm (some (⟨id, selector, keepOpen⟩, 1)) firstChild s
    let s ← resolve algorithm ⟨id, selector, keepOpen⟩ (s.setPendingCount id (firstChild.tally s))
    let s ← decide algorithm path (.parent (.linker selector keepOpen) id firstChild nextSibling) s
    visit algorithm path.next nextSibling s
  | path, .parent kind id firstChild nextSibling, s => do
    let s ← visit algorithm none firstChild s
    let s ← decide algorithm path (.parent kind id firstChild nextSibling)
      (s.setPendingCount id (firstChild.tally s))
    visit algorithm path.next nextSibling s

end ConfigureVisitor

/-! ### Propagation -/

namespace PropagatePendingVisitor

def visitRegister (r : Register) : Register :=
  if r.nextToSut ≠ r.lastToSut then r.setPending else r

/-- The number of run loops a visited parent node keeps. -/
def runLoops : ParentKind → Nat → Nat
  | .accessInterface, _ | .accessInterfaceTranslator, _ => 0
  | _, count => count

/-- The loop of `ChildrenPendings` over siblings, with its two accumulators. -/
def visit : Nodes → SystemModel × Nat × Nat → SystemModel × Nat × Nat
  | .none, acc => acc
  | .register id nextSibling, (s, pendingCount, iRunLoopCount) =>
    let r := visitRegister (s.registers id)
    visit nextSibling
      (s.setRegister id r, pendingCount + r.pendings, max iRunLoopCount r.iRunLoopCount)
  | .parent kind id firstChild nextSibling, (s, pendingCount, iRunLoopCount) =>
    let (s, pendings, loops) := visit firstChild (s, 0, 0)
    let loops := runLoops kind (max loops (s.iRunLoopCounts id))
    visit nextSibling
      ((s.setPendingCount id pendings).setiRunLoop id loops, pendingCount + pendings,
        max iRunLoopCount loops)

/-- `Accept` of the root. -/
def propagate (root : Nodes) (s : SystemModel) : SystemModel := (visit root (s, 0, 0)).1

end PropagatePendingVisitor

end Mast
