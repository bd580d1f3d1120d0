import Mast.Path.Search

/-!
# The names checker

`NamesChecker` visits a tree with the stack of the parent nodes that are not ignored in paths. It compares the names of siblings, and the logical paths of the registers; it does not compare the logical paths of parent nodes. Its guard against loops of nodes has nothing to do on a tree.
-/

namespace Mast

open BinaryVector (Text)

inductive Severity
  | info
  | warning
  | error
  deriving DecidableEq

structure Report where
  severity : Severity
  node : Option Nat
  message : Text
  deriving DecidableEq

structure NamesChecker where
  currentPathNodes : List Text
  currentLogicalPath : Text
  leafPaths : List (Text × Nat)
  reports : List Report

namespace NamesChecker

def start : NamesChecker := ⟨[], [], [], []⟩

def errorsCount (c : NamesChecker) : Nat := c.reports.countP (·.severity = .error)

def report (c : NamesChecker) (severity : Severity) (node : Nat) (message : String) : NamesChecker :=
  { c with reports := c.reports ++ [⟨severity, some node, message.toList⟩] }

def rebuildLogicalPath (c : NamesChecker) : NamesChecker :=
  { c with currentLogicalPath := c.currentPathNodes.flatMap (· ++ ['.']) }

def pushParentPath (fields : ParentFields) (c : NamesChecker) : NamesChecker :=
  if fields.ignoreForNodePath then c
  else { c with currentPathNodes := c.currentPathNodes ++ [fields.name] }.rebuildLogicalPath

def popParentPath (fields : ParentFields) (c : NamesChecker) : NamesChecker :=
  if fields.ignoreForNodePath then c
  else { c with currentPathNodes := c.currentPathNodes.dropLast }.rebuildLogicalPath

structure SiblingNames where
  childNames : List Text
  ignoredNames : List Text

/-- The reports of `CheckSiblingName`. -/
def reportSiblingName (id : Nat) (name : Text) (isParent ignored : Bool) (names : SiblingNames)
    (c : NamesChecker) : NamesChecker :=
  if name = [] ∨ name = "unnamed".toList then
    if isParent = false then c.report .info id " Has no valid name"
    else if ignored = false then
      c.report .warning id
        " Has no valid name, even though it is parent node not ignored for node paths"
    else c
  else if name ∈ names.childNames ∧ ignored = false then
    c.report .error id " Has same name as a previous sibling"
  else if name ∈ names.childNames ∧ ignored = true then
    c.report .info id " Has same name as a previous sibling (it is ignored for node paths)"
  else if name ∈ names.ignoredNames ∧ ignored = false then
    c.report .info id " Has same name as a previous sibling (that is ignored for node paths)"
  else if name ∈ names.ignoredNames ∧ ignored = true then
    c.report .info id " Has same name as previous sibling (both are ignored for node paths)"
  else c

/-- The names after `CheckSiblingName`. -/
def SiblingNames.add (names : SiblingNames) (name : Text) (ignored : Bool) : SiblingNames :=
  if name = [] ∨ name = "unnamed".toList then names
  else if ignored then { names with ignoredNames := name :: names.ignoredNames }
  else { names with childNames := name :: names.childNames }

/-- The comparison of the logical path of a register with those before it. -/
def reportLeafPath (id : Nat) (leafPath : Text) (hasReportedAnError : Bool) (c : NamesChecker) :
    NamesChecker :=
  let same := c.leafPaths.filter (·.1 = leafPath)
  let shown := " Has same logical path \"" ++ String.ofList leafPath ++ "\" than "
  if hasReportedAnError then c
  else
    match same with
    | [] => c
    | [(_, otherLeaf)] => c.report .error id (shown ++ "Register with id: " ++ toString otherLeaf)
    | _ => c.report .error id (shown ++ toString same.length ++ " other Registers")

/-- What `CheckParentNode` does with a register, once its name has been compared with its siblings. -/
def checkLeaf (id : Nat) (name : Text) (hasReportedAnError : Bool) (c : NamesChecker) :
    NamesChecker :=
  let leafPath := c.currentLogicalPath ++ name
  let c := c.reportLeafPath id leafPath hasReportedAnError
  { c with leafPaths := c.leafPaths ++ [(leafPath, id)] }

/-- The loop of `CheckParentNode` over siblings, with the visit of their children. -/
def checkSiblings : Siblings → SiblingNames → NamesChecker → NamesChecker
  | .none, _, c => c
  | .register id name next, names, c =>
    let checked := c.reportSiblingName id name false false names
    checkSiblings next (names.add name false)
      (checked.checkLeaf id name (checked.errorsCount ≠ c.errorsCount))
  | .parent fields firstChild next, names, c =>
    let ignored := fields.ignoreForNodePath
    let checked := c.reportSiblingName fields.id fields.name true ignored names
    let inner := checkSiblings firstChild ⟨[], []⟩ (checked.pushParentPath fields)
    checkSiblings next (names.add fields.name ignored) (inner.popParentPath fields)

def checkParentNode (p : ParentNode) (c : NamesChecker) : NamesChecker :=
  (checkSiblings p.firstChild ⟨[], []⟩ (c.pushParentPath p.toParentFields)).popParentPath
    p.toParentFields

def check (root : Option ParentNode) : NamesChecker :=
  match root with
  | none => { start with reports := [⟨.warning, none, "No SystemModel (sub-)tree to check".toList⟩] }
  | some p => start.checkParentNode p

/-- The tree is accepted without error. -/
def Accepts (root : ParentNode) : Prop := (check (some root)).errorsCount = 0

instance (root : ParentNode) : Decidable (Accepts root) := inferInstanceAs (Decidable (_ = _))

end NamesChecker

end Mast
