import Mast.Checker.Graph

/-!
# The checks of the tree

`CheckTree` visits the nodes below the root, depth first, along the links between the children. What it collects is the parent under which it first found a managed node.
-/

namespace Mast

structure CollectedNodeInfo where
  parent : Option Nat
  node : Option Nat

/-- The state of the checker, which has the collected information by identifier. -/
structure SystemModelChecker where
  collectedNodeInfo : Nat → CollectedNodeInfo
  reports : List NodeGraph.Finding

namespace SystemModelChecker

def start : SystemModelChecker := ⟨fun _ => ⟨none, none⟩, []⟩

def report (c : SystemModelChecker) (findings : List NodeGraph.Finding) : SystemModelChecker :=
  { c with reports := c.reports ++ findings }

def collect (c : SystemModelChecker) (id : Nat) (info : CollectedNodeInfo) : SystemModelChecker :=
  { c with collectedNodeInfo := Function.update c.collectedNodeInfo id info }

@[simp] theorem report_collectedNodeInfo (c : SystemModelChecker)
    (findings : List NodeGraph.Finding) :
    (c.report findings).collectedNodeInfo = c.collectedNodeInfo :=
  rfl

@[simp] theorem report_reports (c : SystemModelChecker) (findings : List NodeGraph.Finding) :
    (c.report findings).reports = c.reports ++ findings :=
  rfl

@[simp] theorem report_nil (c : SystemModelChecker) : c.report [] = c := by
  rw [report, List.append_nil]

@[simp] theorem report_report (c : SystemModelChecker) (findings others : List NodeGraph.Finding) :
    (c.report findings).report others = c.report (findings ++ others) := by
  rw [report, report, report, List.append_assoc]

@[simp] theorem collect_collectedNodeInfo (c : SystemModelChecker) (id : Nat)
    (info : CollectedNodeInfo) :
    (c.collect id info).collectedNodeInfo = Function.update c.collectedNodeInfo id info :=
  rfl

@[simp] theorem collect_reports (c : SystemModelChecker) (id : Nat) (info : CollectedNodeInfo) :
    (c.collect id info).reports = c.reports :=
  rfl

end SystemModelChecker

namespace NodeGraph

/-! ### Checks of single nodes -/

/-- The loop of `DirectChildrenCount`; `room` is what is missing from 10000. -/
def countSiblings (g : NodeGraph) : Nat → Nat → Option Nat → Except Fault Nat
  | _, count, none => .ok count
  | 0, _, some _ => .error (.logicError "There seems a child has been appended twice")
  | room + 1, count, some child => g.countSiblings room (count + 1) (g.nextSibling child)

def directChildrenCount (g : NodeGraph) (parent : Nat) : Except Fault Nat :=
  g.countSiblings 10000 0 (g.firstChild parent)

def visitAccessInterface (node : Nat) (protocol : Option InterfaceProtocol) : List Finding :=
  match protocol with
  | none => [.noProtocol node]
  | some protocol =>
    if protocol.parentTranslatorIsSet = some false then [.noParentTranslator node] else []

def visitAccessInterfaceTranslator (g : NodeGraph) (node : Nat) : List Finding :=
  match g.firstChild node with
  | none => [.translatorWithoutChild node]
  | some child =>
    match g.kind child with
    | .accessInterface protocol =>
      if (protocol.bind (·.parentTranslatorIsSet)).isSome then []
      else [.translatorWithoutRawProtocol node child]
    | .accessInterfaceTranslator protocolIsT2T =>
      if protocolIsT2T then [] else [.translatorWithoutT2TProtocol node child]
    | _ => [.translatorChild node]

/-- The reports about a selector. -/
def checkSelectablePaths (node : Nat) (selector : LinkerSelector) : List Finding :=
  if selector.selectablePaths = 0 then [.noSelectablePath node]
  else if selector.selectablePaths = 1 ∧ selector.canSelectNone = false then [.singlePath node]
  else []

/-- The comparison of the number of children with that of the paths. -/
def checkChildrenCount (node childrenCount selectablePaths : Nat) : List Finding :=
  if childrenCount = 0 then []
  else if childrenCount < selectablePaths then
    [.tooFewChildren node childrenCount selectablePaths]
  else if selectablePaths < childrenCount then
    [.tooManyChildren node childrenCount selectablePaths]
  else []

def visitLinker (g : NodeGraph) (node : Nat) (selector : Option LinkerSelector) :
    Except Fault (List Finding) :=
  (g.directChildrenCount node).map fun childrenCount =>
    match selector with
    | none => [.noSelector node]
    | some selector =>
      checkSelectablePaths node selector ++
        checkChildrenCount node childrenCount selector.selectablePaths

/-- `Accept`, by the type of the node. -/
def accept (g : NodeGraph) (node : Nat) : Except Fault (List Finding) :=
  match g.kind node with
  | .accessInterface protocol => .ok (visitAccessInterface node protocol)
  | .accessInterfaceTranslator _ => .ok (g.visitAccessInterfaceTranslator node)
  | .linker selector => g.visitLinker node selector
  | .chain | .register | .streamer => .ok []

def checkNumberOfChannels (g : NodeGraph) (node : Nat) (protocol : Option InterfaceProtocol) :
    Except Fault (List Finding) :=
  match protocol with
  | none => .ok []
  | some protocol =>
    (g.directChildrenCount node).map fun childrenCount =>
      let maxChannels := protocol.maxSupportedChannels
      if maxChannels ≤ childrenCount then [.tooManyChannels node childrenCount maxChannels]
      else if childrenCount + 1 < maxChannels ∧ maxChannels - childrenCount < 100 then
        [.tooFewChannels node childrenCount maxChannels]
      else []

/-! ### The root -/

/-- What `CheckAccessInterface` reports of a child of the root, with whether it is an interface. -/
def checkRootChild (g : NodeGraph) (child : Nat) : Except Fault (List Finding × Bool) :=
  match g.kind child with
  | .accessInterface protocol => (g.checkNumberOfChannels child protocol).map (·, true)
  | .accessInterfaceTranslator _ => .ok ([], true)
  | _ => .ok ([.chainRootChild child], false)

/-- The loop of `CheckAccessInterface`. -/
def checkRootChildren (g : NodeGraph) :
    Nat → Option Nat → Option (Except Fault (List Finding × Bool))
  | 0, _ => none
  | _ + 1, none => some (.ok ([], false))
  | fuel + 1, some child =>
    match g.checkRootChild child with
    | .error e => some (.error e)
    | .ok (findings, isInterface) =>
      (g.checkRootChildren fuel (g.nextSibling child)).map fun result =>
        result.map fun (others, hasInterface) => (findings ++ others, isInterface || hasInterface)

def checkAccessInterface (g : NodeGraph) (fuel root : Nat) :
    Option (Except Fault (List Finding)) :=
  match g.kind root with
  | .accessInterface protocol => some (g.checkNumberOfChannels root protocol)
  | .accessInterfaceTranslator _ => some (.ok [])
  | .chain =>
    (g.checkRootChildren fuel (g.firstChild root)).map fun result =>
      result.map fun (findings, hasInterface) =>
        findings ++ if hasInterface then [] else [.chainRootWithoutInterface root]
  | _ => some (.ok [.rootType root])

/-! ### The traversal -/

/-- The report about a managed child that has a parent already. -/
def secondParent (g : NodeGraph) (parent child firstParent : Nat) : Finding :=
  if firstParent ≠ parent then .otherParent child parent firstParent
  else if g.nextSibling child = some child then .appendedTwiceInARow child parent
  else .appendedTwice child parent

/-- `CheckChildNode`, with whether the child is checked for the first time. -/
def checkChildNode (g : NodeGraph) (parent child : Nat) (c : SystemModelChecker) :
    Bool × SystemModelChecker :=
  let id := g.identifier child
  match (g.identifierMapping[id]?).join with
  | none => (true, c.report [.notManaged child])
  | some mapped =>
    if child ≠ mapped then (true, c.report [.sameIdentifier child mapped])
    else
      let nodeInfos := c.collectedNodeInfo id
      match nodeInfos.parent with
      | some firstParent =>
        (false, (c.report [g.secondParent parent child firstParent]).collect id
          { nodeInfos with node := some child })
      | none =>
        (nodeInfos.node.isNone, c.collect id { parent := some parent, node := some child })

mutual

def checkParentNode (g : NodeGraph) :
    Nat → Nat → SystemModelChecker → Option (Except Fault SystemModelChecker)
  | 0, _, _ => none
  | fuel + 1, parent, c =>
    match g.firstChild parent with
    | none => some (.ok (c.report [.noChild parent]))
    | some child => g.checkChildren fuel parent (some child) c

/-- The loop of `CheckParentNode`. -/
def checkChildren (g : NodeGraph) :
    Nat → Nat → Option Nat → SystemModelChecker → Option (Except Fault SystemModelChecker)
  | 0, _, _, _ => none
  | _ + 1, _, none, c => some (.ok c)
  | fuel + 1, parent, some child, c =>
    if child = parent then
      g.checkChildren fuel parent (g.nextSibling child) (c.report [.appendedIntoItself child])
    else
      let (checkedOnce, c) := g.checkChildNode parent child c
      if checkedOnce = false then some (.ok c)
      else
        match g.accept child with
        | .error e => some (.error e)
        | .ok findings =>
          (if g.isParent child then g.checkParentNode fuel child (c.report findings)
            else some (.ok (c.report findings))).bind fun result =>
              match result with
              | .error e => some (.error e)
              | .ok c => g.checkChildren fuel parent (g.nextSibling child) c

end

/-- The reports about the nodes that the traversal has not seen. -/
def unseen (g : NodeGraph) (root : Nat) (c : SystemModelChecker) : List Finding :=
  (List.range g.identifierMapping.length).flatMap fun id =>
    match (g.identifierMapping[id]?).join with
    | some node =>
      if node ≠ root ∧ (c.collectedNodeInfo id).node = none then [.notSeen node] else []
    | none => []

/-- What `CheckTree` does with a root: the reports. -/
def checkRoot (g : NodeGraph) (fuel root : Nat) : Option (Except Fault (List Finding)) :=
  match g.accept root with
  | .error e => some (.error e)
  | .ok findings =>
    (g.checkAccessInterface fuel root).bind fun result =>
      match result with
      | .error e => some (.error e)
      | .ok others =>
        let mapping := if g.identifierMapping = [] then [Finding.noMapping] else []
        (g.checkParentNode fuel root
          (SystemModelChecker.start.report (mapping ++ findings ++ others))).map fun result =>
            result.map fun c => c.reports ++ g.unseen root c

def checkTree (g : NodeGraph) (fuel : Nat) : Option (Except Fault (List Finding)) :=
  match g.root with
  | none => some (.ok [.noRoot])
  | some root => g.checkRoot fuel root

end NodeGraph

end Mast
