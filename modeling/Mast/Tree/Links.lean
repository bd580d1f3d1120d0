import Mast.BinaryVector.Basic
import Mast.Lib.Fuel
import Mast.Lib.SiblingLists

/-!
# The links of a model tree

The children of a parent node are linked one to the next. `ParentNode` and `SystemModel` change these links to disconnect a node and to append it elsewhere. Links that are followed around a circle are followed for ever, so what follows links has fuel.
-/

namespace Mast

open Fuel SiblingLists

/-- The links between the nodes of a system model, by the identifiers of the nodes. -/
structure ModelTree where
  root : Option Nat
  name : Nat → String
  isParent : Nat → Bool
  firstChild : Nat → Option Nat
  nextSibling : Nat → Option Nat
  optionalChildAppender : Nat → Option Nat

namespace ModelTree

def setFirstChild (t : ModelTree) (parent : Nat) (child : Option Nat) : ModelTree :=
  { t with firstChild := Function.update t.firstChild parent child }

def setNextSibling (t : ModelTree) (node : Nat) (nextSibling : Option Nat) : ModelTree :=
  { t with nextSibling := Function.update t.nextSibling node nextSibling }

def setChildAppender (t : ModelTree) (parent : Nat) (childAppender : Option Nat) : ModelTree :=
  { t with optionalChildAppender := Function.update t.optionalChildAppender parent childAppender }

/-! ### Appending -/

def appendSibling (t : ModelTree) : Nat → Nat → Nat → Option ModelTree
  | 0, _, _ => none
  | fuel + 1, node, sibling =>
    match t.nextSibling node with
    | some nextSibling => t.appendSibling fuel nextSibling sibling
    | none => some (t.setNextSibling node (some sibling))

def appendChild (t : ModelTree) : Nat → Nat → Nat → Option ModelTree
  | 0, _, _ => none
  | fuel + 1, parent, child =>
    match t.optionalChildAppender parent with
    | some appender => t.appendChild fuel appender child
    | none =>
      match t.firstChild parent with
      | some firstChild => t.appendSibling fuel firstChild child
      | none => some (t.setFirstChild parent (some child))

def prependChild (t : ModelTree) : Nat → Nat → Nat → Option ModelTree
  | 0, _, _ => none
  | fuel + 1, parent, child =>
    match t.optionalChildAppender parent with
    | some appender => t.prependChild fuel appender child
    | none =>
      match t.firstChild parent with
      | some firstChild =>
        (t.appendSibling fuel child firstChild).bind fun t =>
          some (t.setFirstChild parent (some child))
      | none => some (t.setFirstChild parent (some child))

/-! ### Disconnecting -/

/-- The links between siblings after `DisconnectSibling`. -/
def unlinkSibling (t : ModelTree) (parent : Nat) (beforeNode : Option Nat) (sibling : Nat) :
    ModelTree :=
  match beforeNode with
  | some beforeNode => t.setNextSibling beforeNode (t.nextSibling sibling)
  | none => t.setFirstChild parent (t.nextSibling sibling)

/-- A child appender that is disconnected appends no more. -/
def resetChildAppender (t : ModelTree) (parent sibling : Nat) : ModelTree :=
  if t.optionalChildAppender parent = some sibling then t.setChildAppender parent none else t

def disconnectSibling (t : ModelTree) (parent : Nat) (beforeNode : Option Nat) (sibling : Nat) :
    ModelTree :=
  (t.unlinkSibling parent beforeNode sibling).resetChildAppender parent sibling

section

variable (t : ModelTree) (parent sibling : Nat)

@[simp] theorem resetChildAppender_firstChild :
    (t.resetChildAppender parent sibling).firstChild = t.firstChild := by
  rw [resetChildAppender]
  split <;> rfl

@[simp] theorem resetChildAppender_nextSibling :
    (t.resetChildAppender parent sibling).nextSibling = t.nextSibling := by
  rw [resetChildAppender]
  split <;> rfl

@[simp] theorem resetChildAppender_isParent :
    (t.resetChildAppender parent sibling).isParent = t.isParent := by
  rw [resetChildAppender]
  split <;> rfl

@[simp] theorem resetChildAppender_root :
    (t.resetChildAppender parent sibling).root = t.root := by
  rw [resetChildAppender]
  split <;> rfl

theorem resetChildAppender_childAppender (t' : ModelTree)
    (hsame : t'.optionalChildAppender = t.optionalChildAppender) :
    (t'.resetChildAppender parent sibling).optionalChildAppender =
      (t.resetChildAppender parent sibling).optionalChildAppender := by
  rw [resetChildAppender, resetChildAppender, ← hsame]
  split <;> simp [setChildAppender, hsame]

end

/-- The loop of `DisconnectChild`: the child and its previous sibling. -/
def childPosition (t : ModelTree) (parent child : Nat) :
    Nat → Option Nat → Nat → Option (Except Fault (Option Nat × Nat))
  | 0, _, _ => none
  | fuel + 1, previousSibling, currentChild =>
    if currentChild = child then some (.ok (previousSibling, currentChild))
    else
      match t.nextSibling currentChild with
      | some nextSibling => t.childPosition parent child fuel (some currentChild) nextSibling
      | none =>
        some (.error (.runtimeError ("Node '" ++ t.name child ++ "' is not a child of '" ++
          t.name parent ++ "'")))

def disconnectChild (t : ModelTree) (parent : Nat) (child : Option Nat) (fuel : Nat) :
    Option (Except Fault ModelTree) :=
  match child with
  | none => some (.error (.invalidArgument "Cannot remove 'nullptr' child"))
  | some child =>
    match t.firstChild parent with
    | none => some (.error (.runtimeError "Cannot disconnect a child when there is no child"))
    | some firstChild =>
      (t.childPosition parent child fuel none firstChild).bind fun position =>
        some (position.map fun (previousSibling, currentChild) =>
          t.disconnectSibling parent previousSibling currentChild)

/-- The loop of `DisconnectChannel`. -/
def channelPosition (t : ModelTree) (channelId : Nat) :
    Nat → Option Nat → Nat → Nat → Option (Except Fault (Option Nat × Nat))
  | 0, _, _, _ => none
  | fuel + 1, previousSibling, currentChild, currentId =>
    if currentId = channelId then some (.ok (previousSibling, currentChild))
    else
      match t.nextSibling currentChild with
      | some nextSibling =>
        t.channelPosition channelId fuel (some currentChild) nextSibling (currentId + 1)
      | none =>
        some (.error (.runtimeError ("Cannot disconnect channel " ++ toString channelId ++
          " when there is/are only " ++ toString currentId ++ " channel(s)")))

/-- `DisconnectChannel`, with the disconnected channel. -/
def disconnectChannel (t : ModelTree) (parent channelId fuel : Nat) :
    Option (Except Fault (Nat × ModelTree)) :=
  if channelId = 0 then some (.error (.invalidArgument "Cannot remove channel '0'"))
  else
    match t.firstChild parent with
    | none => some (.error (.runtimeError "Cannot disconnect a channel when there is no child"))
    | some firstChild =>
      (t.channelPosition channelId fuel none firstChild 1).bind fun position =>
        some (position.map fun (previousSibling, currentChild) =>
          (currentChild, t.disconnectSibling parent previousSibling currentChild))

/-- The loop of `HasDirectChild`, which is also the first loop of `FindParentOfNode`. -/
def hasDirectChild (t : ModelTree) (node : Nat) : Nat → Option Nat → Option Bool
  | 0, _ => none
  | _ + 1, none => some false
  | fuel + 1, some currentChild =>
    if currentChild = node then some true
    else t.hasDirectChild node fuel (t.nextSibling currentChild)

mutual

def findParentOfNode (t : ModelTree) (child : Nat) : Nat → Nat → Option (Option Nat)
  | 0, _ => none
  | fuel + 1, currentParent =>
    (t.hasDirectChild child fuel (t.firstChild currentParent)).bind fun found =>
      if found then some (some currentParent)
      else t.findParentInChildren child fuel (t.firstChild currentParent)

/-- The second loop of `FindParentOfNode`. -/
def findParentInChildren (t : ModelTree) (child : Nat) : Nat → Option Nat → Option (Option Nat)
  | 0, _ => none
  | _ + 1, none => some none
  | fuel + 1, some currentChild =>
    (if t.isParent currentChild then t.findParentOfNode child fuel currentChild
      else some none).bind fun foundParent =>
        match foundParent with
        | some parent => some (some parent)
        | none => t.findParentInChildren child fuel (t.nextSibling currentChild)

end

/-- `SystemModel::DisconnectNode`. -/
def disconnectNode (t : ModelTree) (node parentNode : Option Nat) (fuel : Nat) :
    Option (Except Fault ModelTree) :=
  match node with
  | none => some (.error (.invalidArgument "Invalid nullptr"))
  | some node =>
    if t.root = some node then some (.ok { t with root := none })
    else
      match parentNode.or t.root with
      | none =>
        some (.error (.runtimeError
          "Cannot disconnect a node from 'no parent' when there is also no root node"))
      | some parentNode =>
        (t.hasDirectChild node fuel (t.firstChild parentNode)).bind fun isDirect =>
          (if isDirect then some (some parentNode)
            else t.findParentOfNode node fuel parentNode).bind fun parentNode =>
              match parentNode with
              | none =>
                some (.error (.runtimeError ("Cannot find parent of node '" ++ t.name node ++
                  "' to disconnect")))
              | some parentNode => t.disconnectChild parentNode (some node) fuel

end ModelTree

end Mast
