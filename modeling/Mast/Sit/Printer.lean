import Mast.BinaryVector.Print
import Mast.Scan.DefaultSelector

/-!
# Printing a model tree as a SIT text

`SIT_Printer` visits a tree of access interfaces, chains, linkers and registers. A tree is given by its first child and next sibling links: `Nodes` is a node with the siblings after it. Node identifiers are no part of a SIT text, nor of this tree; where a linker refers to its selector register, the register is known by its place among the registers of the tree, in the order they are visited.
-/

namespace Mast

namespace Sit

open BinaryVector (Text decimal Separators)

structure RegisterFields where
  name : Text
  bypassSequence : BinaryVector
  holdValue : Bool
  deriving DecidableEq

/-- A selector made by the factory of path selectors, with one register. -/
structure Selector where
  kind : DefaultSelector
  /-- It was made without `CanSelectNone`. -/
  noIdle : Bool
  selectablePaths : Nat
  associatedRegister : Nat
  deriving DecidableEq

/-- The kinds of parent nodes. The protocol of an access interface, if it has one, is known by its kind name. -/
inductive ParentKind (σ : Type)
  | accessInterface (protocol : Option Text)
  | chain
  | linker (selector : σ)
  deriving DecidableEq

/-- A parent node without its links. -/
structure ParentFields (σ : Type) where
  kind : ParentKind σ
  name : Text
  ignoreForNodePath : Bool
  deriving DecidableEq

inductive Nodes (σ : Type)
  | nil
  | register (fields : RegisterFields) (nextSibling : Nodes σ)
  | parent (fields : ParentFields σ) (firstChild nextSibling : Nodes σ)
  deriving DecidableEq

inductive Node (σ : Type)
  | register (fields : RegisterFields)
  | parent (fields : ParentFields σ) (firstChild : Nodes σ)
  deriving DecidableEq

section Visit

variable {σ : Type}

def Node.before (nextSibling : Nodes σ) : Node σ → Nodes σ
  | .register fields => .register fields nextSibling
  | .parent fields firstChild => .parent fields firstChild nextSibling

def Node.name : Node σ → Text
  | .register fields => fields.name
  | .parent fields _ => fields.name

/-- The registers, in the order they are visited. -/
def Nodes.registers : Nodes σ → List RegisterFields
  | .nil => []
  | .register fields nextSibling => fields :: nextSibling.registers
  | .parent _ firstChild nextSibling => firstChild.registers ++ nextSibling.registers

/-- The parent nodes with their children. -/
def Nodes.parents : Nodes σ → List (ParentFields σ × Nodes σ)
  | .nil => []
  | .register _ nextSibling => nextSibling.parents
  | .parent fields firstChild nextSibling =>
    (fields, firstChild) :: firstChild.parents ++ nextSibling.parents

def Node.registers (root : Node σ) : List RegisterFields := (root.before .nil).registers

def Node.parents (root : Node σ) : List (ParentFields σ × Nodes σ) := (root.before .nil).parents

end Visit

/-- `KindName` of the selectors that the factory makes. -/
def Selector.kindName (selector : Selector) : Text :=
  match selector.kind with
  | .binary => "Binary".toList
  | .oneHot => "One_Hot".toList
  | .nHot => "N_Hot".toList

namespace Printer

def streamDepth (depth : Nat) : Text := List.replicate (depth * 2) ' '

def streamNodeName (name : Text) : Text :=
  if ' ' ∈ name then " \"".toList ++ name ++ ['"'] else ' ' :: name

/-- `StreamNodeHeader`; `first` is `m_first`. -/
def streamNodeHeader (first : Bool) (depth : Nat) (type name notes : Text) : Text :=
  (if first then [] else ['\n']) ++ streamDepth depth ++ type ++ streamNodeName name ++
    (if notes = [] then [] else ' ' :: notes)

def typeOf {σ : Type} : ParentKind σ → Text
  | .accessInterface _ => "ACCESS_INTERFACE".toList
  | .chain => "CHAIN".toList
  | .linker _ => "LINKER".toList

/-- The kind name that is printed for the protocol of an access interface. -/
def protocolNote (protocol : Option Text) : Text := protocol.getD "PROTOCOL_NOT_SET".toList

/-- The notes of `VisitAccessInterface` and `VisitLinker`; a chain has none. The names are those of the registers of the tree. -/
def notesOf (names : List Text) : ParentKind Selector → Text
  | .accessInterface protocol => protocolNote protocol
  | .chain => []
  | .linker selector =>
    selector.kindName ++ streamNodeName (names.getD selector.associatedRegister []) ++
      ' ' :: decimal selector.selectablePaths

/-- The bracket before the children of a node, and the one after them. -/
def openingBracket {σ : Type} : ParentKind σ → Char
  | .chain => '\x7b'
  | _ => '('

def closingBracket {σ : Type} : ParentKind σ → Char
  | .chain => '\x7d'
  | _ => ')'

/-- `StreamParentNode`, given what is printed for the children. -/
def streamParentNode (names : List Text) (first : Bool) (depth : Nat)
    (fields : ParentFields Selector) (children : Text) : Text :=
  streamNodeHeader first depth (typeOf fields.kind) fields.name (notesOf names fields.kind) ++
    (if fields.ignoreForNodePath then " NOT_IN_PATH".toList else []) ++
    '\n' :: streamDepth depth ++ [openingBracket fields.kind] ++ children ++
    '\n' :: streamDepth depth ++ [closingBracket fields.kind]

def visitRegister (first : Bool) (depth : Nat) (fields : RegisterFields) : Text :=
  streamNodeHeader first depth "REGISTER".toList fields.name [] ++
    ' ' :: decimal fields.bypassSequence.usedBits ++
    (if fields.holdValue then " Hold_value".toList else []) ++
    " Bypass: \"".toList ++ fields.bypassSequence.dataAsMixString 8 Separators.default ++ ['"']

/-- The loop of `PrintChildren`, at the depth of the children. -/
def printChildren (names : List Text) (depth : Nat) : Nodes Selector → Text
  | .nil => []
  | .register fields nextSibling =>
    visitRegister false depth fields ++ printChildren names depth nextSibling
  | .parent fields firstChild nextSibling =>
    streamParentNode names false depth fields (printChildren names (depth + 1) firstChild) ++
      printChildren names depth nextSibling

end Printer

def makeSit (topNode : Node Selector) : Text :=
  match topNode with
  | .register fields => Printer.visitRegister true 0 fields
  | .parent fields firstChild =>
    let names := topNode.registers.map (·.name)
    Printer.streamParentNode names true 0 fields (Printer.printChildren names 1 firstChild)

end Sit

end Mast
