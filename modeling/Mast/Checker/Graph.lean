import Mast.Path.NamesChecker
import Mast.Tree.Links

/-!
# The nodes that the model checker visits

`SystemModelChecker` looks at the links between the nodes, at the type of each node with its protocol or selector, and at the mapping from identifiers to nodes. Two nodes may have the same identifier; the node that is mapped is the one that `SystemModel` manages.
-/

namespace Mast

open SiblingLists

/-- An `AccessInterfaceProtocol`; `parentTranslatorIsSet` is that of an `AccessInterfaceRawProtocol`. -/
structure InterfaceProtocol where
  maxSupportedChannels : Nat
  parentTranslatorIsSet : Option Bool

structure LinkerSelector where
  selectablePaths : Nat
  canSelectNone : Bool

inductive NodeKind
  | accessInterface (protocol : Option InterfaceProtocol)
  | accessInterfaceTranslator (protocolIsT2T : Bool)
  | chain
  | linker (selector : Option LinkerSelector)
  | register
  | streamer

def NodeKind.isParent : NodeKind → Bool
  | .register => false
  | _ => true

def NodeKind.typeName : NodeKind → String
  | .accessInterface _ => "AccessInterface"
  | .accessInterfaceTranslator _ => "AccessInterfaceTranslator"
  | .chain => "Chain"
  | .linker _ => "Linker"
  | .register => "Register"
  | .streamer => "Streamer"

/-- The finitely many nodes of a model, each registered at most at its own identifier. -/
structure NodeGraph extends ModelTree where
  kind : Nat → NodeKind
  identifier : Nat → Nat
  identifierMapping : List (Option Nat)
  nodesCount : Nat
  parents : ∀ n, isParent n = (kind n).isParent
  root_isParent : ∀ n, root = some n → isParent n = true
  registered : ∀ id n, identifierMapping[id]? = some (some n) → identifier n = id
  root_lt : ∀ n, root = some n → n < nodesCount
  firstChild_lt : ∀ p n, firstChild p = some n → n < nodesCount
  nextSibling_lt : ∀ m n, nextSibling m = some n → n < nodesCount

namespace NodeGraph

/-- Managed by the `SystemModel`. -/
def Managed (g : NodeGraph) (n : Nat) : Prop :=
  g.identifierMapping[g.identifier n]? = some (some n)

instance (g : NodeGraph) (n : Nat) : Decidable (g.Managed n) :=
  inferInstanceAs (Decidable (_ = _))

/-! ### Reports -/

/-- What `CheckTree` reports. -/
inductive Finding
  | noRoot
  | noMapping
  | noProtocol (accessInterface : Nat)
  | noParentTranslator (accessInterface : Nat)
  | translatorWithoutChild (translator : Nat)
  | translatorChild (translator : Nat)
  | translatorWithoutRawProtocol (translator child : Nat)
  | translatorWithoutT2TProtocol (translator child : Nat)
  | noSelector (linker : Nat)
  | noSelectablePath (linker : Nat)
  | singlePath (linker : Nat)
  | tooFewChildren (linker childrenCount selectablePaths : Nat)
  | tooManyChildren (linker childrenCount selectablePaths : Nat)
  | tooManyChannels (accessInterface childrenCount maxChannels : Nat)
  | tooFewChannels (accessInterface childrenCount maxChannels : Nat)
  | chainRootChild (child : Nat)
  | chainRootWithoutInterface (root : Nat)
  | rootType (root : Nat)
  | noChild (parent : Nat)
  | appendedIntoItself (child : Nat)
  | notManaged (child : Nat)
  | sameIdentifier (child otherNode : Nat)
  | otherParent (child parent otherParent : Nat)
  | appendedTwiceInARow (child parent : Nat)
  | appendedTwice (child parent : Nat)
  | notSeen (node : Nat)

def Finding.severity : Finding → Severity
  | .noRoot | .noProtocol _ | .noSelectablePath _ | .singlePath _ | .tooFewChildren _ _ _
  | .noChild _ => .warning
  | .tooFewChannels _ _ _ => .info
  | _ => .error

/-- A node not managed, appended into itself, appended twice, child of two parents or not seen. -/
def Finding.structural : Finding → Bool
  | .appendedIntoItself _ | .notManaged _ | .sameIdentifier _ _ | .otherParent _ _ _
  | .appendedTwiceInARow _ _ | .appendedTwice _ _ | .notSeen _ => true
  | _ => false

variable (g : NodeGraph)

/-- `Stream`, without a header. -/
def stream (node : Nat) : String :=
  (g.kind node).typeName ++ " '" ++ g.name node ++ "' (id: " ++ toString (g.identifier node) ++ ")"

def message : Finding → String
  | .noRoot => "SystemModel has no root node"
  | .noMapping => "There is no mapping between identifiers and nodes"
  | .noProtocol node => g.stream node ++ " has no associated AccessInterfaceProtocol"
  | .noParentTranslator node =>
    g.stream node ++ " has a Raw protocol but no Parent Translator is set"
  | .translatorWithoutChild node => g.stream node ++ " must have at least one child"
  | .translatorChild node => g.stream node ++ " must have a child of type AccessInterface "
  | .translatorWithoutRawProtocol node child =>
    g.stream node ++ " Must be associated with a Raw protocol, while AccessInterface " ++
      g.name child ++ " has a non-raw protocol"
  | .translatorWithoutT2TProtocol node child =>
    g.stream node ++ " Must be associated with a T-2-T protocol, while AccessInterface " ++
      g.name child ++ " has a non T-2-T protocol"
  | .noSelector node => g.stream node ++ " has no path selector"
  | .noSelectablePath node => g.stream node ++ " has a selector that can select no path at all"
  | .singlePath node =>
    g.stream node ++ " has a selector that can select only 1 path (and cannot select none)"
  | .tooFewChildren node count paths =>
    g.stream node ++ " has only " ++ toString count ++ (if count = 1 then " child" else " children") ++
      ", even though it can select " ++ toString paths ++ " paths"
  | .tooManyChildren node count paths =>
    g.stream node ++ " has " ++ toString count ++ (if count = 1 then " child" else " children") ++
      ", even though it can only select " ++ toString paths ++ " paths"
  | .tooManyChannels node count max =>
    g.stream node ++ " has too many children (" ++ toString count ++
      ") ; its protocol supports a maximum of " ++ toString max ++
      " channels (including one 'pseudo channel' reserved for reset action)"
  | .tooFewChannels node count max =>
    g.stream node ++ " has only " ++ toString count ++
      " children even though its protocol supports a maximum of " ++ toString max ++
      " channels (including one 'pseudo channel' reserved for reset action)"
  | .chainRootChild node =>
    g.stream node ++
      ", children of Chain root node must be either AccessInterface or AccessInterfaceTranslator"
  | .chainRootWithoutInterface node =>
    g.stream node ++ " has no AccessInterface or AccessInterfaceTranslator child"
  | .rootType node => g.stream node ++ " is neither an AccessInterface nor a Chain"
  | .noChild node => g.stream node ++ " has no child"
  | .appendedIntoItself node => g.stream node ++ " has been appended into itself"
  | .notManaged node => g.stream node ++ " is not managed by SystemModel"
  | .sameIdentifier node otherNode =>
    g.stream node ++ " has same identifier as " ++ g.stream otherNode ++
      " ==> it is probably not managed by SystemModel"
  | .otherParent child parent otherParent =>
    g.stream child ++ ", child of " ++ g.stream parent ++ ", is also child of " ++
      g.stream otherParent
  | .appendedTwiceInARow child parent =>
    g.stream child ++ " has been appended twice in a row to " ++ g.stream parent
  | .appendedTwice child parent =>
    g.stream child ++ " has been appended twice to " ++ g.stream parent
  | .notSeen node =>
    g.stream node ++ " has not been seen by checker tree traversal (may be unconnected)"

end NodeGraph

end Mast
