import Mast.BinaryVector.Parse
import Mast.Scan.DefaultSelector
import Mast.Sit.Lexer
import Mast.Sit.Printer

/-!
# The parser of SIT texts

The productions of `SIT_Parser.yy` for access interfaces, chains, linkers and registers, as a descent over the tokens with the actions at the places where the generated parser runs them. The other kinds of nodes, PDL declarations, `KeepOpen` and selectors with parameters are not modelled: they end with `notModelled`.

The nodes of a list are counted by the fuel of the descent; a text has more characters than nodes.
-/

namespace Mast

namespace Sit

open BinaryVector (Text decimal)

/-- How parsing ends without a tree. -/
inductive ParseFault
  /-- The error of the generated parser. -/
  | syntaxError
  /-- An error of an action. -/
  | syntaxErrorWith (message : Text)
  /-- An exception that an action lets through. -/
  | thrown (fault : Fault)
  | notModelled
  | outOfFuel
  deriving DecidableEq

/-- The selector of a linker before the top rule resolves it. -/
structure UnresolvedSelector where
  kindName : Text
  registerNames : List Text
  maxDerivations : Nat
  parameters : Text
  deriving DecidableEq

/-- `AccessInterfaceProtocolFactory::Create`: from a creator and its parameters, the kind name of the protocol that is made. -/
abbrev ProtocolFactory := Text → Text → Except Fault Text

/-- The tokens to come, and the names `SIT_Reader` knows, in the order of their declaration. -/
structure Driver where
  tokens : List Token
  declaredRegisters : List (Text × Nat)
  declaredNodes : List Text

abbrev Parser := EStateM ParseFault Driver

namespace Parser

/-! ### Tokens -/

def peek : Parser (Option Token) := return (← get).tokens.head?

def skip : Parser Unit := modify fun driver => { driver with tokens := driver.tokens.tail }

def accept (token : Token) : Parser Bool := do
  if (← peek) = some token then
    skip
    return true
  else return false

def expect (token : Token) : Parser Unit := do
  if (← peek) = some token then skip else throw .syntaxError

/-- Goes on when a condition holds. -/
def require (condition : Prop) [Decidable condition] (fault : ParseFault) : Parser Unit :=
  if condition then pure () else throw fault

def expectWord : Parser Text := do
  match ← peek with
  | some (.word text) => do
    skip
    return text
  | _ => throw .syntaxError

def expectDecimal : Parser Nat := do
  match ← peek with
  | some (.decimalLiteral value) => do
    skip
    return value
  | _ => throw .syntaxError

def expectQuoted : Parser Text := do
  match ← peek with
  | some (.quotedString text) => do
    skip
    return text
  | _ => throw .syntaxError

def removeQuotes (text : Text) : Text := text.filter (· ≠ '"')

def optionalString : Parser Text := do
  match ← peek with
  | some (.quotedString text) => do
    skip
    return removeQuotes text
  | _ => return []

/-! ### Nodes -/

/-- `STREAM_NODE_NAME`. -/
def nodeLabel (kind : String) (name : Text) : Text :=
  kind.toList ++ " node \"".toList ++ name ++ "\" ".toList

/-- A name, and whether it is ignored for node paths. -/
def nodeName : Parser (Text × Bool) := do
  let name ← expectWord
  let isTransparent ← accept (.keyword .transparent)
  return (name, isTransparent)

def createRegister (name : Text) (size : Nat) (hold : Bool) (bypass : Text) :
    Except ParseFault RegisterFields :=
  match BinaryVector.createFromString (removeQuotes bypass) .notFixed .isError with
  | .error fault => .error (.thrown fault)
  | .ok binValue =>
    if binValue.usedBits ≠ size then
      .error (.syntaxErrorWith (nodeLabel "REGISTER" name ++ "size (".toList ++ decimal size ++
        ") does not match Bypass value bit count (".toList ++ decimal binValue.usedBits ++ [')']))
    else .ok ⟨name, { binValue with sizeProperty := .fixed }, hold⟩

def lift {α : Type} (result : Except ParseFault α) : Parser α :=
  match result with
  | .error fault => throw fault
  | .ok a => return a

def registerNode : Parser RegisterFields := do
  expect (.keyword .register)
  let name ← nodeName
  let size ← expectDecimal
  let hold ← accept (.keyword .holdValue)
  expect (.keyword .bypass)
  expect .semicolon
  let bypass ← expectQuoted
  let fields ← lift (createRegister name.1 size hold bypass)
  modify fun driver =>
    { driver with
      declaredRegisters := driver.declaredRegisters ++ [(fields.name, fields.bypassSequence.usedBits)] }
  return fields

/-- The protocol of an access interface; `std::invalid_argument` is caught. -/
def createProtocol (factory : ProtocolFactory) (name protocolName parameters : Text) :
    Except ParseFault Text :=
  match factory protocolName parameters with
  | .ok kindName => .ok kindName
  | .error (.invalidArgument what) =>
    .error (.syntaxErrorWith (nodeLabel "ACCESS_INTERFACE" name ++
      "Cannot create protocol: \"".toList ++ protocolName ++ "\"; ".toList ++ what.toList))
  | .error fault => .error (.thrown fault)

/-- The end of `selector_register_name_list`: names after commas. -/
def moreNames : Nat → Parser (List Text)
  | 0 => throw .outOfFuel
  | fuel + 1 => do
    if ← accept .comma then
      let name ← expectWord
      let names ← moreNames fuel
      return name :: names
    else return []

/-- `selector_register_name_list`, where no name is an empty name. -/
def selectorRegisterNames : Parser (List Text) := do
  let first ← match ← peek with
    | some (.word text) => do
      skip
      pure text
    | _ => pure []
  let names ← moreNames ((← get).tokens.length + 1)
  return first :: names

def accessInterface (factory : ProtocolFactory) : Parser (ParentFields UnresolvedSelector) := do
  expect (.keyword .accessInterface)
  let name ← nodeName
  let protocolName ← expectWord
  let parameters ← optionalString
  let protocol ← lift (createProtocol factory name.1 protocolName parameters)
  return ⟨.accessInterface (some protocol), name.1, name.2⟩

def chain : Parser (ParentFields UnresolvedSelector) := do
  expect (.keyword .chain)
  let name ← nodeName
  return ⟨.chain, name.1, name.2⟩

/-- A linker is made by `CreateLinker`: whatever follows its name, it is ignored for node paths. -/
def linker : Parser (ParentFields UnresolvedSelector) := do
  expect (.keyword .linker)
  let name ← nodeName
  let kindName ← expectWord
  let keepOpen ← accept (.keyword .keepOpen)
  require (keepOpen = false) .notModelled
  let registerNames ← selectorRegisterNames
  let maxDerivations ← expectDecimal
  let parameters ← optionalString
  require (registerNames.head? ≠ some []) (.syntaxErrorWith (nodeLabel "LINKER" name.1 ++
    "Must specify a control node (Register) for its path selector".toList))
  return ⟨.linker ⟨kindName, registerNames, maxDerivations, parameters⟩, name.1, true⟩

def parentNode (factory : ProtocolFactory) : Parser (ParentFields UnresolvedSelector) := do
  match ← peek with
  | some (.keyword .accessInterface) => accessInterface factory
  | some (.keyword .chain) => chain
  | some (.keyword .linker) => linker
  | some (.keyword _) => throw .notModelled
  | _ => throw .syntaxError

/-- `PDL_declaration`, without functions. -/
def pdlDeclaration : Parser Unit := do
  require ((← peek) ≠ some (.keyword .pdl)) .notModelled

/-- The keywords that a node starts with. -/
def startsNode : Token → Bool
  | .keyword keyword =>
    keyword ∈ [.chain, .brocade, .linker, .sib, .mib, .wrapper1500, .accessInterface, .jtagTap,
      .translator, .streamer, .register, .instanceKeyword]
  | _ => false

variable (nodeList : Parser (Nodes UnresolvedSelector))

/-- `children_list`, with whether the children stand in braces. Only round brackets can be empty. -/
def childrenList : Parser (Nodes UnresolvedSelector × Bool) := do
  match ← peek with
  | some .startHierarchy => do
    skip
    let nodes ← nodeList
    require (nodes ≠ .nil) .syntaxError
    expect .endHierarchy
    return (nodes, true)
  | some .leftParenthesis => do
    skip
    let nodes ← nodeList
    expect .rightParenthesis
    return (nodes, false)
  | _ => throw .syntaxError

def brocadeTag : Text := "tmp_BROCADE".toList

/-- The children of a parent node have the brackets of its kind. -/
def checkBrackets (fields : ParentFields UnresolvedSelector) (braces : Bool) : Parser Unit := do
  require (fields.kind = .chain → braces = true) (.syntaxErrorWith ("Node ".toList ++
    fields.name ++ " must be followed by '\x7b', not '('".toList))
  require (braces = true → fields.kind = .chain) (.syntaxErrorWith ("Node ".toList ++
    fields.name ++ " must be followed by '(', not '\x7b'".toList))

/-- A parent node whose name has the tag is replaced by a Brocade multiplexer, which is not modelled. -/
def checkBrocade (fields : ParentFields UnresolvedSelector) : Parser Unit :=
  require (¬brocadeTag <:+: fields.name) .notModelled

def declareNode (name : Text) : Parser Unit :=
  modify fun driver => { driver with declaredNodes := driver.declaredNodes ++ [name] }

def leafNode : Parser (Node UnresolvedSelector) := do
  let fields ← registerNode
  return .register fields

def parentNodeWithChildren (factory : ProtocolFactory) : Parser (Node UnresolvedSelector) := do
  let fields ← parentNode factory
  pdlDeclaration
  let children ← childrenList nodeList
  checkBrackets fields children.2
  checkBrocade fields
  return .parent fields children.1

def node (factory : ProtocolFactory) : Parser (Node UnresolvedSelector) := do
  let result ←
    if (← peek) = some (.keyword .register) then leafNode
    else parentNodeWithChildren nodeList factory
  declareNode result.name
  return result

/-- `node_list`, or nothing where no node starts. -/
def nodeListOf (factory : ProtocolFactory) : Nat → Parser (Nodes UnresolvedSelector)
  | 0 => throw .outOfFuel
  | fuel + 1 => do
    if ((← peek).map startsNode).getD false then
      let first ← node (nodeListOf factory fuel) factory
      let rest ← nodeListOf factory fuel
      return first.before rest
    else return .nil

end Parser

/-! ### Selectors -/

/-- The creators of `m_stdCreators`, with the kind of selector and whether it is made without `CanSelectNone`. -/
def stdCreators : List (Text × DefaultSelector × Bool) :=
  [("Binary".toList, .binary, false), ("Binary_noidle".toList, .binary, true),
    ("One_Hot".toList, .oneHot, false), ("One_Hot_noidle".toList, .oneHot, true),
    ("N_Hot".toList, .nHot, false), ("N_Hot_noidle".toList, .nHot, true)]

/-- `PathSelectorFactory::Create` with properties `None` and a register. -/
def createSelector (creatorId : Text) (pathsCount register bitsCount : Nat) :
    Except Fault Selector :=
  match stdCreators.find? (·.1 = creatorId) with
  | none =>
    .error (.invalidArgument ("There is no \"Standard\" creation method registered with name: " ++
      String.ofList creatorId))
  | some (_, kind, noIdle) => do
    let selector ← kind.create register bitsCount pathsCount ⟨!noIdle, false, false, false⟩
    return ⟨kind, !selector.canSelectNone, selector.selectablePaths, register⟩

namespace Driver

variable (driver : Driver)

/-- The first register declared with a name: its place and its length. -/
def register? (name : Text) : Option (Nat × Nat) :=
  match driver.declaredRegisters.findIdx? (·.1 = name) with
  | none => none
  | some place => (driver.declaredRegisters[place]?).map fun entry => (place, entry.2)

/-- The registers among the nodes that a linker refers to. -/
def linkerRegisters (linkerName : Text) : List Text → Except ParseFault (List (Nat × Nat))
  | [] => .ok []
  | name :: names =>
    match driver.register? name with
    | some register => do
      let registers ← linkerRegisters linkerName names
      return register :: registers
    | none =>
      if name ∈ driver.declaredNodes then linkerRegisters linkerName names
      else
        .error (.syntaxErrorWith (Parser.nodeLabel "LINKER" linkerName ++
          "Error, specified selector node \"".toList ++ name ++ "\" does not exist".toList))

/-- The selector that replaces an unresolved one; the front of an empty vector is undefined. -/
def resolveSelector (linkerName : Text) (selector : UnresolvedSelector) :
    Except ParseFault Selector := do
  match ← driver.linkerRegisters linkerName selector.registerNames with
  | [] => .error (.thrown .undefinedBehaviour)
  | (register, bitsCount) :: _ =>
    if selector.parameters ≠ [] then .error .notModelled
    else
      match createSelector selector.kindName selector.maxDerivations register bitsCount with
      | .error fault => .error (.thrown fault)
      | .ok created => .ok created

def resolveFields (fields : ParentFields UnresolvedSelector) :
    Except ParseFault (ParentFields Selector) :=
  match fields.kind with
  | .accessInterface protocol => .ok ⟨.accessInterface protocol, fields.name, fields.ignoreForNodePath⟩
  | .chain => .ok ⟨.chain, fields.name, fields.ignoreForNodePath⟩
  | .linker selector => do
    let created ← driver.resolveSelector fields.name selector
    return ⟨.linker created, fields.name, fields.ignoreForNodePath⟩

/-- The loop over `unresolved_linkers`, which are in the order of their declaration. -/
def resolve : Nodes UnresolvedSelector → Except ParseFault (Nodes Selector)
  | .nil => .ok .nil
  | .register fields nextSibling => do
    let nextSibling ← resolve nextSibling
    return .register fields nextSibling
  | .parent fields firstChild nextSibling => do
    let fields ← driver.resolveFields fields
    let firstChild ← resolve firstChild
    let nextSibling ← resolve nextSibling
    return .parent fields firstChild nextSibling

def resolveRoot : Node UnresolvedSelector → Except ParseFault (Node Selector)
  | .register fields => .ok (.register fields)
  | .parent fields firstChild => do
    let fields ← driver.resolveFields fields
    let firstChild ← driver.resolve firstChild
    return .parent fields firstChild

end Driver

/-- `root_node`: one node and the end of the text, then the selectors of its linkers. -/
def rootNode (factory : ProtocolFactory) (fuel : Nat) : Parser (Node Selector) := do
  let root ← Parser.node (Parser.nodeListOf factory fuel) factory
  Parser.require ((← Parser.peek) = none) .syntaxError
  Parser.lift ((← get).resolveRoot root)

/-- `ParseExcerpt`. -/
def parse (factory : ProtocolFactory) (excerpt : Text) : Except ParseFault (Node Selector) :=
  if excerpt = [] then .error (.thrown (.invalidArgument "Cannot parse empty string"))
  else
    match (rootNode factory (excerpt.length + 1)).run ⟨lex excerpt, [], []⟩ with
    | .ok root _ => .ok root
    | .error fault _ => .error fault

end Sit

end Mast
