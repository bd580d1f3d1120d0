import Mast.BinaryVector.Print
import Mast.Scan.PathSelector

/-!
# Looking nodes up by path

The named nodes of a system model and the searches of `ParentNode`. A path is a sequence of names separated by dots, relative to a parent node; the parent nodes that are ignored in paths are transparent. `findNode` is a search with a work list, and terminates because each round takes one parent node off the list and puts only nodes below it there.
-/

namespace Mast

open BinaryVector (Text)

/-- A named virtual register; the constructor of the source checks both fields. -/
structure RegistersAlias where
  name : Text
  aliasedRegisters : VirtualRegister
  name_ne : name ≠ []
  aliasedRegisters_ne : aliasedRegisters ≠ []
  deriving DecidableEq

structure ParentFields where
  id : Nat
  name : Text
  ignoreForNodePath : Bool
  aliases : List RegistersAlias
  deriving DecidableEq

/-- The nodes of a list of siblings, each parent node with the list of its children. -/
inductive Siblings
  | none
  | register (id : Nat) (name : Text) (next : Siblings)
  | parent (fields : ParentFields) (firstChild next : Siblings)
  deriving DecidableEq

structure ParentNode extends ParentFields where
  firstChild : Siblings
  deriving DecidableEq

inductive SystemModelNode
  | register (id : Nat) (name : Text)
  | parent (node : ParentNode)
  deriving DecidableEq

/-- A register, or the virtual register of an alias of a parent node. -/
inductive RegisterInterface
  | register (id : Nat) (name : Text)
  | ofAlias (parent : Nat) (registers : RegistersAlias)
  deriving DecidableEq

def Siblings.size : Siblings → Nat
  | .none => 0
  | .register _ _ next => 1 + next.size
  | .parent _ firstChild next => 1 + firstChild.size + next.size

def ParentNode.size (p : ParentNode) : Nat := 1 + p.firstChild.size

/-! ### Chunks of a path -/

structure PathReader where
  rest : Text
  notValidPath : Bool
  deriving DecidableEq

/-- `extractNextChunk` of `FindNode`. At the end of the path the chunk is empty. -/
def PathReader.extractNextChunk (reader : PathReader) : Text × PathReader :=
  match reader.rest with
  | [] => ([], reader)
  | '.' :: _ => ("<<< Not valid path ! >>>".toList, ⟨[], true⟩)
  | rest => (rest.takeWhile (· ≠ '.'), ⟨(rest.dropWhile (· ≠ '.')).drop 1, reader.notValidPath⟩)

/-! ### Finding a node -/

/-- The variables of the search loops of `FindNode`. -/
structure NodeSearch where
  currentPathChunk : Text
  reader : PathReader
  parentsToProcess : List ParentNode
  deriving DecidableEq

namespace NodeSearch

def nextChunk (s : NodeSearch) : NodeSearch :=
  { s with
    currentPathChunk := s.reader.extractNextChunk.1
    reader := s.reader.extractNextChunk.2 }

/-- The loop over siblings. The path is found not to be valid only by a match, after which the loop ends. -/
def visitSiblings : Siblings → NodeSearch → Option SystemModelNode × NodeSearch
  | .none, s => (none, s)
  | .register id name next, s =>
    if name = s.currentPathChunk then
      if s.nextChunk.currentPathChunk = [] then (some (.register id name), s.nextChunk)
      else (none, { s.nextChunk with parentsToProcess := [] })
    else visitSiblings next s
  | .parent fields firstChild next, s =>
    if fields.ignoreForNodePath then
      visitSiblings next { s with parentsToProcess := s.parentsToProcess ++ [⟨fields, firstChild⟩] }
    else if fields.name = s.currentPathChunk then
      if s.nextChunk.currentPathChunk = [] then (some (.parent ⟨fields, firstChild⟩), s.nextChunk)
      else (none, { s.nextChunk with parentsToProcess := [⟨fields, firstChild⟩] })
    else visitSiblings next s

def work (s : NodeSearch) : Nat := (s.parentsToProcess.map ParentNode.size).sum

theorem visitSiblings_work (siblings : Siblings) (s : NodeSearch) :
    (visitSiblings siblings s).2.work ≤ s.work + siblings.size := by
  induction siblings generalizing s with
  | none => simp [visitSiblings]
  | register id name next ih =>
    rw [visitSiblings, Siblings.size]
    have hnext := ih s
    split_ifs <;> simp [work, nextChunk] at hnext ⊢
    omega
  | parent fields firstChild next _ ih =>
    rw [visitSiblings, Siblings.size]
    split_ifs
    · have hnext := ih { s with parentsToProcess := s.parentsToProcess ++ [⟨fields, firstChild⟩] }
      simp [work, ParentNode.size] at hnext ⊢
      omega
    · simp [work, nextChunk]
    · simp [work, ParentNode.size]
      omega
    · have hnext := ih s
      omega

/-- The loop over parent nodes, from the next one on. -/
def visitParents (nextParent : ParentNode) (s : NodeSearch) : Option SystemModelNode × NodeSearch :=
  if s.reader.notValidPath then (none, s)
  else
    match _hvisit : visitSiblings nextParent.firstChild s with
    | (some foundNode, s') => (some foundNode, s')
    | (none, s') =>
      match _hparents : s'.parentsToProcess with
      | [] => (none, s')
      | front :: parents => visitParents front { s' with parentsToProcess := parents }
termination_by nextParent.size + s.work
decreasing_by
  have hwork := visitSiblings_work nextParent.firstChild s
  rw [_hvisit] at hwork
  simp only [work, _hparents, List.map_cons, List.sum_cons, ParentNode.size] at hwork ⊢
  omega

end NodeSearch

/-- `FindNode`: the node with a path relative to the parent node. -/
def ParentNode.findNode (p : ParentNode) (path : Text) : Option SystemModelNode :=
  if path = ".".toList then some (.parent p)
  else
    let start : NodeSearch := ⟨[], ⟨path, false⟩, []⟩
    let (foundNode, s) := start.nextChunk.visitParents p
    if s.reader.notValidPath then none else foundNode

/-! ### Finding a register -/

namespace Utility

/-- `BackToken`: the text after the last separator. -/
def backToken (text : Text) (separator : Char) : Text :=
  (text.reverse.takeWhile (· ≠ separator)).reverse

/-- `FrontTokens`: the text before the last separator, or the whole text when there is none. -/
def frontTokens (text : Text) (separator : Char) : Text :=
  if separator ∈ text then ((text.reverse.dropWhile (· ≠ separator)).drop 1).reverse else text

end Utility

/-- `AliasRepository::FindRegister`, of the aliases of a parent node. -/
def ParentFields.findAlias (fields : ParentFields) (name : Text) : Option RegisterInterface :=
  (fields.aliases.find? (·.name = name)).map (.ofAlias fields.id)

def Siblings.directRegister (name : Text) : Siblings → Option RegisterInterface
  | .none => Option.none
  | .register id name' next =>
    if name' = name then some (.register id name') else next.directRegister name
  | .parent _ _ next => next.directRegister name

/-- The register with a name that is found within the siblings that are ignored in paths. Each of them is searched as a parent node is: its aliases, its direct children, then what is within its own ignored children. -/
def Siblings.ignoredRegister (name : Text) : Siblings → Option RegisterInterface
  | .none => Option.none
  | .register _ _ next => next.ignoredRegister name
  | .parent fields firstChild next =>
    if fields.ignoreForNodePath then
      ((fields.findAlias name).or
        ((firstChild.directRegister name).or (firstChild.ignoredRegister name))).or
          (next.ignoredRegister name)
    else next.ignoredRegister name

namespace ParentNode

/-- `findRegisterChildByName` of `FindRegister`. -/
def findRegisterChildByName (p : ParentNode) (name : Text) : Option RegisterInterface :=
  (p.findAlias name).or ((p.firstChild.directRegister name).or (p.firstChild.ignoredRegister name))

/-- `FindRegister`: the register or the alias with a path relative to the parent node. -/
def findRegister (p : ParentNode) (path : Text) : Except Fault (Option RegisterInterface) :=
  let frontTokens := Utility.frontTokens path '.'
  let registerOrAliasName := Utility.backToken path '.'
  let parentPath := if frontTokens.length = path.length then [] else frontTokens
  if registerOrAliasName = [] then
    .error (.invalidArgument "Cannot find register with empty name")
  else if parentPath = [] then .ok (p.findRegisterChildByName registerOrAliasName)
  else
    match p.findNode parentPath with
    | some (.parent parentNode) => .ok (parentNode.findRegisterChildByName registerOrAliasName)
    | _ => .ok none

end ParentNode

end Mast
