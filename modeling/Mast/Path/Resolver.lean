import Mast.Lib.Memo
import Mast.Lib.Runs
import Mast.Path.Lookup

/-!
# The path resolver

A `NodePathResolver` looks paths up from a prefix node and remembers what it found in two caches. `SetPrefix` empties the caches before it moves the prefix node; the setter of the reference node moves the prefix node too, but keeps the caches. The caches stay transparent exactly as long as the paths they hold are looked up alike from the node that the setter installs.
-/

namespace Mast

open BinaryVector (Text)

structure NodePathResolver where
  referenceNode : Option ParentNode
  prefixNode : Option ParentNode
  nodesCache : Memo.Table Text SystemModelNode
  registersCache : Memo.Table Text RegisterInterface
  pathPrefix : Text
  deriving DecidableEq

namespace NodePathResolver

/-- The check that a prefix node is set, before a lookup from it. -/
def lookUpFrom {α : Type} (node : Option ParentNode) (find : ParentNode → Except Fault (Option α)) :
    Except Fault (Option α) :=
  match node with
  | none => .error (.runtimeError "Resolver has not been initialized with a reference node")
  | some p => find p

/-- What a path denotes from a node, without a cache. -/
def lookUpNode (node : Option ParentNode) (path : Text) : Except Fault (Option SystemModelNode) :=
  lookUpFrom node fun p => .ok (p.findNode path)

/-- What register a path denotes from a node, without a cache. -/
def lookUpRegister (node : Option ParentNode) (path : Text) :
    Except Fault (Option RegisterInterface) :=
  lookUpFrom node fun p => p.findRegister path

/-! ### The member functions -/

def create (referenceNode : Option ParentNode) : NodePathResolver :=
  ⟨referenceNode, referenceNode, [], [], []⟩

/-- The setter `ReferenceNode`. -/
def setReferenceNode (r : NodePathResolver) (referenceNode : Option ParentNode) :
    NodePathResolver :=
  { r with
    referenceNode := referenceNode
    prefixNode := referenceNode
    pathPrefix := [] }

def resolve (r : NodePathResolver) (path : Text) :
    Except Fault (Option SystemModelNode) × NodePathResolver :=
  let (foundNode, nodesCache) := Memo.lookup (lookUpNode r.prefixNode) r.nodesCache path
  (foundNode, { r with nodesCache := nodesCache })

def tryResolveAsRegister (r : NodePathResolver) (registerPath : Text) :
    Except Fault (Option RegisterInterface) × NodePathResolver :=
  let (reg, registersCache) :=
    Memo.lookup (lookUpRegister r.prefixNode) r.registersCache registerPath
  (reg, { r with registersCache := registersCache })

def resolveAsRegister (r : NodePathResolver) (registerPath : Text) :
    Except Fault RegisterInterface × NodePathResolver :=
  let (found, r) := r.tryResolveAsRegister registerPath
  let reg := found.bind fun reg =>
    match reg with
    | none =>
      .error (.invalidArgument
        ("Path: '" ++ String.ofList registerPath ++ "' does not refer to a Register"))
    | some reg => .ok reg
  (reg, r)

/-- The parent node that a prefix denotes from the reference node. -/
def findPrefixNode (referenceNode : Option ParentNode) (path : Text) : Except Fault ParentNode :=
  match referenceNode with
  | none => .error (.runtimeError "Reference node must be set before calling SetPrefix")
  | some p =>
    match p.findNode path with
    | none =>
      .error (.runtimeError
        ("Prefix: '" ++ String.ofList path ++ "' is not valid (cannot find matching node)"))
    | some (.register _ _) =>
      .error (.runtimeError ("Prefix: '" ++ String.ofList path ++ "' must refer to a parent node"))
    | some (.parent node) => .ok node

/-- `SetPrefix`. The caches are emptied first, also when the prefix is then refused. -/
def setPrefix (r : NodePathResolver) (path : Text) : Except Fault Unit × NodePathResolver :=
  let r := { r with nodesCache := [], registersCache := [] }
  if path = [] ∨ path = ".".toList then
    (.ok (), { r with prefixNode := r.referenceNode, pathPrefix := [] })
  else
    match findPrefixNode r.referenceNode path with
    | .error e => (.error e, r)
    | .ok node => (.ok (), { r with prefixNode := some node, pathPrefix := path })

/-! ### Sequences of calls -/

inductive Operation
  | referenceNode (node : Option ParentNode)
  | setPrefix (path : Text)
  | resolve (path : Text)
  | tryResolveAsRegister (path : Text)
  | resolveAsRegister (path : Text)

def after (r : NodePathResolver) : Operation → NodePathResolver
  | .referenceNode node => r.setReferenceNode node
  | .setPrefix path => (r.setPrefix path).2
  | .resolve path => (r.resolve path).2
  | .tryResolveAsRegister path => (r.tryResolveAsRegister path).2
  | .resolveAsRegister path => (r.resolveAsRegister path).2

def run (r : NodePathResolver) (operations : List Operation) : NodePathResolver :=
  operations.foldl after r

/-! ### Transparency -/

/-- Resolving any path now gives what the lookup from the present prefix node gives. -/
def Transparent (r : NodePathResolver) : Prop :=
  ∀ path, (r.resolve path).1 = lookUpNode r.prefixNode path ∧
    (r.tryResolveAsRegister path).1 = lookUpRegister r.prefixNode path

/-- The paths held by the caches are looked up from a node as they are from the present prefix node. -/
def LookedUpAlike (r : NodePathResolver) (node : Option ParentNode) : Prop :=
  (∀ path, Memo.Holds r.nodesCache path → lookUpNode node path = lookUpNode r.prefixNode path) ∧
    ∀ path, Memo.Holds r.registersCache path →
      lookUpRegister node path = lookUpRegister r.prefixNode path

theorem transparent_iff {r : NodePathResolver} :
    r.Transparent ↔ Memo.Agrees (lookUpNode r.prefixNode) r.nodesCache ∧
      Memo.Agrees (lookUpRegister r.prefixNode) r.registersCache := by
  rw [Memo.agrees_iff, Memo.agrees_iff]
  exact forall_and

theorem transparent_of_empty {r : NodePathResolver} (hnodes : r.nodesCache = [])
    (hregisters : r.registersCache = []) : r.Transparent := by
  rw [transparent_iff, hnodes, hregisters]
  exact ⟨Memo.agrees_nil, Memo.agrees_nil⟩

theorem create_transparent (node : Option ParentNode) : (create node).Transparent :=
  transparent_of_empty rfl rfl

theorem setPrefix_empties (r : NodePathResolver) (path : Text) :
    (r.setPrefix path).2.nodesCache = [] ∧ (r.setPrefix path).2.registersCache = [] := by
  simp only [setPrefix]
  split
  · exact ⟨rfl, rfl⟩
  · cases findPrefixNode r.referenceNode path <;> exact ⟨rfl, rfl⟩

theorem setPrefix_transparent (r : NodePathResolver) (path : Text) :
    (r.setPrefix path).2.Transparent :=
  transparent_of_empty (setPrefix_empties r path).1 (setPrefix_empties r path).2

theorem resolve_transparent {r : NodePathResolver} (hr : r.Transparent) (path : Text) :
    (r.resolve path).2.Transparent := by
  have ⟨hnodes, hregisters⟩ := transparent_iff.mp hr
  exact transparent_iff.mpr ⟨hnodes.lookup path, hregisters⟩

theorem tryResolveAsRegister_transparent {r : NodePathResolver} (hr : r.Transparent)
    (path : Text) : (r.tryResolveAsRegister path).2.Transparent := by
  have ⟨hnodes, hregisters⟩ := transparent_iff.mp hr
  exact transparent_iff.mpr ⟨hnodes, hregisters.lookup path⟩

/-- The setter of the reference node is the one call that can make the caches wrong. -/
theorem setReferenceNode_transparent_iff {r : NodePathResolver} (hr : r.Transparent)
    (node : Option ParentNode) :
    (r.setReferenceNode node).Transparent ↔ r.LookedUpAlike node := by
  have ⟨hnodes, hregisters⟩ := transparent_iff.mp hr
  rw [transparent_iff]
  exact and_congr hnodes.congr_iff hregisters.congr_iff

/-- What a call must meet to keep the caches transparent. -/
def Safe (r : NodePathResolver) : Operation → Prop
  | .referenceNode node => r.LookedUpAlike node
  | _ => True

theorem after_transparent_iff (r : NodePathResolver) (operation : Operation) (hr : r.Transparent) :
    (r.after operation).Transparent ↔ r.Safe operation := by
  cases operation with
  | referenceNode node => exact setReferenceNode_transparent_iff hr node
  | setPrefix path => exact iff_true_intro (setPrefix_transparent r path)
  | resolve path => exact iff_true_intro (resolve_transparent hr path)
  | tryResolveAsRegister path => exact iff_true_intro (tryResolveAsRegister_transparent hr path)
  | resolveAsRegister path => exact iff_true_intro (tryResolveAsRegister_transparent hr path)

/-- In a sequence of calls on a new resolver, resolving gives what an uncached lookup gives after every call, exactly if each call of the setter of the reference node installs a node from which the paths in the caches are looked up as from the prefix node before the call. -/
theorem caches_transparent_iff (node : Option ParentNode) (operations : List Operation) :
    (∀ before, before <+: operations → ((create node).run before).Transparent) ↔
      ∀ before node', before ++ [.referenceNode node'] <+: operations →
        ((create node).run before).LookedUpAlike node' := by
  rw [show (∀ before, before <+: operations → ((create node).run before).Transparent) ↔
      ∀ before operation, before ++ [operation] <+: operations →
        ((create node).run before).Safe operation from
    Runs.forall_foldl_iff after_transparent_iff (create_transparent node) operations]
  constructor
  · intro hsafe before node' hprefix
    exact hsafe before _ hprefix
  · intro halike before operation hprefix
    cases operation with
    | referenceNode node' => exact halike before node' hprefix
    | _ => trivial

/-! ### A stale entry -/

def reg : Text := "reg".toList

/-- A chain with one register, named `reg`. -/
def instrument (id : Nat) (name : Text) : ParentNode :=
  ⟨⟨id, name, false, []⟩, .register (id + 1) reg .none⟩

def left : ParentNode := instrument 1 "left".toList
def right : ParentNode := instrument 3 "right".toList

/-- The chain of the two instruments. -/
def top : ParentNode :=
  ⟨⟨0, "top".toList, false, []⟩,
    .parent left.toParentFields left.firstChild (.parent right.toParentFields right.firstChild .none)⟩

theorem instrument_findNode (id : Nat) (name : Text) :
    (instrument id name).findNode reg = some (.register (id + 1) reg) := by
  simp [ParentNode.findNode, NodeSearch.visitParents, NodeSearch.visitSiblings, instrument,
    NodeSearch.nextChunk, PathReader.extractNextChunk, reg]

/-- The path `reg` is resolved from the left instrument; then the right one becomes the reference node. -/
theorem caches_stale :
    ¬∀ before, before <+: [.referenceNode (some left), .resolve reg, .referenceNode (some right)] →
      ((create (some top)).run before).Transparent := by
  intro hall
  have htransparent := hall _ (List.prefix_refl _)
  have hcached : List.lookup reg ((create (some top)).run
      [.referenceNode (some left), .resolve reg, .referenceNode (some right)]).nodesCache =
        some (.register 2 reg) := by
    simp only [run, List.foldl, after, setReferenceNode, resolve, create, Memo.lookup,
      List.lookup, lookUpNode, lookUpFrom, left, instrument_findNode, BEq.rfl]
  have hfound := (transparent_iff.mp htransparent).1 _ _ hcached
  have hright : lookUpNode (some right) reg = .ok (some (.register 4 reg)) :=
    congrArg Except.ok (instrument_findNode 3 _)
  cases hright.symm.trans hfound

end NodePathResolver

end Mast
