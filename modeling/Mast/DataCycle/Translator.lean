import Mast.Lib.Runs
import Mathlib.Data.List.Basic
import Mathlib.Data.List.Nodup
import Mathlib.Logic.Function.Basic

/-!
# A translator and its interfaces

The visit of a translator launches one thread for each child and serves the requests of the children until the child that was launched last has no more. Requests and results travel through two queues for each registered interface. The visitor and the threads take their steps in any order; what a thread does between two requests is not seen by the others.
-/

namespace Mast

namespace AccessInterfaceTranslator

variable {δ ρ π : Type}

/-! ### Requests -/

/-- A request: the identifier of its callback, and the data that only the protocols read. -/
structure RVFRequest (δ : Type) where
  callbackId : String
  data : Option δ

def noMorePendingId : String := "AI_FINISHED"

def haltRequestId : String := "HALT_REQUEST"

def isServiceCallback (callbackId : String) : Bool :=
  callbackId == noMorePendingId || callbackId == haltRequestId

def noMorePending : RVFRequest δ := ⟨noMorePendingId, none⟩

/-- What the thread of a child will ask for: each request may depend on the results before it. -/
inductive Requests (δ ρ : Type) where
  | none
  | ask (request : RVFRequest δ) (hservice : isServiceCallback request.callbackId = false)
      (next : ρ → Requests δ ρ)

/-- The protocol of a translator; `π` is what its callbacks read and change. -/
structure TranslatorProtocol (δ ρ π : Type) where
  transformationCallback : π → RVFRequest δ → ρ × π
  isT2E : Bool

/-! ### Registered interfaces -/

/-- The children in sibling order, the number of interfaces that have queues, and the position of the queues that the protocol of a child uses. -/
structure Translator where
  children : List Nat
  distinct : children.Nodup
  interfaces : Nat
  queueOf : Nat → Nat

namespace Translator

def registerInterface (t : Translator) (child : Nat) : Translator :=
  { t with
    interfaces := t.interfaces + 1
    queueOf := Function.update t.queueOf child t.interfaces }

/-- A translator whose children are appended and then registered, from the first to the last. -/
def ofChildren (children : List Nat) (distinct : children.Nodup) : Translator :=
  children.foldl registerInterface ⟨children, distinct, 0, fun _ => 0⟩

end Translator

/-! ### The state of a visit -/

inductive Phase (δ ρ : Type) where
  | notLaunched (requests : Requests δ ρ)
  | running (requests : Requests δ ρ)
  | waiting (next : ρ → Requests δ ρ)
  | ended

/-- A child, with what its thread has asked for and the results it has popped. -/
structure Child (δ ρ : Type) where
  phase : Phase δ ρ
  asked : List (RVFRequest δ)
  received : List ρ

/-- Where the visitor is: `popping n` is about to pop from the `n`-th queue. -/
inductive Visitor (δ ρ : Type) where
  | entering
  | launching
  | popping (nInterface : Nat)
  | popped (request : RVFRequest δ)
  | translated (result : ρ)
  | leaving
  | returned
  | halted

structure State (δ ρ π : Type) where
  runLoop : Bool
  pending : Bool
  busy : Bool
  visitor : Visitor δ ρ
  curNode : List Nat
  curInterface : Nat
  child : Nat → Child δ ρ
  callbackQueue : Nat → List (RVFRequest δ)
  fromSutQueue : Nat → List ρ
  protocol : π
  translations : List (RVFRequest δ × ρ)

def start (t : Translator) (requests : Nat → Requests δ ρ) (protocol : π) : State δ ρ π where
  runLoop := true
  pending := true
  busy := false
  visitor := .entering
  curNode := t.children
  curInterface := 0
  child id := ⟨.notLaunched (requests id), [], []⟩
  callbackQueue _ := []
  fromSutQueue _ := []
  protocol := protocol
  translations := []

namespace State

def setChild (s : State δ ρ π) (id : Nat) (child : Child δ ρ) : State δ ρ π :=
  { s with child := Function.update s.child id child }

def setCallbackQueue (s : State δ ρ π) (n : Nat) (queue : List (RVFRequest δ)) : State δ ρ π :=
  { s with callbackQueue := Function.update s.callbackQueue n queue }

def setFromSutQueue (s : State δ ρ π) (n : Nat) (queue : List ρ) : State δ ρ π :=
  { s with fromSutQueue := Function.update s.fromSutQueue n queue }

/-- `PushRequest`, by the protocol of a child. -/
def pushRequest (t : Translator) (s : State δ ρ π) (id : Nat) (request : RVFRequest δ) :
    State δ ρ π :=
  s.setCallbackQueue (t.queueOf id) (s.callbackQueue (t.queueOf id) ++ [request])

def pushFromSut (s : State δ ρ π) (result : ρ) (nInterface : Nat) : State δ ρ π :=
  s.setFromSutQueue nInterface (s.fromSutQueue nInterface ++ [result])

/-! ### Steps -/

/-- The next step of the thread of a child: nothing as long as it waits for a result. -/
def threadStep (t : Translator) (s : State δ ρ π) (id : Nat) : Option (State δ ρ π) :=
  match (s.child id).phase with
  | .notLaunched _ => none
  | .running (.ask request _ next) =>
    some ((s.pushRequest t id request).setChild id
      ⟨.waiting next, (s.child id).asked ++ [request], (s.child id).received⟩)
  | .running .none =>
    some ((s.pushRequest t id noMorePending).setChild id
      ⟨.ended, (s.child id).asked, (s.child id).received⟩)
  | .waiting next =>
    match s.fromSutQueue (t.queueOf id) with
    | [] => none
    | result :: queue =>
      some ((s.setFromSutQueue (t.queueOf id) queue).setChild id
        ⟨.running (next result), (s.child id).asked, (s.child id).received ++ [result]⟩)
  | .ended => none

def launch (s : State δ ρ π) (id : Nat) : State δ ρ π :=
  match (s.child id).phase with
  | .notLaunched requests =>
    s.setChild id ⟨.running requests, (s.child id).asked, (s.child id).received⟩
  | _ => s

/-- What the visitor does with a request that has been popped. -/
def serve (p : TranslatorProtocol δ ρ π) (s : State δ ρ π) (request : RVFRequest δ) :
    State δ ρ π :=
  if request.callbackId = haltRequestId then { s with visitor := .halted }
  else if request.callbackId = noMorePendingId then
    { s with
      curNode := s.curNode.tail
      curInterface := s.curInterface + 1
      visitor := if s.curNode.tail.isEmpty then .leaving else .launching }
  else
    { s with
      busy := true
      protocol := (p.transformationCallback s.protocol request).2
      translations := s.translations ++ [(request, (p.transformationCallback s.protocol request).1)]
      visitor := .translated (p.transformationCallback s.protocol request).1 }

/-- The next step of the visitor: nothing as long as the queue it pops from is empty. -/
def visitorStep (p : TranslatorProtocol δ ρ π) (s : State δ ρ π) : Option (State δ ρ π) :=
  match s.visitor with
  | .entering =>
    some { s with visitor := if s.runLoop && !s.busy && s.pending then .launching else .returned }
  | .launching =>
    match s.curNode with
    | [] => none
    | id :: _ => some { s.launch id with visitor := .popping 0 }
  | .popping n =>
    if s.runLoop then
      match s.callbackQueue n with
      | [] => none
      | request :: queue => some { s.setCallbackQueue n queue with visitor := .popped request }
    else some { s with visitor := .popped noMorePending }
  | .popped request => some (s.serve p (if s.runLoop then request else noMorePending))
  | .translated result =>
    some { s.pushFromSut result s.curInterface with busy := false, visitor := .popping 0 }
  | .leaving =>
    some { s with
      protocol :=
        if p.isT2E then (p.transformationCallback s.protocol noMorePending).2 else s.protocol
      visitor := .returned }
  | .returned | .halted => none

/-- A pop that times out, also when a request has arrived in the meantime. -/
def timeoutStep (t : Translator) (s : State δ ρ π) : Option (State δ ρ π) :=
  match s.visitor with
  | .popping n => some { s with visitor := .popping ((n + 1) % t.interfaces) }
  | _ => none

end State

/-- Who takes the next step; `stop` clears the manager's run flag. -/
inductive Party where
  | visitor
  | timeout
  | thread (id : Nat)
  | stop
deriving DecidableEq

def next (p : TranslatorProtocol δ ρ π) (t : Translator) (s : State δ ρ π) :
    Party → Option (State δ ρ π)
  | .visitor => s.visitorStep p
  | .timeout => s.timeoutStep t
  | .thread id => if id ∈ t.children then s.threadStep t id else none
  | .stop => some { s with runLoop := false }

def Step (p : TranslatorProtocol δ ρ π) (t : Translator) (s : State δ ρ π) (party : Party)
    (s' : State δ ρ π) : Prop :=
  next p t s party = some s'

end AccessInterfaceTranslator

end Mast
