import Mast.DataCycle.Translator

/-!
# One child is served at a time

While the visitor serves a child, only the thread of that child takes steps: the threads of the children before it have ended with nothing left in their queues, those after it have not been launched. What the visitor and the thread of the child do in turns is an exchange; it goes through a few stages, and every step leads from one stage to another.
-/

namespace Mast

namespace AccessInterfaceTranslator

open Runs

variable {δ ρ π : Type}

/-! ### The sequential service -/

/-- The calls that serve the requests of one child, and what the protocol holds after them. -/
def Requests.serve (p : TranslatorProtocol δ ρ π) :
    Requests δ ρ → π → List (RVFRequest δ × ρ) × π
  | .none, protocol => ([], protocol)
  | .ask request _ next, protocol =>
    let called := p.transformationCallback protocol request
    let after := (next called.1).serve p called.2
    ((request, called.1) :: after.1, after.2)

def serveAll (p : TranslatorProtocol δ ρ π) :
    List (Requests δ ρ) → π → List (RVFRequest δ × ρ) × π
  | [], protocol => ([], protocol)
  | requests :: rest, protocol =>
    let first := requests.serve p protocol
    let others := serveAll p rest first.2
    (first.1 ++ others.1, others.2)

theorem serveAll_none (p : TranslatorProtocol δ ρ π) (rest : List (Requests δ ρ)) (protocol : π) :
    serveAll p (.none :: rest) protocol = serveAll p rest protocol := rfl

theorem serveAll_ask (p : TranslatorProtocol δ ρ π) (request : RVFRequest δ)
    (hservice : isServiceCallback request.callbackId = false) (next : ρ → Requests δ ρ)
    (rest : List (Requests δ ρ)) (protocol : π) :
    serveAll p (.ask request hservice next :: rest) protocol =
      (let called := p.transformationCallback protocol request
       let after := serveAll p (next called.1 :: rest) called.2
       ((request, called.1) :: after.1, after.2)) := rfl

theorem Requests.serve_calls (p : TranslatorProtocol δ ρ π) (requests : Requests δ ρ)
    (protocol : π) : ∀ call ∈ (requests.serve p protocol).1,
      ∃ held, (p.transformationCallback held call.1).1 = call.2 := by
  induction requests generalizing protocol with
  | none => intro call hcall; cases hcall
  | ask request hservice next ih =>
    intro call hcall
    rcases List.mem_cons.mp hcall with rfl | hcall
    · exact ⟨protocol, rfl⟩
    · exact ih _ _ call hcall

theorem serveAll_calls (p : TranslatorProtocol δ ρ π) (all : List (Requests δ ρ)) (protocol : π) :
    ∀ call ∈ (serveAll p all protocol).1,
      ∃ held, (p.transformationCallback held call.1).1 = call.2 := by
  induction all generalizing protocol with
  | nil => intro call hcall; cases hcall
  | cons requests rest ih =>
    intro call hcall
    rcases List.mem_append.mp hcall with hcall | hcall
    · exact requests.serve_calls p protocol call hcall
    · exact ih _ call hcall

/-! ### Registration -/

/-- The `i`-th child uses the `i`-th pair of queues. -/
structure Translator.Registered (t : Translator) : Prop where
  interfaces : t.interfaces = t.children.length
  queueOf : ∀ done id rest, t.children = done ++ id :: rest → t.queueOf id = done.length

theorem Translator.foldl_children (t : Translator) (ids : List Nat) :
    (ids.foldl registerInterface t).children = t.children := by
  induction ids generalizing t with
  | nil => rfl
  | cons id ids ih => exact ih _

theorem Translator.foldl_interfaces (t : Translator) (ids : List Nat) :
    (ids.foldl registerInterface t).interfaces = t.interfaces + ids.length := by
  induction ids generalizing t with
  | nil => rfl
  | cons id ids ih =>
    have hfirst : (t.registerInterface id).interfaces = t.interfaces + 1 := rfl
    rw [List.foldl_cons, ih, hfirst, List.length_cons]
    omega

theorem Translator.registerInterface_queueOf (t : Translator) (id : Nat) :
    (t.registerInterface id).queueOf id = t.interfaces := Function.update_self _ _ _

theorem Translator.foldl_queueOf_other (t : Translator) {ids : List Nat} {id : Nat}
    (hid : id ∉ ids) : (ids.foldl registerInterface t).queueOf id = t.queueOf id := by
  induction ids generalizing t with
  | nil => rfl
  | cons first ids ih =>
    have hfirst : id ≠ first := fun h => hid (h ▸ List.mem_cons_self)
    rw [List.foldl_cons, ih _ fun h => hid (List.mem_cons_of_mem _ h)]
    exact Function.update_of_ne hfirst _ _

theorem Translator.ofChildren_registered (children : List Nat) (distinct : children.Nodup) :
    (ofChildren children distinct).Registered where
  interfaces := by
    rw [ofChildren, foldl_interfaces, foldl_children]
    exact Nat.zero_add _
  queueOf := by
    intro done id rest hchildren
    rw [ofChildren, foldl_children] at hchildren
    change children = _ at hchildren
    subst hchildren
    have hlast : id ∉ rest := by
      have htail := (List.nodup_append.mp distinct).2.1
      exact (List.nodup_cons.mp htail).1
    rw [ofChildren, List.foldl_append, List.foldl_cons, foldl_queueOf_other _ hlast,
      registerInterface_queueOf, foldl_interfaces]
    exact Nat.zero_add _

/-! ### The stages of an exchange -/

theorem ne_of_not_service {callbackId : String} (hservice : isServiceCallback callbackId = false) :
    callbackId ≠ noMorePendingId ∧ callbackId ≠ haltRequestId := by
  simpa [isServiceCallback] using hservice

theorem State.serve_noMorePending (p : TranslatorProtocol δ ρ π) (s : State δ ρ π) :
    s.serve p noMorePending = { s with
      curNode := s.curNode.tail
      curInterface := s.curInterface + 1
      visitor := if s.curNode.tail.isEmpty then .leaving else .launching } := by
  have hhalt : (noMorePending : RVFRequest δ).callbackId ≠ haltRequestId := by
    change noMorePendingId ≠ haltRequestId
    decide +kernel
  have hpending : (noMorePending : RVFRequest δ).callbackId = noMorePendingId := rfl
  rw [serve, if_neg hhalt, if_pos hpending]

theorem State.serve_request (p : TranslatorProtocol δ ρ π) (s : State δ ρ π)
    {request : RVFRequest δ} (hservice : isServiceCallback request.callbackId = false) :
    s.serve p request = { s with
      busy := true
      protocol := (p.transformationCallback s.protocol request).2
      translations := s.translations ++ [(request, (p.transformationCallback s.protocol request).1)]
      visitor := .translated (p.transformationCallback s.protocol request).1 } := by
  obtain ⟨hpending, hhalt⟩ := ne_of_not_service hservice
  rw [serve, if_neg hhalt, if_neg hpending]

theorem State.visitorStep_popping (p : TranslatorProtocol δ ρ π) {s : State δ ρ π} {n : Nat}
    {request : RVFRequest δ} {queue : List (RVFRequest δ)} (hvisitor : s.visitor = .popping n)
    (hrun : s.runLoop = true) (hqueue : s.callbackQueue n = request :: queue) :
    s.visitorStep p = some { s.setCallbackQueue n queue with visitor := .popped request } := by
  simp only [visitorStep, hvisitor, hrun, if_true, hqueue]

theorem State.visitorStep_popped (p : TranslatorProtocol δ ρ π) {s : State δ ρ π}
    {request : RVFRequest δ} (hvisitor : s.visitor = .popped request)
    (hrun : s.runLoop = true) : s.visitorStep p = some (s.serve p request) := by
  rw [visitorStep, hvisitor, hrun]
  rfl

inductive Stage where
  | entering | launching | running | requested | popped | translated | answered | ended | released

/-- How many steps are left, at most, until a call is made or the next child is served. -/
def Stage.rank : Stage → Nat
  | .entering => 7
  | .launching => 6
  | .translated => 5
  | .answered => 4
  | .running => 3
  | .requested | .ended => 2
  | .popped | .released => 1

/-- The stages of the exchange between the visitor and the thread it serves: what each of the two holds, what is in the two queues between them, the calls made for the child so far, and the requests for which no call has been made. -/
inductive Exchange : Stage → Visitor δ ρ → (busy : Bool) → Child δ ρ → List (RVFRequest δ) →
    List ρ → (calls : List (RVFRequest δ × ρ)) → (remaining : Requests δ ρ) → Prop where
  | entering (requests : Requests δ ρ) :
    Exchange .entering .entering false ⟨.notLaunched requests, [], []⟩ [] [] [] requests
  | launching (requests : Requests δ ρ) :
    Exchange .launching .launching false ⟨.notLaunched requests, [], []⟩ [] [] [] requests
  | running (n : Nat) (requests : Requests δ ρ) (asked : List (RVFRequest δ)) (received : List ρ)
      (hsame : asked.length = received.length) :
    Exchange .running (.popping n) false ⟨.running requests, asked, received⟩ [] []
      (asked.zip received) requests
  | requested (n : Nat) (request : RVFRequest δ)
      (hservice : isServiceCallback request.callbackId = false) (next : ρ → Requests δ ρ)
      (asked : List (RVFRequest δ)) (received : List ρ) (hsame : asked.length = received.length) :
    Exchange .requested (.popping n) false ⟨.waiting next, asked ++ [request], received⟩ [request] []
      (asked.zip received) (.ask request hservice next)
  | popped (request : RVFRequest δ) (hservice : isServiceCallback request.callbackId = false)
      (next : ρ → Requests δ ρ) (asked : List (RVFRequest δ)) (received : List ρ)
      (hsame : asked.length = received.length) :
    Exchange .popped (.popped request) false ⟨.waiting next, asked ++ [request], received⟩ [] []
      (asked.zip received) (.ask request hservice next)
  | translated (request : RVFRequest δ) (result : ρ) (next : ρ → Requests δ ρ)
      (asked : List (RVFRequest δ)) (received : List ρ) (hsame : asked.length = received.length) :
    Exchange .translated (.translated result) true ⟨.waiting next, asked ++ [request], received⟩ [] []
      (asked.zip received ++ [(request, result)]) (next result)
  | answered (n : Nat) (request : RVFRequest δ) (result : ρ) (next : ρ → Requests δ ρ)
      (asked : List (RVFRequest δ)) (received : List ρ) (hsame : asked.length = received.length) :
    Exchange .answered (.popping n) false ⟨.waiting next, asked ++ [request], received⟩ [] [result]
      (asked.zip received ++ [(request, result)]) (next result)
  | ended (n : Nat) (asked : List (RVFRequest δ)) (received : List ρ)
      (hsame : asked.length = received.length) :
    Exchange .ended (.popping n) false ⟨.ended, asked, received⟩ [noMorePending] []
      (asked.zip received) .none
  | released (asked : List (RVFRequest δ)) (received : List ρ)
      (hsame : asked.length = received.length) :
    Exchange .released (.popped noMorePending) false ⟨.ended, asked, received⟩ [] []
      (asked.zip received) .none

/-- The queue that the visitor is about to pop from is of no matter. -/
theorem Exchange.popping {stage : Stage} {n : Nat} {busy : Bool} {child : Child δ ρ}
    {callbackQueue : List (RVFRequest δ)} {fromSutQueue : List ρ}
    {calls : List (RVFRequest δ × ρ)} {remaining : Requests δ ρ}
    (h : Exchange stage (.popping n) busy child callbackQueue fromSutQueue calls remaining) (n' : Nat) :
    Exchange stage (.popping n') busy child callbackQueue fromSutQueue calls remaining := by
  cases h with
  | running _ requests asked received hsame => exact .running n' _ _ _ hsame
  | requested _ request hservice next asked received hsame => exact .requested n' _ _ _ _ _ hsame
  | answered _ request result next asked received hsame => exact .answered n' _ _ _ _ _ hsame
  | ended _ asked received hsame => exact .ended n' _ _ hsame

/-- The requests of a child, each with its result. -/
def Child.exchanged (child : Child δ ρ) : List (RVFRequest δ × ρ) := child.asked.zip child.received

/-- A thread that has ended and has popped a result for each of its requests. -/
structure Child.Served (child : Child δ ρ) : Prop where
  phase : child.phase = .ended
  results : child.asked.length = child.received.length

/-! ### What a step leaves as it is -/

/-- Nothing has changed but what the visitor holds, one child, its pair of queues, and the protocol. -/
structure SameBeside (cur n : Nat) (s s' : State δ ρ π) : Prop where
  runLoop : s'.runLoop = s.runLoop
  pending : s'.pending = s.pending
  curNode : s'.curNode = s.curNode
  curInterface : s'.curInterface = s.curInterface
  child : ∀ id, id ≠ cur → s'.child id = s.child id
  callbackQueue : ∀ i, i ≠ n → s'.callbackQueue i = s.callbackQueue i
  fromSutQueue : ∀ i, i ≠ n → s'.fromSutQueue i = s.fromSutQueue i

namespace SameBeside

variable {cur n : Nat} {s s' s'' : State δ ρ π}

theorem trans (h : SameBeside cur n s s') (h' : SameBeside cur n s' s'') :
    SameBeside cur n s s'' where
  runLoop := h'.runLoop.trans h.runLoop
  pending := h'.pending.trans h.pending
  curNode := h'.curNode.trans h.curNode
  curInterface := h'.curInterface.trans h.curInterface
  child id hid := (h'.child id hid).trans (h.child id hid)
  callbackQueue i hi := (h'.callbackQueue i hi).trans (h.callbackQueue i hi)
  fromSutQueue i hi := (h'.fromSutQueue i hi).trans (h.fromSutQueue i hi)

theorem setChild (s : State δ ρ π) (n : Nat) (child : Child δ ρ) :
    SameBeside cur n s (s.setChild cur child) :=
  ⟨rfl, rfl, rfl, rfl, fun _ hid => Function.update_of_ne hid _ _, fun _ _ => rfl, fun _ _ => rfl⟩

theorem setCallbackQueue (s : State δ ρ π) (cur : Nat) (queue : List (RVFRequest δ)) :
    SameBeside cur n s (s.setCallbackQueue n queue) :=
  ⟨rfl, rfl, rfl, rfl, fun _ _ => rfl, fun _ hi => Function.update_of_ne hi _ _, fun _ _ => rfl⟩

theorem setFromSutQueue (s : State δ ρ π) (cur : Nat) (queue : List ρ) :
    SameBeside cur n s (s.setFromSutQueue n queue) :=
  ⟨rfl, rfl, rfl, rfl, fun _ _ => rfl, fun _ _ => rfl, fun _ hi => Function.update_of_ne hi _ _⟩

/-- What the visitor holds, the busy flag, the protocol and the calls may change too. -/
theorem visitor (s : State δ ρ π) (cur n : Nat) (busy : Bool) (visitor : Visitor δ ρ)
    (protocol : π) (translations : List (RVFRequest δ × ρ)) :
    SameBeside cur n s { s with
      busy := busy, visitor := visitor, protocol := protocol, translations := translations } :=
  ⟨rfl, rfl, rfl, rfl, fun _ _ => rfl, fun _ _ => rfl, fun _ _ => rfl⟩

end SameBeside

/-- The children in `done` have been served and `cur` is being served. -/
structure Serving (p : TranslatorProtocol δ ρ π) (t : Translator) (requests : Nat → Requests δ ρ)
    (protocol : π) (done : List Nat) (cur : Nat) (rest : List Nat) (s : State δ ρ π)
    (stage : Stage) (calls : List (RVFRequest δ × ρ)) (remaining : Requests δ ρ) : Prop where
  children : t.children = done ++ cur :: rest
  runLoop : s.runLoop = true
  pending : s.pending = true
  curNode : s.curNode = cur :: rest
  curInterface : s.curInterface = done.length
  passed : ∀ id ∈ done, (s.child id).Served
  later : ∀ id ∈ rest, s.child id = ⟨.notLaunched (requests id), [], []⟩
  queues : ∀ n, n ≠ done.length → s.callbackQueue n = [] ∧ s.fromSutQueue n = []
  position : ∀ n, s.visitor = .popping n → n < t.interfaces
  exchange : Exchange stage s.visitor s.busy (s.child cur) (s.callbackQueue done.length)
    (s.fromSutQueue done.length) calls remaining
  translations : s.translations = done.flatMap (fun id => (s.child id).exchanged) ++ calls
  sequential : serveAll p (t.children.map requests) protocol =
    (s.translations ++ (serveAll p (remaining :: rest.map requests) s.protocol).1,
      (serveAll p (remaining :: rest.map requests) s.protocol).2)

structure Complete (p : TranslatorProtocol δ ρ π) (t : Translator) (requests : Nat → Requests δ ρ)
    (protocol : π) (s : State δ ρ π) : Prop where
  runLoop : s.runLoop = true
  visitor : s.visitor = .leaving ∨ s.visitor = .returned
  busy : s.busy = false
  curInterface : s.curInterface = t.children.length
  passed : ∀ id ∈ t.children, (s.child id).Served
  queues : ∀ n, s.callbackQueue n = [] ∧ s.fromSutQueue n = []
  translations : s.translations = t.children.flatMap (fun id => (s.child id).exchanged)
  sequential : (serveAll p (t.children.map requests) protocol).1 = s.translations

def Invariant (p : TranslatorProtocol δ ρ π) (t : Translator) (requests : Nat → Requests δ ρ)
    (protocol : π) (s : State δ ρ π) : Prop :=
  (∃ done cur rest stage calls remaining,
    Serving p t requests protocol done cur rest s stage calls remaining) ∨
  Complete p t requests protocol s

/-- An upper bound of what is left to do; `total` is the number of calls of the whole visit. -/
def State.work (total : Nat) (s : State δ ρ π) (stage : Stage) : Nat :=
  8 * (total - s.translations.length + s.curNode.length) + stage.rank

/-- There is less to do, or nothing but to leave. -/
def Advances (p : TranslatorProtocol δ ρ π) (t : Translator) (requests : Nat → Requests δ ρ)
    (protocol : π) (s : State δ ρ π) (stage : Stage) (s' : State δ ρ π) : Prop :=
  (∃ done cur rest stage' calls remaining,
    Serving p t requests protocol done cur rest s' stage' calls remaining ∧
      s'.work (serveAll p (t.children.map requests) protocol).1.length stage' <
        s.work (serveAll p (t.children.map requests) protocol).1.length stage) ∨
  Complete p t requests protocol s'

section Steps

variable {p : TranslatorProtocol δ ρ π} {t : Translator} {requests : Nat → Requests δ ρ}
  {protocol : π} {s s' : State δ ρ π} {done rest : List Nat} {cur : Nat}
  {stage stage' : Stage} {calls : List (RVFRequest δ × ρ)} {remaining : Requests δ ρ}

theorem start_serving (hchildren : t.children = cur :: rest) :
    Serving p t requests protocol [] cur rest (start t requests protocol) .entering []
      (requests cur) where
  children := hchildren
  runLoop := rfl
  pending := rfl
  curNode := hchildren
  curInterface := rfl
  passed := fun id hid => absurd hid List.not_mem_nil
  later := fun _ _ => rfl
  queues := fun _ _ => ⟨rfl, rfl⟩
  position := fun n hn => by cases hn
  exchange := .entering (requests cur)
  translations := rfl
  sequential := by rw [hchildren]; rfl

namespace Serving

variable (h : Serving p t requests protocol done cur rest s stage calls remaining)
include h

theorem cur_notMem_done : cur ∉ done := by
  have hnodup := h.children ▸ t.distinct
  intro hcur
  exact (List.nodup_append.mp hnodup).2.2 cur hcur cur List.mem_cons_self rfl

theorem cur_notMem_rest : cur ∉ rest := by
  have hnodup := h.children ▸ t.distinct
  exact (List.nodup_cons.mp (List.nodup_append.mp hnodup).2.1).1

/-- A step of the exchange: nothing changes but for the child that is served. -/
theorem exchanges {calls' : List (RVFRequest δ × ρ)} {remaining' : Requests δ ρ}
    (hsame : SameBeside cur done.length s s')
    (hposition : ∀ n, s'.visitor = .popping n → n < t.interfaces)
    (hexchange : Exchange stage' s'.visitor s'.busy (s'.child cur) (s'.callbackQueue done.length)
      (s'.fromSutQueue done.length) calls' remaining')
    (htranslations : s'.translations = done.flatMap (fun id => (s.child id).exchanged) ++ calls')
    (hsequential : serveAll p (t.children.map requests) protocol =
      (s'.translations ++ (serveAll p (remaining' :: rest.map requests) s'.protocol).1,
        (serveAll p (remaining' :: rest.map requests) s'.protocol).2)) :
    Serving p t requests protocol done cur rest s' stage' calls' remaining' where
  children := h.children
  runLoop := hsame.runLoop.trans h.runLoop
  pending := hsame.pending.trans h.pending
  curNode := hsame.curNode.trans h.curNode
  curInterface := hsame.curInterface.trans h.curInterface
  passed := by
    intro id hid
    rw [hsame.child id fun heq => h.cur_notMem_done (heq ▸ hid)]
    exact h.passed id hid
  later := by
    intro id hid
    rw [hsame.child id fun heq => h.cur_notMem_rest (heq ▸ hid)]
    exact h.later id hid
  queues := by
    intro n hn
    rw [hsame.callbackQueue n hn, hsame.fromSutQueue n hn]
    exact h.queues n hn
  position := hposition
  exchange := hexchange
  translations := by
    rw [htranslations]
    congr 1
    apply List.flatMap_congr
    intro id hid
    rw [hsame.child id fun heq => h.cur_notMem_done (heq ▸ hid)]
  sequential := hsequential

theorem exchanges_quietly (hsame : SameBeside cur done.length s s')
    (hposition : ∀ n, s'.visitor = .popping n → n < t.interfaces)
    (hexchange : Exchange stage' s'.visitor s'.busy (s'.child cur) (s'.callbackQueue done.length)
      (s'.fromSutQueue done.length) calls remaining)
    (hprotocol : s'.protocol = s.protocol) (htranslations : s'.translations = s.translations) :
    Serving p t requests protocol done cur rest s' stage' calls remaining := by
  apply h.exchanges hsame hposition hexchange
  · exact htranslations.trans h.translations
  · rw [htranslations, hprotocol]
    exact h.sequential

theorem advances_quietly (hsame : SameBeside cur done.length s s')
    (hposition : ∀ n, s'.visitor = .popping n → n < t.interfaces)
    (hexchange : Exchange stage' s'.visitor s'.busy (s'.child cur) (s'.callbackQueue done.length)
      (s'.fromSutQueue done.length) calls remaining)
    (hrank : stage'.rank < stage.rank)
    (hprotocol : s'.protocol = s.protocol) (htranslations : s'.translations = s.translations) :
    Advances p t requests protocol s stage s' := by
  refine .inl ⟨done, cur, rest, stage', calls, remaining,
    h.exchanges_quietly hsame hposition hexchange hprotocol htranslations, ?_⟩
  rw [State.work, State.work, htranslations, hsame.curNode]
  omega

theorem threadStep_other {id : Nat} (hid : id ∈ t.children) (hother : id ≠ cur) :
    s.threadStep t id = none := by
  rw [h.children] at hid
  rcases List.mem_append.mp hid with hid | hid
  · rw [State.threadStep, (h.passed id hid).phase]
  · rcases List.mem_cons.mp hid with rfl | hid
    · exact absurd rfl hother
    · rw [State.threadStep, h.later id hid]

theorem threadStep_advances (ht : t.Registered) {id : Nat} (hid : id ∈ t.children)
    (hstep : s.threadStep t id = some s') :
    Advances p t requests protocol s stage s' := by
  by_cases hcur : id = cur
  swap
  · rw [h.threadStep_other hid hcur] at hstep
    cases hstep
  subst hcur
  have hqueue := ht.queueOf done id rest h.children
  have hexchange := h.exchange
  rw [State.threadStep, hqueue] at hstep
  generalize hvisitor : s.visitor = visitor at hexchange
  generalize hbusy : s.busy = busy at hexchange
  generalize hchild : s.child id = child at hexchange
  generalize hcallback : s.callbackQueue done.length = callbackQueue at hexchange
  generalize hfromSut : s.fromSutQueue done.length = fromSutQueue at hexchange
  cases hexchange with
  | entering | launching | ended | released =>
    rw [hchild] at hstep
    cases hstep
  | requested | popped | translated =>
    rw [hchild, hfromSut] at hstep
    cases hstep
  | running n remaining asked received hsame =>
    cases remaining with
    | none =>
      simp only [hchild] at hstep
      cases hstep
      refine h.advances_quietly ?_ h.position ?_ (by decide : Stage.rank .ended < _) rfl rfl
      · rw [State.pushRequest, hqueue]
        exact (SameBeside.setCallbackQueue s id _).trans (.setChild _ _ _)
      · have hended : Exchange .ended (.popping n) false ⟨.ended, asked, received⟩ [noMorePending] []
            (asked.zip received) (.none : Requests δ ρ) := .ended n asked received hsame
        simpa [State.setChild, State.pushRequest, State.setCallbackQueue, hqueue, hvisitor, hbusy,
          hcallback, hfromSut] using hended
    | ask request hservice next =>
      simp only [hchild] at hstep
      cases hstep
      refine h.advances_quietly ?_ h.position ?_ (by decide : Stage.rank .requested < _) rfl rfl
      · rw [State.pushRequest, hqueue]
        exact (SameBeside.setCallbackQueue s id _).trans (.setChild _ _ _)
      · have hrequested := Exchange.requested n request hservice next asked received hsame
        simpa [State.setChild, State.pushRequest, State.setCallbackQueue, hqueue, hvisitor, hbusy,
          hcallback, hfromSut] using hrequested
  | answered n request result next asked received hsame =>
    simp only [hchild, hfromSut] at hstep
    cases hstep
    refine h.advances_quietly ?_ h.position ?_ (by decide : Stage.rank .running < _) rfl rfl
    · exact (SameBeside.setFromSutQueue s id _).trans (.setChild _ _ _)
    · have hrunning := Exchange.running n (next result) (asked ++ [request]) (received ++ [result])
        (by rw [List.length_append, List.length_append, hsame]; rfl)
      rw [List.zip_append hsame] at hrunning
      simpa [State.setChild, State.setFromSutQueue, hqueue, hvisitor, hbusy, hcallback] using hrunning

/-- The visitor pops from the queue of the child that is served: the others are empty. -/
theorem popping_step {n : Nat} (hvisitor : s.visitor = .popping n)
    (hstep : s.visitorStep p = some s') :
    ∃ request queue, s.callbackQueue done.length = request :: queue ∧
      s' = { s.setCallbackQueue done.length queue with visitor := .popped request } := by
  simp only [State.visitorStep, hvisitor, h.runLoop, if_true] at hstep
  cases hqueue : s.callbackQueue n with
  | nil =>
    rw [hqueue] at hstep
    cases hstep
  | cons request queue =>
    rw [hqueue] at hstep
    cases hstep
    have hn : n = done.length := by
      by_contra hne
      rw [(h.queues n hne).1] at hqueue
      cases hqueue
    subst hn
    exact ⟨request, queue, hqueue, rfl⟩

/-- The exchange is over: the visitor moves on to the next child, or leaves. -/
theorem moves_on (hstage : stage = .released) (hbusy : s.busy = false) (hserved : (s.child cur).Served)
    (hcalls : calls = (s.child cur).exchanged) (hremaining : remaining = .none)
    (hcallback : s.callbackQueue done.length = []) (hfromSut : s.fromSutQueue done.length = []) :
    Advances p t requests protocol s stage
      { s with
        curNode := s.curNode.tail
        curInterface := s.curInterface + 1
        visitor := if s.curNode.tail.isEmpty then .leaving else .launching } := by
  have hpassed : ∀ id ∈ done ++ [cur], (s.child id).Served := by
    intro id hid
    rcases List.mem_append.mp hid with hid | hid
    · exact h.passed id hid
    · rw [List.mem_singleton.mp hid]
      exact hserved
  have hqueues (n : Nat) : s.callbackQueue n = [] ∧ s.fromSutQueue n = [] := by
    by_cases hn : n = done.length
    · rw [hn]
      exact ⟨hcallback, hfromSut⟩
    · exact h.queues n hn
  have htranslations :
      s.translations = (done ++ [cur]).flatMap (fun id => (s.child id).exchanged) := by
    rw [h.translations, hcalls, List.flatMap_append, List.flatMap_singleton]
  have hsequential := h.sequential
  rw [hremaining, serveAll_none] at hsequential
  cases rest with
  | nil =>
    refine .inr ⟨h.runLoop, .inl ?_, hbusy, ?_, ?_, hqueues, ?_, ?_⟩
    · rw [h.curNode]
      rfl
    · rw [h.curInterface, h.children, List.length_append]
      rfl
    · rw [h.children]
      exact hpassed
    · rw [h.children]
      exact htranslations
    · rw [hsequential]
      exact List.append_nil _
  | cons following rest =>
    refine .inl ⟨done ++ [cur], following, rest, .launching, [], requests following, ?_, ?_⟩
    swap
    · simp only [State.work, hstage, h.curNode, List.tail_cons, List.length_cons, Stage.rank]
      omega
    have hlater := h.later following List.mem_cons_self
    have hlength : (done ++ [cur]).length = done.length + 1 := List.length_append
    constructor
    · rw [h.children, List.append_assoc]
      rfl
    · exact h.runLoop
    · exact h.pending
    · rw [h.curNode]
      rfl
    · rw [hlength, h.curInterface]
    · exact hpassed
    · intro id hid
      exact h.later id (List.mem_cons_of_mem _ hid)
    · intro n _
      exact hqueues n
    · intro n hn
      rw [h.curNode] at hn
      cases hn
    · simp only [h.curNode, hbusy, hlater, (hqueues _).1, (hqueues _).2]
      exact .launching _
    · rw [List.append_nil]
      exact htranslations
    · exact hsequential

theorem visitorStep_advances (ht : t.Registered) (hstep : s.visitorStep p = some s') :
    Advances p t requests protocol s stage s' := by
  have hexchange := h.exchange
  generalize hvisitor : s.visitor = visitor at hexchange
  generalize hbusy : s.busy = busy at hexchange
  generalize hchild : s.child cur = child at hexchange
  generalize hcallback : s.callbackQueue done.length = callbackQueue at hexchange
  generalize hfromSut : s.fromSutQueue done.length = fromSutQueue at hexchange
  cases hexchange with
  | entering =>
    have hlaunching : (if s.runLoop && !s.busy && s.pending then (.launching : Visitor δ ρ)
        else .returned) = .launching := by
      rw [h.runLoop, hbusy, h.pending]
      rfl
    rw [State.visitorStep, hvisitor] at hstep
    simp only [hlaunching] at hstep
    cases hstep
    refine h.advances_quietly (.visitor s cur _ _ _ _ _) ?_ ?_
      (by decide : Stage.rank .launching < _) rfl rfl
    · intro n hn
      cases hn
    · simp only [hchild, hcallback, hfromSut, hbusy]
      exact .launching remaining
  | launching =>
    simp only [State.visitorStep, hvisitor, h.curNode, State.launch, hchild] at hstep
    cases hstep
    refine h.advances_quietly ?_ ?_ ?_ (by decide : Stage.rank .running < _) rfl rfl
    · exact (SameBeside.setChild s _ _).trans (.visitor _ cur _ _ _ _ _)
    · intro n hn
      cases hn
      rw [ht.interfaces, h.children, List.length_append, List.length_cons]
      omega
    · have hrunning := Exchange.running 0 remaining [] [] rfl
      simpa [State.setChild, hcallback, hfromSut, hbusy] using hrunning
  | running n remaining asked received hsame =>
    obtain ⟨request, queue, hqueue, -⟩ := h.popping_step hvisitor hstep
    rw [hcallback] at hqueue
    cases hqueue
  | requested n request hservice next asked received hsame =>
    obtain ⟨request, queue, hqueue, rfl⟩ := h.popping_step hvisitor hstep
    rw [hcallback] at hqueue
    cases hqueue
    refine h.advances_quietly ?_ ?_ ?_ (by decide : Stage.rank .popped < _) rfl rfl
    · exact (SameBeside.setCallbackQueue s cur []).trans (.visitor _ cur _ _ _ _ _)
    · intro n hn
      cases hn
    · have hpopped := Exchange.popped request hservice next asked received hsame
      simpa [State.setCallbackQueue, hchild, hfromSut, hbusy] using hpopped
  | popped request hservice next asked received hsame =>
    rw [State.visitorStep_popped p hvisitor h.runLoop, State.serve_request p s hservice] at hstep
    cases hstep
    have htranslated := Exchange.translated request
      (p.transformationCallback s.protocol request).1 next asked received hsame
    refine .inl ⟨done, cur, rest, _, _, _, h.exchanges (.visitor s cur _ _ _ _ _) ?_
      (by simpa only [hchild, hcallback, hfromSut] using htranslated) ?_ ?_, ?_⟩
    · intro n hn
      cases hn
    · rw [← List.append_assoc, ← h.translations]
    · rw [h.sequential, serveAll_ask]
      simp only [List.append_assoc, List.singleton_append]
    · have htotal := congrArg (fun served => served.1.length) h.sequential
      rw [serveAll_ask] at htotal
      simp only [List.length_append, List.length_cons] at htotal
      simp only [State.work, Stage.rank, List.length_append, List.length_singleton]
      omega
  | translated request result next asked received hsame =>
    simp only [State.visitorStep, hvisitor, State.pushFromSut, h.curInterface, hfromSut] at hstep
    cases hstep
    refine h.advances_quietly ?_ ?_ ?_ (by decide : Stage.rank .answered < _) rfl rfl
    · exact (SameBeside.setFromSutQueue s cur _).trans (.visitor _ cur _ _ _ _ _)
    · intro n hn
      cases hn
      rw [ht.interfaces, h.children, List.length_append, List.length_cons]
      omega
    · have hanswered := Exchange.answered 0 request result next asked received hsame
      simpa [State.setFromSutQueue, hchild, hcallback] using hanswered
  | answered n request result next asked received hsame =>
    obtain ⟨request, queue, hqueue, -⟩ := h.popping_step hvisitor hstep
    rw [hcallback] at hqueue
    cases hqueue
  | ended n asked received hsame =>
    obtain ⟨request, queue, hqueue, rfl⟩ := h.popping_step hvisitor hstep
    rw [hcallback] at hqueue
    cases hqueue
    refine h.advances_quietly ?_ ?_ ?_ (by decide : Stage.rank .released < _) rfl rfl
    · exact (SameBeside.setCallbackQueue s cur []).trans (.visitor _ cur _ _ _ _ _)
    · intro n hn
      cases hn
    · have hreleased : Exchange .released (.popped noMorePending) false ⟨.ended, asked, received⟩ [] []
          (asked.zip received) (.none : Requests δ ρ) := .released asked received hsame
      simpa [State.setCallbackQueue, hchild, hfromSut, hbusy] using hreleased
  | released asked received hsame =>
    rw [State.visitorStep_popped p hvisitor h.runLoop, State.serve_noMorePending] at hstep
    cases hstep
    apply h.moves_on rfl hbusy _ _ rfl hcallback hfromSut
    · rw [hchild]
      exact ⟨rfl, hsame⟩
    · rw [hchild]
      rfl

theorem timeoutStep_serving (ht : t.Registered) (hstep : s.timeoutStep t = some s') :
    Serving p t requests protocol done cur rest s' stage calls remaining := by
  have hexchange := h.exchange
  cases hvisitor : s.visitor with
  | popping n =>
    rw [State.timeoutStep, hvisitor] at hstep
    cases hstep
    refine h.exchanges_quietly (.visitor s cur _ _ _ _ _) ?_ ?_ rfl rfl
    · intro n' hn'
      cases hn'
      apply Nat.mod_lt
      rw [ht.interfaces, h.children, List.length_append, List.length_cons]
      omega
    · rw [hvisitor] at hexchange
      exact hexchange.popping _
  | entering | launching | popped | translated | leaving | returned | halted =>
    rw [State.timeoutStep, hvisitor] at hstep
    cases hstep

end Serving

theorem Complete.step {party : Party} (h : Complete p t requests protocol s)
    (hstop : party ≠ .stop) (hstep : Step p t s party s') : Complete p t requests protocol s' := by
  cases party with
  | stop => exact absurd rfl hstop
  | timeout =>
    rcases h.visitor with hvisitor | hvisitor <;>
    · rw [Step, next, State.timeoutStep, hvisitor] at hstep
      cases hstep
  | thread id =>
    by_cases hid : id ∈ t.children
    · rw [Step, next, if_pos hid, State.threadStep, (h.passed id hid).phase] at hstep
      cases hstep
    · rw [Step, next, if_neg hid] at hstep
      cases hstep
  | visitor =>
    rcases h.visitor with hvisitor | hvisitor
    · rw [Step, next, State.visitorStep, hvisitor] at hstep
      cases hstep
      exact ⟨h.runLoop, .inr rfl, h.busy, h.curInterface, h.passed, h.queues, h.translations,
        h.sequential⟩
    · rw [Step, next, State.visitorStep, hvisitor] at hstep
      cases hstep

theorem Serving.step {party : Party} (ht : t.Registered)
    (h : Serving p t requests protocol done cur rest s stage calls remaining)
    (hstop : party ≠ .stop) (htimeout : party ≠ .timeout) (hstep : Step p t s party s') :
    Advances p t requests protocol s stage s' := by
  cases party with
  | stop => exact absurd rfl hstop
  | timeout => exact absurd rfl htimeout
  | visitor => exact h.visitorStep_advances ht hstep
  | thread id =>
    rw [Step, next] at hstep
    split at hstep
    · rename_i hid
      exact h.threadStep_advances ht hid hstep
    · cases hstep

theorem Advances.invariant (h : Advances p t requests protocol s stage s') :
    Invariant p t requests protocol s' := by
  rcases h with ⟨done, cur, rest, stage', calls, remaining, h, -⟩ | h
  · exact .inl ⟨done, cur, rest, stage', calls, remaining, h⟩
  · exact .inr h

/-- Every step keeps the invariant as long as nobody clears the run flag. -/
theorem Invariant.step {party : Party} (ht : t.Registered)
    (h : Invariant p t requests protocol s) (hstop : party ≠ .stop) (hstep : Step p t s party s') :
    Invariant p t requests protocol s' := by
  rcases h with ⟨done, cur, rest, stage, calls, remaining, h⟩ | h
  · by_cases htimeout : party = .timeout
    · rw [htimeout] at hstep
      exact .inl ⟨done, cur, rest, stage, calls, remaining, h.timeoutStep_serving ht hstep⟩
    · exact (h.step ht hstop htimeout hstep).invariant
  · exact .inr (h.step hstop hstep)

end Steps

end AccessInterfaceTranslator

end Mast
