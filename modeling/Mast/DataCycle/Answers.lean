import Mast.DataCycle.Exchange

/-!
# Every request is answered to the interface that asked

Whatever the order of the steps, the children are served as by a sequential service: the calls of the protocol are the requests of the first child, then those of the second, and so on, and every child receives the results of its own requests in their order. From every state that is reached the visit can go on until it returns.
-/

namespace Mast

namespace AccessInterfaceTranslator

open Runs

variable {δ ρ π : Type}

/-- A run in which nobody clears the run flag. -/
def Reaches (p : TranslatorProtocol δ ρ π) (t : Translator) (s s' : State δ ρ π) : Prop :=
  ∃ parties, Party.stop ∉ parties ∧ Run (Step p t) s parties s'

section Runs

variable {p : TranslatorProtocol δ ρ π} {t : Translator} {requests : Nat → Requests δ ρ}
  {protocol : π} {s s' s'' : State δ ρ π} {done rest : List Nat} {cur : Nat}
  {stage : Stage} {calls : List (RVFRequest δ × ρ)} {remaining : Requests δ ρ}

theorem Reaches.refl (s : State δ ρ π) : Reaches p t s s := ⟨[], List.not_mem_nil, .nil s⟩

theorem Reaches.trans (h : Reaches p t s s') (h' : Reaches p t s' s'') : Reaches p t s s'' := by
  obtain ⟨parties, hstop, hrun⟩ := h
  obtain ⟨parties', hstop', hrun'⟩ := h'
  refine ⟨parties ++ parties', ?_, hrun.append hrun'⟩
  intro hmem
  exact (List.mem_append.mp hmem).elim hstop hstop'

theorem Reaches.step {party : Party} (hparty : party ≠ .stop) (hstep : Step p t s party s') :
    Reaches p t s s' := by
  refine ⟨[party], ?_, .cons hstep (.nil s')⟩
  intro hmem
  exact hparty (List.mem_singleton.mp hmem).symm

theorem Reaches.invariant (ht : t.Registered) (h : Reaches p t s s')
    (hs : Invariant p t requests protocol s) : Invariant p t requests protocol s' := by
  obtain ⟨parties, hstop, hrun⟩ := h
  apply hrun.invariant (C := fun party => party ≠ .stop) _ hs
  · intro party hmem heq
    exact hstop (heq ▸ hmem)
  · intro s party s' hs hparty hstep
    exact hs.step ht hparty hstep

/-! ### The visit can always go on -/

/-- Pops that time out lead the visitor around the queues. -/
theorem reaches_popping (n d : Nat) (hn : n < t.interfaces) :
    Reaches p t { s with visitor := .popping n }
      { s with visitor := .popping ((n + d) % t.interfaces) } := by
  induction d with
  | zero =>
    rw [Nat.add_zero, Nat.mod_eq_of_lt hn]
    exact .refl _
  | succ d ih =>
    apply ih.trans
    have hstep : Step p t { s with visitor := .popping ((n + d) % t.interfaces) } .timeout
        { s with visitor := .popping (((n + d) % t.interfaces + 1) % t.interfaces) } := rfl
    rw [Nat.mod_add_mod] at hstep
    have hparty : Party.timeout ≠ .stop := nofun
    exact .step hparty hstep

/-- The visitor comes to the queue of the child it serves. -/
theorem Serving.reaches_queue (ht : t.Registered)
    (h : Serving p t requests protocol done cur rest s stage calls remaining) :
    ∃ s', Reaches p t s s' ∧
      Serving p t requests protocol done cur rest s' stage calls remaining ∧
      (∀ total, s'.work total stage = s.work total stage) ∧
      ∀ n, s'.visitor = .popping n → n = done.length := by
  cases hvisitor : s.visitor with
  | popping n =>
    have hn := h.position n hvisitor
    have hlast : done.length < t.interfaces := by
      rw [ht.interfaces, h.children, List.length_append, List.length_cons]
      omega
    have haround := reaches_popping (p := p) (t := t) (s := s) n (done.length + t.interfaces - n) hn
    have hposition : (n + (done.length + t.interfaces - n)) % t.interfaces = done.length := by
      have hsum : n + (done.length + t.interfaces - n) = done.length + t.interfaces := by omega
      rw [hsum, Nat.add_mod_right, Nat.mod_eq_of_lt hlast]
    rw [hposition, ← hvisitor] at haround
    refine ⟨_, haround, ?_, fun total => rfl, ?_⟩
    · refine h.exchanges_quietly (.visitor s cur _ _ _ _ _) ?_ ?_ rfl rfl
      · intro n' hn'
        cases hn'
        exact hlast
      · have hexchange := h.exchange
        rw [hvisitor] at hexchange
        exact hexchange.popping _
    · intro n' hn'
      cases hn'
      rfl
  | entering | launching | popped | translated | leaving | returned | halted =>
    refine ⟨s, .refl s, h, fun total => rfl, ?_⟩
    intro n hn
    rw [hvisitor] at hn
    cases hn

/-- Once the visitor is at the queue of the child it serves, it or the thread of the child can take a step. -/
theorem Serving.enabled (ht : t.Registered)
    (h : Serving p t requests protocol done cur rest s stage calls remaining)
    (hposition : ∀ n, s.visitor = .popping n → n = done.length) :
    ∃ party s', party ≠ .stop ∧ party ≠ .timeout ∧ Step p t s party s' := by
  have hcur : cur ∈ t.children := by
    rw [h.children]
    exact List.mem_append_right _ List.mem_cons_self
  have hqueue := ht.queueOf done cur rest h.children
  have hexchange := h.exchange
  have hthread {s' : State δ ρ π} (hstep : s.threadStep t cur = some s') :
      ∃ party s', party ≠ .stop ∧ party ≠ .timeout ∧ Step p t s party s' :=
    ⟨.thread cur, s', nofun, nofun, (if_pos hcur).trans hstep⟩
  have hvisit {s' : State δ ρ π} (hstep : s.visitorStep p = some s') :
      ∃ party s', party ≠ .stop ∧ party ≠ .timeout ∧ Step p t s party s' :=
    ⟨.visitor, s', nofun, nofun, hstep⟩
  generalize hvisitor : s.visitor = visitor at hexchange
  generalize hbusy : s.busy = busy at hexchange
  generalize hchild : s.child cur = child at hexchange
  generalize hcallback : s.callbackQueue done.length = callbackQueue at hexchange
  generalize hfromSut : s.fromSutQueue done.length = fromSutQueue at hexchange
  cases hexchange with
  | entering =>
    apply hvisit
    rw [State.visitorStep, hvisitor]
  | launching =>
    apply hvisit
    rw [State.visitorStep, hvisitor, h.curNode]
  | running n remaining asked received hsame =>
    cases remaining with
    | none =>
      apply hthread
      rw [State.threadStep, hchild]
    | ask request hservice next =>
      apply hthread
      rw [State.threadStep, hchild]
  | requested n request hservice next asked received hsame =>
    rw [hposition n hvisitor] at hvisitor
    exact hvisit (State.visitorStep_popping p hvisitor h.runLoop hcallback)
  | ended n asked received hsame =>
    rw [hposition n hvisitor] at hvisitor
    exact hvisit (State.visitorStep_popping p hvisitor h.runLoop hcallback)
  | popped | released =>
    exact hvisit (State.visitorStep_popped p hvisitor h.runLoop)
  | translated =>
    apply hvisit
    rw [State.visitorStep, hvisitor]
  | answered n request result next asked received hsame =>
    apply hthread
    rw [State.threadStep, hchild, hqueue, hfromSut]

theorem Complete.returns (h : Complete p t requests protocol s) :
    ∃ s', Reaches p t s s' ∧ s'.visitor = .returned := by
  rcases h.visitor with hvisitor | hvisitor
  · have hstep : s.visitorStep p = some { s with
        protocol :=
          if p.isT2E then (p.transformationCallback s.protocol noMorePending).2 else s.protocol
        visitor := .returned } := by
      rw [State.visitorStep, hvisitor]
    have hparty : Party.visitor ≠ .stop := by
      intro hstop
      cases hstop
    exact ⟨_, .step hparty hstep, rfl⟩
  · exact ⟨s, .refl s, hvisitor⟩

theorem Serving.returns (ht : t.Registered)
    (h : Serving p t requests protocol done cur rest s stage calls remaining) :
    ∃ s', Reaches p t s s' ∧ s'.visitor = .returned := by
  generalize hwork : s.work (serveAll p (t.children.map requests) protocol).1.length stage = work
  induction work using Nat.strongRecOn generalizing done cur rest s stage calls remaining with
  | ind work ih =>
    obtain ⟨s₁, hreaches, hserving, hsame, hposition⟩ := h.reaches_queue ht
    obtain ⟨party, s₂, hstop, htimeout, hstep⟩ := hserving.enabled ht hposition
    have hfirst := hreaches.trans (.step hstop hstep)
    rcases hserving.step ht hstop htimeout hstep with
      ⟨done', cur', rest', stage', calls', remaining', hserving', hless⟩ | hcomplete
    · rw [hsame, hwork] at hless
      obtain ⟨s₃, hrest, hreturned⟩ := ih _ hless hserving' rfl
      exact ⟨s₃, hfirst.trans hrest, hreturned⟩
    · obtain ⟨s₃, hrest, hreturned⟩ := hcomplete.returns
      exact ⟨s₃, hfirst.trans hrest, hreturned⟩

theorem Invariant.returns (ht : t.Registered) (h : Invariant p t requests protocol s) :
    ∃ s', Reaches p t s s' ∧ s'.visitor = .returned := by
  rcases h with ⟨done, cur, rest, stage, calls, remaining, h⟩ | h
  · exact h.returns ht
  · exact h.returns

end Runs

/-! ### What has been answered -/

section Exchanged

variable {stage : Stage} {visitor : Visitor δ ρ} {busy : Bool} {child : Child δ ρ}
  {callbackQueue : List (RVFRequest δ)} {fromSutQueue : List ρ}
  {calls : List (RVFRequest δ × ρ)} {remaining : Requests δ ρ}
  {asked : List (RVFRequest δ)} {received : List ρ}

private theorem zip_waiting (request : RVFRequest δ) (hsame : asked.length = received.length) :
    (asked ++ [request]).zip received = asked.zip received := by
  have happend : (asked ++ [request]).zip (received ++ []) =
      asked.zip received ++ [request].zip [] := List.zip_append hsame
  rwa [List.append_nil, List.zip_nil_right, List.append_nil] at happend

private theorem map_fst_exchanged (hsame : asked.length = received.length) :
    (asked.zip received).map Prod.fst = asked := List.map_fst_zip (Nat.le_of_eq hsame)

/-- Of the calls made for a child, the result of the last one may not have been popped yet. -/
theorem Exchange.in_flight
    (h : Exchange stage visitor busy child callbackQueue fromSutQueue calls remaining) :
    ∃ inFlight, inFlight.length ≤ 1 ∧ calls = child.exchanged ++ inFlight := by
  cases h with
  | entering | launching | running | ended | released =>
    exact ⟨[], Nat.zero_le 1, (List.append_nil _).symm⟩
  | requested n request hservice next asked received hsame =>
    exact ⟨[], Nat.zero_le 1, by rw [Child.exchanged, zip_waiting request hsame, List.append_nil]⟩
  | popped request hservice next asked received hsame =>
    exact ⟨[], Nat.zero_le 1, by rw [Child.exchanged, zip_waiting request hsame, List.append_nil]⟩
  | translated request result next asked received hsame =>
    exact ⟨[(request, result)], Nat.le_refl 1, by rw [Child.exchanged, zip_waiting request hsame]⟩
  | answered n request result next asked received hsame =>
    exact ⟨[(request, result)], Nat.le_refl 1, by rw [Child.exchanged, zip_waiting request hsame]⟩

/-- Of the requests of a child, no call may have been made yet for the last one. -/
theorem Exchange.asked_for
    (h : Exchange stage visitor busy child callbackQueue fromSutQueue calls remaining) :
    ∃ waiting, waiting.length ≤ 1 ∧ child.asked = calls.map Prod.fst ++ waiting := by
  cases h with
  | entering | launching => exact ⟨[], Nat.zero_le 1, rfl⟩
  | running n requests asked received hsame =>
    exact ⟨[], Nat.zero_le 1, by rw [map_fst_exchanged hsame, List.append_nil]⟩
  | ended n asked received hsame =>
    exact ⟨[], Nat.zero_le 1, by rw [map_fst_exchanged hsame, List.append_nil]⟩
  | released asked received hsame =>
    exact ⟨[], Nat.zero_le 1, by rw [map_fst_exchanged hsame, List.append_nil]⟩
  | requested n request hservice next asked received hsame =>
    exact ⟨[request], Nat.le_refl 1, by rw [map_fst_exchanged hsame]⟩
  | popped request hservice next asked received hsame =>
    exact ⟨[request], Nat.le_refl 1, by rw [map_fst_exchanged hsame]⟩
  | translated request result next asked received hsame =>
    refine ⟨[], Nat.zero_le 1, ?_⟩
    rw [List.map_append, map_fst_exchanged hsame, List.append_nil]
    rfl
  | answered n request result next asked received hsame =>
    refine ⟨[], Nat.zero_le 1, ?_⟩
    rw [List.map_append, map_fst_exchanged hsame, List.append_nil]
    rfl

theorem Exchange.received_le
    (h : Exchange stage visitor busy child callbackQueue fromSutQueue calls remaining) :
    child.received.length ≤ child.asked.length := by
  cases h <;> simp only [List.length_append, List.length_nil] <;> omega

theorem Child.exchanged_getElem {k : Nat} {result : ρ}
    (hle : child.received.length ≤ child.asked.length) (hresult : child.received[k]? = some result) :
    ∃ request, child.asked[k]? = some request ∧ (request, result) ∈ child.exchanged := by
  obtain ⟨hk, rfl⟩ := List.getElem?_eq_some_iff.mp hresult
  have hasked : k < child.asked.length := Nat.lt_of_lt_of_le hk hle
  refine ⟨child.asked[k], List.getElem?_eq_getElem hasked, ?_⟩
  apply List.mem_of_getElem? (i := k)
  rw [exchanged, List.getElem?_zip_eq_some]
  exact ⟨List.getElem?_eq_getElem hasked, List.getElem?_eq_getElem hk⟩

end Exchanged

/-- What holds in every state of a visit. -/
structure Answered (p : TranslatorProtocol δ ρ π) (t : Translator) (requests : Nat → Requests δ ρ)
    (protocol : π) (s : State δ ρ π) : Prop where
  /-- The `k`-th result of a child is what the callback gave for its `k`-th request. -/
  results : ∀ id ∈ t.children, ∀ (k : Nat) (result : ρ),
    (s.child id).received[k]? = some result →
    ∃ request, (s.child id).asked[k]? = some request ∧ (request, result) ∈ s.translations ∧
      ∃ held, (p.transformationCallback held request).1 = result
  /-- The calls are those of the requests in their order, each made once; one result may be on its way. -/
  translatedOnce : ∃ inFlight, inFlight.length ≤ 1 ∧
    s.translations = t.children.flatMap (fun id => (s.child id).exchanged) ++ inFlight
  /-- One request at most has not been translated yet. -/
  notLost : ∃ waiting, waiting.length ≤ 1 ∧
    t.children.flatMap (fun id => (s.child id).asked) = s.translations.map Prod.fst ++ waiting
  /-- The threads of the children that the loop has passed wait for nothing. -/
  notAbandoned : ∀ id ∈ t.children.take s.curInterface, (s.child id).Served
  /-- The visit returns when everything has been served, and leaves nothing behind. -/
  returned : s.visitor = .returned →
    (∀ n, s.callbackQueue n = [] ∧ s.fromSutQueue n = []) ∧ s.busy = false ∧
      (∀ id ∈ t.children, (s.child id).Served) ∧
      s.translations = (serveAll p (t.children.map requests) protocol).1
  /-- The visit can go on until it returns. -/
  continues : ∃ s', Reaches p t s s' ∧ s'.visitor = .returned

section Invariant

variable {p : TranslatorProtocol δ ρ π} {t : Translator} {requests : Nat → Requests δ ρ}
  {protocol : π} {s : State δ ρ π} {done rest : List Nat} {cur : Nat}
  {stage : Stage} {calls : List (RVFRequest δ × ρ)} {remaining : Requests δ ρ}

theorem Child.Served.map_fst {child : Child δ ρ} (h : child.Served) :
    child.exchanged.map Prod.fst = child.asked := map_fst_exchanged h.results

theorem Invariant.sequential (h : Invariant p t requests protocol s) :
    s.translations <+: (serveAll p (t.children.map requests) protocol).1 := by
  rcases h with ⟨done, cur, rest, stage, calls, remaining, h⟩ | h
  · rw [h.sequential]
    exact List.prefix_append _ _
  · exact ⟨[], by rw [List.append_nil, h.sequential]⟩

theorem Invariant.received_le (h : Invariant p t requests protocol s) {id : Nat}
    (hid : id ∈ t.children) : (s.child id).received.length ≤ (s.child id).asked.length := by
  rcases h with ⟨done, cur, rest, stage, calls, remaining, h⟩ | h
  · rw [h.children] at hid
    rcases List.mem_append.mp hid with hid | hid
    · exact Nat.le_of_eq (h.passed id hid).results.symm
    · rcases List.mem_cons.mp hid with rfl | hid
      · exact h.exchange.received_le
      · rw [h.later id hid]
        exact Nat.zero_le _
  · exact Nat.le_of_eq (h.passed id hid).results.symm

theorem Serving.flatMap_later {α : Type} {f : Child δ ρ → List α}
    (h : Serving p t requests protocol done cur rest s stage calls remaining)
    (hf : ∀ requests, f ⟨.notLaunched requests, [], []⟩ = []) :
    t.children.flatMap (fun id => f (s.child id)) =
      done.flatMap (fun id => f (s.child id)) ++ f (s.child cur) := by
  have hrest : rest.flatMap (fun id => f (s.child id)) = [] := by
    apply List.flatMap_eq_nil_iff.mpr
    intro id hid
    rw [h.later id hid]
    exact hf _
  rw [h.children, List.flatMap_append, List.flatMap_cons, hrest, List.append_nil]

theorem Invariant.in_flight (h : Invariant p t requests protocol s) :
    ∃ inFlight, inFlight.length ≤ 1 ∧
      s.translations = t.children.flatMap (fun id => (s.child id).exchanged) ++ inFlight := by
  rcases h with ⟨done, cur, rest, stage, calls, remaining, h⟩ | h
  · obtain ⟨inFlight, hone, hcalls⟩ := h.exchange.in_flight
    refine ⟨inFlight, hone, ?_⟩
    rw [h.flatMap_later (f := Child.exchanged) fun _ => rfl, h.translations, hcalls,
      List.append_assoc]
  · exact ⟨[], Nat.zero_le 1, by rw [h.translations, List.append_nil]⟩

theorem Invariant.asked_for (h : Invariant p t requests protocol s) :
    ∃ waiting, waiting.length ≤ 1 ∧
      t.children.flatMap (fun id => (s.child id).asked) =
        s.translations.map Prod.fst ++ waiting := by
  have hserved {ids : List Nat} (hids : ∀ id ∈ ids, (s.child id).Served) :
      (ids.flatMap fun id => (s.child id).exchanged).map Prod.fst =
        ids.flatMap fun id => (s.child id).asked := by
    rw [List.map_flatMap]
    apply List.flatMap_congr
    intro id hid
    exact (hids id hid).map_fst
  rcases h with ⟨done, cur, rest, stage, calls, remaining, h⟩ | h
  · obtain ⟨waiting, hone, hasked⟩ := h.exchange.asked_for
    refine ⟨waiting, hone, ?_⟩
    rw [h.flatMap_later (f := Child.asked) fun _ => rfl, h.translations, List.map_append,
      hserved h.passed, hasked, List.append_assoc]
  · exact ⟨[], Nat.zero_le 1, by rw [h.translations, hserved h.passed, List.append_nil]⟩

theorem Invariant.passed (h : Invariant p t requests protocol s) :
    ∀ id ∈ t.children.take s.curInterface, (s.child id).Served := by
  rcases h with ⟨done, cur, rest, stage, calls, remaining, h⟩ | h
  · rw [h.children, h.curInterface, List.take_left]
    exact h.passed
  · rw [h.curInterface, List.take_length]
    exact h.passed

/-- The visit does not return while a child is being served. -/
theorem Invariant.complete (h : Invariant p t requests protocol s)
    (hreturned : s.visitor = .returned) : Complete p t requests protocol s := by
  rcases h with ⟨done, cur, rest, stage, calls, remaining, h⟩ | h
  · have hexchange := h.exchange
    rw [hreturned] at hexchange
    cases hexchange
  · exact h

theorem Invariant.answered (ht : t.Registered) (h : Invariant p t requests protocol s) :
    Answered p t requests protocol s where
  results := by
    intro id hid k result hresult
    obtain ⟨request, hasked, hexchanged⟩ :=
      Child.exchanged_getElem (h.received_le hid) hresult
    have hcall : (request, result) ∈ s.translations := by
      obtain ⟨inFlight, -, htranslations⟩ := h.in_flight
      rw [htranslations]
      exact List.mem_append_left _ (List.mem_flatMap.mpr ⟨id, hid, hexchanged⟩)
    exact ⟨request, hasked, hcall, serveAll_calls p _ protocol _ (h.sequential.subset hcall)⟩
  translatedOnce := h.in_flight
  notLost := h.asked_for
  notAbandoned := h.passed
  returned := by
    intro hreturned
    have hcomplete := h.complete hreturned
    exact ⟨hcomplete.queues, hcomplete.busy, hcomplete.passed, hcomplete.sequential.symm⟩
  continues := h.returns ht

end Invariant

/-- Whatever the order of the steps, every request is answered to the interface that asked. -/
theorem requests_answered (p : TranslatorProtocol δ ρ π) (children : List Nat)
    (hdistinct : children.Nodup) (hchildren : children ≠ []) (requests : Nat → Requests δ ρ)
    (protocol : π) (parties : List Party) (s : State δ ρ π)
    (hrun : Run (Step p (.ofChildren children hdistinct))
      (start (.ofChildren children hdistinct) requests protocol) parties s)
    (hrunLoop : Party.stop ∉ parties) :
    Answered p (.ofChildren children hdistinct) requests protocol s := by
  have ht := Translator.ofChildren_registered children hdistinct
  obtain ⟨cur, rest, rfl⟩ := List.exists_cons_of_ne_nil hchildren
  have hstart : Invariant p (.ofChildren (cur :: rest) hdistinct) requests protocol
      (start (.ofChildren (cur :: rest) hdistinct) requests protocol) :=
    .inl ⟨[], cur, rest, _, _, _, start_serving (Translator.foldl_children _ _)⟩
  have hreached : Reaches p (.ofChildren (cur :: rest) hdistinct) _ s := ⟨parties, hrunLoop, hrun⟩
  exact (hreached.invariant ht hstart).answered ht

/-! ### A visit of two interfaces -/

/-- A protocol that answers each request with the number of requests before it. -/
def countingProtocol : TranslatorProtocol Nat Nat Nat where
  transformationCallback count _ := (count, count + 1)
  isT2E := false

def scanRequest : RVFRequest Nat := ⟨"SDR", some 3⟩

/-- The first child asks twice, the second one once. -/
def scanRequests : Nat → Requests Nat Nat
  | 5 => .ask scanRequest rfl fun _ => .ask scanRequest rfl fun _ => .none
  | _ => .ask scanRequest rfl fun _ => .none

def twoChildren : Translator := .ofChildren [5, 2] (by decide)

def scanVisit : List Party :=
  let answer (id : Nat) : List Party := [.thread id, .visitor, .visitor, .visitor, .thread id]
  [.visitor, .visitor, .timeout, .timeout] ++ answer 5 ++ answer 5 ++
    [.thread 5, .visitor, .visitor, .visitor, .timeout] ++ [.thread 2, .visitor, .visitor,
    .visitor, .thread 2, .timeout, .thread 2, .visitor, .visitor, .visitor]

theorem two_interfaces_answered :
    ∃ s, Answered countingProtocol twoChildren scanRequests 0 s ∧ s.visitor = .returned ∧
      (s.child 5).received = [0, 1] ∧ (s.child 2).received = [2] := by
  have hsome : (scanVisit.foldlM (next countingProtocol twoChildren)
      (start twoChildren scanRequests 0)).isSome = true := rfl
  refine ⟨Option.get _ hsome, ?_, rfl, rfl, rfl⟩
  have hrun := Run.of_foldlM (Option.some_get hsome).symm
  exact requests_answered countingProtocol [5, 2] (by decide) (List.cons_ne_nil _ _) scanRequests 0
    scanVisit _ hrun (by decide)

end AccessInterfaceTranslator

end Mast
