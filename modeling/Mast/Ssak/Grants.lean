import Mast.Ssak.Authentication

/-!
# Who may open a secured segment

An authentication run is made for the segment whose cardinality its configuration names; once it has ended with success it is that segment, and no other, that may be opened, until the access is closed. The state of the selector does not tell for which segment it was opened, and closing the access does not change it.
-/

namespace Mast

namespace Ssak

open Commands Outcome

/-! ### Authentication runs -/

/-- What the events so far amount to: the cardinality of the run that is under way, whether the challenge has been answered, and the cardinalities whose run has ended with success since the access was closed. -/
structure Grants where
  configured : Option Nat
  responded : Bool
  granted : List Nat

namespace Grants

def start : Grants := ⟨none, false, []⟩

def after (g : Grants) : Event → Grants
  | .configSent cardinality => { g with configured := some cardinality, responded := false }
  | .responseSent => { g with responded := true }
  | .success =>
    ⟨none, false, if g.responded then g.configured.toList ++ g.granted else g.granted⟩
  | .accessClosed => { g with granted := [] }

end Grants

def grants (events : List Event) : Grants := events.foldl Grants.after .start

theorem grants_append (events : List Event) (event : Event) :
    grants (events ++ [event]) = (grants events).after event := by
  rw [grants, List.foldl_append]
  rfl

/-! ### What a call changes -/

/-- Only the given registers may have changed. -/
def SameOutside (regs : List Nat) (s s' : SystemModel) : Prop :=
  ∀ id, id ∉ regs → s'.registers id = s.registers id

theorem SameOutside.refl {regs : List Nat} (s : SystemModel) : SameOutside regs s s :=
  fun _ _ => rfl

theorem SameOutside.trans {regs : List Nat} {s s' s'' : SystemModel} (h : SameOutside regs s s')
    (h' : SameOutside regs s' s'') : SameOutside regs s s'' :=
  fun id hid => (h' id hid).trans (h id hid)

/-- What a virtual register reads is in its registers. -/
theorem getView_congr {v : VirtualRegister} {s s' : SystemModel} {getter : Register → Bits}
    (hgetter : ∀ id ∈ v.identifiers, getter (s'.registers id) = getter (s.registers id))
    (hordering : ∀ id ∈ v.identifiers,
      (s'.registers id).bitsOrdering = (s.registers id).bitsOrdering) :
    v.getView s' getter = v.getView s getter := by
  have hslices (ordering : BitsOrdering) :
      v.viewSlices s' ordering getter = v.viewSlices s ordering getter := by
    clear hordering
    induction v with
    | nil => rfl
    | cons slice rest ih =>
      rw [VirtualRegister.viewSlices, VirtualRegister.viewSlices,
        hgetter slice.reg List.mem_cons_self, ih fun id hid => hgetter id (List.mem_cons_of_mem _ hid)]
  have hsame : v.bitsOrdering s' = v.bitsOrdering s := by
    cases v with
    | nil => rfl
    | cons slice rest => exact hordering slice.reg List.mem_cons_self
  rw [VirtualRegister.getView, VirtualRegister.getView, hsame, hslices]

theorem SameOutside.getView {regs : List Nat} {s s' : SystemModel} (h : SameOutside regs s s')
    {v : VirtualRegister} (hdisjoint : v.identifiers.Disjoint regs) (getter : Register → Bits) :
    v.getView s' getter = v.getView s getter :=
  getView_congr (fun id hid => by rw [h id (hdisjoint hid)])
    fun id hid => by rw [h id (hdisjoint hid)]

theorem SameOutside.of_steered {regs : List Nat} {s s' : SystemModel}
    (h : SystemModel.Steered regs s s') : SameOutside regs s s' := h.others

theorem setPendingForRead_same (pendingForRead : Bool) (v : VirtualRegister) (s : SystemModel) :
    SameOutside v.identifiers s (setPendingForRead pendingForRead v s) := by
  induction v generalizing s with
  | nil => exact .refl s
  | cons slice rest ih =>
    intro id hid
    have hrest : id ∉ VirtualRegister.identifiers rest := fun h => hid (List.mem_cons_of_mem _ h)
    have hfirst : id ≠ slice.reg := fun h => hid (h ▸ List.mem_cons_self)
    rw [setPendingForRead, ih _ id hrest, SystemModel.setRegister_other _ _ hfirst]

section Rules

variable {β : Type} {s : State} {post : Except Fault β → State → Prop}

/-- A call that reads registers, and what follows it. -/
theorem yields_read {read : SystemModel → Except Fault Bits} {f : Bits → Command β}
    (hok : ∀ bits, read s.model = .ok bits → Yields (f bits) s post)
    (herror : ∀ fault, read s.model = .error fault → post (.error fault) s) :
    Yields (readRegisters read >>= f) s post := by
  have hrun : (readRegisters read).run s = (orThrow (read s.model)).run s := rfl
  unfold Yields at hok ⊢
  rw [EStateM.run_bind, hrun]
  cases hread : read s.model with
  | ok bits => exact hok bits hread
  | error fault => exact herror fault hread

theorem yields_orThrow {α : Type} {value : Except Fault α} {f : α → Command β}
    (hok : ∀ a, value = .ok a → Yields (f a) s post)
    (herror : ∀ fault, value = .error fault → post (.error fault) s) :
    Yields (orThrow value >>= f) s post := by
  cases value with
  | ok a => exact hok a rfl
  | error fault => exact herror fault rfl

theorem yields_update {update : SystemModel → Except Fault SystemModel} {f : Command β}
    (hok : ∀ model, update s.model = .ok model → Yields f { s with model := model } post)
    (herror : ∀ fault, update s.model = .error fault → post (.error fault) s) :
    Yields (updateRegisters update >>= fun _ => f) s post := by
  have hrun : (updateRegisters update).run s =
      (orThrow (update s.model) >>= fun model => set { s with model := model }).run s := rfl
  unfold Yields at hok ⊢
  rw [EStateM.run_bind, hrun]
  cases hupdate : update s.model with
  | ok model => exact hok model hupdate
  | error fault => exact herror fault hupdate

theorem yields_modify {g : State → State} {f : Command β} (hf : Yields f (g s) post) :
    Yields ((modify g : Command Unit) >>= fun _ => f) s post := hf

end Rules

/-! ### One call for an authentication -/

/-- What a call of `DoAuthentication` can do: nothing that is known outside, send the configuration or the response, or read success. -/
inductive Authenticates (ssak : Selector) (cardinality : Nat) (s : State) :
    Except Fault SelectorState → State → Prop
  | waits {result : Except Fault SelectorState} {s' : State}
      (hstate : s'.selectorState = s.selectorState) (hevents : s'.events = s.events)
      (hresult : ∀ state, result = .ok state → state = s.selectorState) :
      Authenticates ssak cardinality s result s'
  | sendsConfig {s' : State} (hclosed : s.selectorState = .closed)
      (hstate : s'.selectorState = .configSent)
      (hevents : s'.events = s.events ++ [.configSent cardinality]) :
      Authenticates ssak cardinality s (.ok .configSent) s'
  | sendsResponse {s' : State} (hsent : s.selectorState = .configSent)
      (hstate : s'.selectorState = .authenticationCheck)
      (hevents : s'.events = s.events ++ [.responseSent]) :
      Authenticates ssak cardinality s (.ok .authenticationCheck) s'
  | readsSuccess {s' : State} (hcheck : s.selectorState = .authenticationCheck)
      (hsuccess : lastFromSut ssak.muxRegisters s.model = .ok ssak.authenticationSuccess)
      (hstate : s'.selectorState = .opened) (hevents : s'.events = s.events ++ [.success]) :
      Authenticates ssak cardinality s (.ok .opened) s'

section Authentication

variable (ssak : Selector) (cardinality : Nat) {s : State}

theorem setToSut_same {v : VirtualRegister} {sequence : Bits} {model model' : SystemModel}
    (hset : v.setToSut sequence model = .ok model') : SameOutside v.identifiers model model' :=
  (VirtualRegister.setToSut_steered (List.Subset.refl _) sequence model model' hset).others

/-- What a step of the authentication does, and that it changes no other registers. -/
def StepDone (s : State) (result : Except Fault Unit) (s' : State) : Prop :=
  Authenticates ssak cardinality s (result.map fun _ => s'.selectorState) s' ∧
    SameOutside ssak.muxRegisters.identifiers s.model s'.model

variable {ssak cardinality}

theorem StepDone.waits {result : Except Fault Unit} {s' : State}
    (hstate : s'.selectorState = s.selectorState) (hevents : s'.events = s.events)
    (hmodel : SameOutside ssak.muxRegisters.identifiers s.model s'.model) :
    StepDone ssak cardinality s result s' := by
  refine ⟨.waits hstate hevents fun state hresult => ?_, hmodel⟩
  obtain ⟨-, -, rfl⟩ := map_eq_ok.mp hresult
  exact hstate

theorem StepDone.fails (fault : Fault) : StepDone ssak cardinality s (.error fault) s :=
  .waits rfl rfl (.refl _)

theorem sendConfig_yields (config : Bits) (hclosed : s.selectorState = .closed) :
    Yields (ssak.sendConfig cardinality config) s (StepDone ssak cardinality s) := by
  refine yields_update (fun model hset => ?_) fun fault _ => .fails fault
  exact ⟨.sendsConfig hclosed rfl rfl, setToSut_same hset⟩

theorem sendResponse_yields (hsent : s.selectorState = .configSent) :
    Yields ssak.sendResponse s (StepDone ssak cardinality s) := by
  refine yields_read (fun challenge _ => ?_) fun fault _ => .fails fault
  refine yields_orThrow (fun response _ => ?_) fun fault _ => .fails fault
  refine yields_update (fun model hset => ?_) fun fault _ => .fails fault
  exact ⟨.sendsResponse hsent rfl rfl,
    (setToSut_same hset).trans (setPendingForRead_same true ssak.muxRegisters model)⟩

theorem checkAuthentication_yields (hcheck : s.selectorState = .authenticationCheck) :
    Yields ssak.checkAuthentication s (StepDone ssak cardinality s) := by
  refine yields_read (fun result hresult => ?_) fun fault _ => .fails fault
  refine Yields.ite (fun hsuccess => ?_) fun _ => Yields.ite (fun _ => ?_) fun _ => ?_
  · exact ⟨.readsSuccess hcheck (hsuccess ▸ hresult) rfl rfl, .refl _⟩
  · exact StepDone.fails _
  · refine yields_modify (Yields.ite (fun _ => ?_) fun _ => ?_)
    · exact StepDone.waits rfl rfl (.refl _)
    · exact StepDone.waits rfl rfl (.refl _)

theorem authenticationStep_yields (config : Bits) (pendingWrite : Bool) :
    Yields (ssak.authenticationStep cardinality config pendingWrite s.selectorState) s
      (StepDone ssak cardinality s) := by
  cases hstate : s.selectorState with
  | closed => exact sendConfig_yields config hstate
  | configSent =>
    refine Yields.ite (fun _ => sendResponse_yields hstate) fun _ => ?_
    exact StepDone.waits rfl rfl (.refl _)
  | authenticationCheck => exact checkAuthentication_yields hstate
  | opened =>
    have hdone : StepDone ssak cardinality s (.ok ()) s := StepDone.waits rfl rfl (.refl _)
    exact hdone

theorem doAuthentication_yields (ssak : Selector) (cardinality : Nat) (s : State) :
    Yields (ssak.doAuthentication cardinality) s fun result s' =>
      Authenticates ssak cardinality s result s' ∧
        SameOutside ssak.muxRegisters.identifiers s.model s'.model := by
  have hfails (fault : Fault) : Authenticates ssak cardinality s (.error fault) s ∧
      SameOutside ssak.muxRegisters.identifiers s.model s.model :=
    ⟨.waits rfl rfl nofun, .refl _⟩
  refine yields_read (fun nextToSut hnext => ?_) fun fault _ => hfails fault
  refine yields_read (fun lastToSut hlast => ?_) fun fault _ => hfails fault
  refine yields_orThrow (fun config hconfig => ?_) fun fault _ => hfails fault
  refine Yields.bind (Yields.get (Yields.bind ?_))
  refine (authenticationStep_yields config (nextToSut != lastToSut)).mono ?_
  intro result s' hdone
  cases result with
  | ok u => exact hdone
  | error fault => exact hdone

end Authentication

/-! ### The calls of a secured segment -/

section Calls

variable {s2ib : S2ib} {ssak : Selector} {s : State} {next last : Bits}

theorem setPending_same (v : VirtualRegister) (s : SystemModel) :
    SameOutside v.identifiers s (v.setPending s) :=
  (VirtualRegister.setPending_steered (List.Subset.refl _) s).others

/-- A request for a value ends with that value to send, and changes nothing else. -/
structure Requested (s2ib : S2ib) (value last : Bits) (s s' : State) : Prop where
  selectorState : s'.selectorState = s.selectorState
  events : s'.events = s.events
  same : SameOutside [s2ib.associatedRegister] s.model s'.model
  mux : s'.model.Mux s2ib.associatedRegister 1 value last

theorem setPending_mux {model : SystemModel} {reg : Nat} (hmux : model.Mux reg 1 next last) :
    (VirtualRegister.setPending (.ofRegister reg 1) model).Mux reg 1 next last := by
  have hreg : (VirtualRegister.setPending (.ofRegister reg 1) model).registers reg =
      (model.registers reg).setPending := SystemModel.setRegister_self _ _ _
  constructor <;> rw [hreg]
  · exact ⟨hmux.hasWidth.nextToSut, hmux.hasWidth.lastToSut, hmux.hasWidth.bypass⟩
  · exact hmux.ordering
  · exact hmux.nextToSut
  · exact hmux.lastToSut

theorem request_yields (hmux : s.model.Mux s2ib.associatedRegister 1 next last) {value : Bits}
    (hvalue : value.length = 1) :
    Yields (s2ib.request value) s fun result s' =>
      result = .ok () ∧ Requested s2ib value last s s' := by
  obtain ⟨model, hset, hmux'⟩ :=
    VirtualRegister.setToSut_whole hmux Nat.one_pos (by decide) hvalue
  refine yields_update (fun model' hset' => ?_) fun fault hfault => ?_
  · obtain rfl := Except.ok.inj (hset.symm.trans hset')
    exact ⟨rfl, rfl, rfl, (setToSut_same hset).trans (setPending_same _ model), setPending_mux hmux'⟩
  · cases hset.symm.trans hfault

/-- `Select` does nothing when the segment is selected. Otherwise it calls for an authentication, and if the access is open it selects the segment. -/
inductive SelectDone (s2ib : S2ib) (ssak : Selector) (next last : Bits) (s : State) : State → Prop
  | nothing (hselected : next = S2ib.selectValue) : SelectDone s2ib ssak next last s s
  | refused {result : Except Fault SelectorState} {s' : State} (hfree : next ≠ S2ib.selectValue)
      (hasked : Authenticates ssak s2ib.cardinality s result s')
      (hsame : SameOutside ssak.muxRegisters.identifiers s.model s'.model)
      (hrefused : result ≠ .ok .opened) : SelectDone s2ib ssak next last s s'
  | granted {s₁ s' : State} (hfree : next ≠ S2ib.selectValue)
      (hasked : Authenticates ssak s2ib.cardinality s (.ok .opened) s₁)
      (hsame : SameOutside ssak.muxRegisters.identifiers s.model s₁.model)
      (hrequest : Requested s2ib S2ib.selectValue last s₁ s') : SelectDone s2ib ssak next last s s'

theorem SameOutside.mux {regs : List Nat} {model model' : SystemModel} {reg : Nat}
    (hsame : SameOutside regs model model') (hreg : reg ∉ regs) (hmux : model.Mux reg 1 next last) :
    model'.Mux reg 1 next last := by
  have hregister := hsame reg hreg
  constructor <;> rw [hregister]
  · exact hmux.hasWidth
  · exact hmux.ordering
  · exact hmux.nextToSut
  · exact hmux.lastToSut

theorem nextToSut_mux (hmux : s.model.Mux s2ib.associatedRegister 1 next last) :
    s2ib.muxRegisters.nextToSut s.model = .ok next :=
  VirtualRegister.nextToSut_whole hmux Nat.one_pos (by decide)

theorem select_yields (hmux : s.model.Mux s2ib.associatedRegister 1 next last)
    (hssak : s2ib.associatedRegister ∉ ssak.muxRegisters.identifiers) :
    Yields (s2ib.select ssak) s fun _ s' => SelectDone s2ib ssak next last s s' := by
  have hselected : s2ib.isSelected s.model = .ok (next == S2ib.selectValue) := by
    rw [S2ib.isSelected, nextToSut_mux hmux]
    rfl
  refine Yields.bind (Yields.get ?_)
  refine yields_orThrow (fun selected htest => ?_) fun fault hfault => ?_
  swap
  · cases hselected.symm.trans hfault
  obtain rfl := Except.ok.inj (hselected.symm.trans htest)
  refine Yields.ite (fun hfree => ?_) fun hnext => ?_
  swap
  · exact Yields.pure (.nothing (by simpa using hnext))
  have hfree : next ≠ S2ib.selectValue := beq_eq_false_iff_ne.mp hfree
  refine Yields.bind ((doAuthentication_yields ssak s2ib.cardinality s).mono ?_)
  rintro result s₁ ⟨hasked, hsame⟩
  cases result with
  | error fault => exact .refused hfree hasked hsame nofun
  | ok state =>
    refine Yields.ite (fun hopened => ?_) fun hother => ?_
    · subst hopened
      have hmux₁ := hsame.mux hssak hmux
      refine yields_read (fun next' hread => ?_) fun fault hfault => ?_
      · obtain rfl := Except.ok.inj ((nextToSut_mux hmux₁).symm.trans hread)
        refine Yields.ite (fun _ => ?_) fun hsame => absurd hfree hsame
        exact (request_yields hmux₁ rfl).mono fun _ s' hrequest =>
          .granted hfree hasked hsame hrequest.2
      · cases (nextToSut_mux hmux₁).symm.trans hfault
    · exact Yields.pure (.refused hfree hasked hsame fun h => hother (Except.ok.inj h))

/-- `Deselect` does nothing when the segment is deselected. Otherwise it deselects it and closes the access. -/
inductive DeselectDone (s2ib : S2ib) (next last : Bits) (s : State) : State → Prop
  | nothing (hdeselected : next = S2ib.deSelectValue) : DeselectDone s2ib next last s s
  | closes {s₁ s' : State} (hrequest : Requested s2ib S2ib.deSelectValue last s s₁)
      (hmodel : s'.model = s₁.model) (hstate : s'.selectorState = s.selectorState)
      (hevents : s'.events = s.events ++ [.accessClosed]) : DeselectDone s2ib next last s s'

theorem deselect_yields (hmux : s.model.Mux s2ib.associatedRegister 1 next last) :
    Yields s2ib.deselect s fun _ s' => DeselectDone s2ib next last s s' := by
  refine yields_read (fun next' hread => ?_) fun fault hfault => ?_
  swap
  · cases (nextToSut_mux hmux).symm.trans hfault
  obtain rfl := Except.ok.inj ((nextToSut_mux hmux).symm.trans hread)
  refine Yields.ite (fun _ => ?_) fun hsame => Yields.pure (.nothing (not_not.mp hsame))
  refine Yields.bind ((request_yields hmux rfl).mono ?_)
  rintro result s₁ ⟨rfl, hrequest⟩
  refine .closes hrequest rfl hrequest.selectorState ?_
  change s₁.events ++ _ = _
  rw [hrequest.events]

end Calls

/-! ### Openings -/

/-- What a data cycle leaves alone in a register. -/
theorem afterCycle_keeps (r : Register) (received : Option Bits) :
    (r.afterCycle received).nextToSut = r.nextToSut ∧
      (r.afterCycle received).bypass = r.bypass ∧
      ((r.afterCycle received).lastToSut = r.lastToSut ∨
        (r.afterCycle received).lastToSut = r.nextToSut) := by
  cases received with
  | none => exact ⟨rfl, rfl, .inl rfl⟩
  | some bits =>
    unfold Register.afterCycle
    split
    · cases ‹some bits = none›
    · split
      · rename_i hset
        have hserved := FromSutUpdater.setFromSut_served hset
        exact ⟨hserved.nextToSut, hserved.bypass, .inr hserved.lastToSut⟩
      · exact ⟨rfl, rfl, .inl rfl⟩

theorem finalState_of_yields {α : Type} {s : State} {command : Command α} {post : State → Prop}
    (hyields : Yields command s fun _ s' => post s') : post (finalState s command) := by
  unfold finalState
  split
  · rename_i hrun
    exact hyields.of_ok hrun
  · rename_i hrun
    exact hyields.of_error hrun

namespace Network

variable (network : Network)

/-- What the selector register of a segment sends next. -/
def nextToSut (s : State) (i : Fin network.segments) : Bits :=
  (s.model.registers (network.s2ib i).associatedRegister).nextToSut

/-- The step makes the selector register of a segment send its select value. -/
def Opens (s : State) (step : Step network.segments) (i : Fin network.segments) : Prop :=
  network.nextToSut s i ≠ S2ib.selectValue ∧
    network.nextToSut (network.after s step) i = S2ib.selectValue

/-- A segment that the step opens has had its own run, with success, since the access was closed. -/
def OpensAuthenticated (s : State) (step : Step network.segments) : Prop :=
  ∀ i, network.Opens s step i →
    (network.s2ib i).cardinality ∈ (grants (network.after s step).events).granted

/-- A segment that is not selected is not asked for once the access is open, and when success has been received only the segment that the configuration names is. -/
def AsksInTurn (s : State) : Step network.segments → Prop
  | .select i => network.nextToSut s i ≠ S2ib.selectValue →
    s.selectorState ≠ .opened ∧ (s.selectorState = .authenticationCheck →
      lastFromSut network.ssak.muxRegisters s.model = .ok network.ssak.authenticationSuccess →
        (grants s.events).configured = some (network.s2ib i).cardinality)
  | _ => True

/-- All the steps of a run from a state, each in the state that those before it lead to. -/
def AllSteps (P : State → Step network.segments → Prop) : State → List (Step network.segments) → Prop
  | _, [] => True
  | s, step :: rest => P s step ∧ AllSteps P (network.after s step) rest

instance (s : State) (step : Step network.segments) :
    Decidable (network.OpensAuthenticated s step) :=
  inferInstanceAs (Decidable (∀ _, _ ∧ _ → _))

instance (s : State) : (step : Step network.segments) → Decidable (network.AsksInTurn s step)
  | .select _ => inferInstanceAs (Decidable (_ → _))
  | .deselect _ => inferInstanceAs (Decidable True)
  | .dataCycle _ => inferInstanceAs (Decidable True)

instance (P : State → Step network.segments → Prop) [∀ s step, Decidable (P s step)] (s : State)
    (steps : List (Step network.segments)) : Decidable (network.AllSteps P s steps) := by
  induction steps generalizing s with
  | nil => exact inferInstanceAs (Decidable True)
  | cons step rest ih => exact inferInstanceAs (Decidable (_ ∧ _))

/-- In every state of a run the selector registers have one bit, and the check of an authentication comes after a response. -/
structure Consistent (s : State) : Prop where
  mux (i : Fin network.segments) :
    ∃ next last, s.model.Mux (network.s2ib i).associatedRegister 1 next last
  responded : s.selectorState = .authenticationCheck → (grants s.events).responded = true

variable {network} {s : State}

theorem start_consistent : network.Consistent network.start where
  mux i := ⟨_, _, network.oneBit i, fun _ => rfl, rfl, rfl⟩
  responded := nofun

theorem not_mem_register {i j : Fin network.segments} (hne : j ≠ i) :
    (network.s2ib j).associatedRegister ∉ [(network.s2ib i).associatedRegister] := by
  intro hmem
  exact hne (network.register_injective j i (List.mem_singleton.mp hmem))

theorem nextToSut_same {regs : List Nat} {s s' : State} {i : Fin network.segments}
    (hsame : SameOutside regs s.model s'.model)
    (hreg : (network.s2ib i).associatedRegister ∉ regs) :
    network.nextToSut s' i = network.nextToSut s i :=
  congrArg Register.nextToSut (hsame _ hreg)

section Steps

variable {next last : Bits} {i : Fin network.segments}

theorem after_select (hmux : s.model.Mux (network.s2ib i).associatedRegister 1 next last) :
    SelectDone (network.s2ib i) network.ssak next last s (network.after s (.select i)) :=
  finalState_of_yields (select_yields hmux (network.not_ssak i))

theorem after_deselect (hmux : s.model.Mux (network.s2ib i).associatedRegister 1 next last) :
    DeselectDone (network.s2ib i) next last s (network.after s (.deselect i)) :=
  finalState_of_yields (deselect_yields hmux)

/-- A segment that is granted the access in turn has had its own run. -/
theorem granted_of_asksInTurn {s₁ : State} (hs : network.Consistent s)
    (hturn : network.AsksInTurn s (.select i)) (hfree : network.nextToSut s i ≠ S2ib.selectValue)
    (hasked : Authenticates network.ssak (network.s2ib i).cardinality s (.ok .opened) s₁) :
    (network.s2ib i).cardinality ∈ (grants s₁.events).granted := by
  obtain ⟨hclosed, hright⟩ := hturn hfree
  cases hasked with
  | waits hstate hevents hresult => exact absurd (hresult _ rfl).symm hclosed
  | readsSuccess hcheck hsuccess hstate hevents =>
    have hresponded := hs.responded hcheck
    rw [hevents, grants_append, Grants.after, hresponded, hright hcheck hsuccess]
    exact List.mem_cons_self

theorem select_authenticated (hs : network.Consistent s)
    (hturn : network.AsksInTurn s (.select i)) : network.OpensAuthenticated s (.select i) := by
  obtain ⟨next, last, hmux⟩ := hs.mux i
  have hnext : network.nextToSut s i = next := hmux.nextToSut
  rintro j ⟨hbefore, hafter⟩
  have hdone := after_select hmux
  revert hafter hdone
  generalize network.after s (.select i) = s'
  intro hafter hdone
  cases hdone with
  | nothing => exact absurd hafter hbefore
  | refused _ _ hsame _ =>
    rw [nextToSut_same hsame (network.not_ssak j)] at hafter
    exact absurd hafter hbefore
  | granted hfree hasked hsame hrequest =>
    by_cases hij : j = i
    · subst hij
      rw [hrequest.events]
      exact granted_of_asksInTurn hs hturn (hnext ▸ hfree) hasked
    · rw [nextToSut_same hrequest.same (not_mem_register hij),
        nextToSut_same hsame (network.not_ssak j)] at hafter
      exact absurd hafter hbefore

theorem deselect_authenticated (hs : network.Consistent s) :
    network.OpensAuthenticated s (.deselect i) := by
  obtain ⟨next, last, hmux⟩ := hs.mux i
  rintro j ⟨hbefore, hafter⟩
  have hdone := after_deselect hmux
  revert hafter hdone
  generalize network.after s (.deselect i) = s'
  intro hafter hdone
  cases hdone with
  | nothing => exact absurd hafter hbefore
  | closes hrequest hmodel _ _ =>
    by_cases hij : j = i
    · subst hij
      rw [nextToSut, hmodel, hrequest.mux.nextToSut] at hafter
      cases hafter
    · have hsame := hrequest.same
      rw [← hmodel] at hsame
      rw [nextToSut_same hsame (not_mem_register hij)] at hafter
      exact absurd hafter hbefore

theorem dataCycle_authenticated (received : Nat → Option Bits) :
    network.OpensAuthenticated s (.dataCycle received) := by
  rintro j ⟨hbefore, hafter⟩
  have hsame : network.nextToSut (network.after s (.dataCycle received)) j =
      network.nextToSut s j := (afterCycle_keeps _ _).1
  exact absurd (hsame.symm.trans hafter) hbefore

end Steps

/-! ### Every state of a run is consistent -/

theorem select_consistent (hs : network.Consistent s) (i : Fin network.segments) :
    network.Consistent (network.after s (.select i)) := by
  obtain ⟨next, last, hmux⟩ := hs.mux i
  have hdone := after_select hmux
  revert hdone
  generalize network.after s (.select i) = s'
  intro hdone
  have hother {s₁ : State} (hsame : SameOutside network.ssak.muxRegisters.identifiers s.model s₁.model)
      (j : Fin network.segments) :
      ∃ next last, s₁.model.Mux (network.s2ib j).associatedRegister 1 next last := by
    obtain ⟨next, last, hmux⟩ := hs.mux j
    exact ⟨next, last, hsame.mux (network.not_ssak j) hmux⟩
  cases hdone with
  | nothing => exact hs
  | refused _ hasked hsame hrefused =>
    refine ⟨hother hsame, fun hcheck => ?_⟩
    cases hasked with
    | waits hstate hevents _ =>
      rw [hevents]
      exact hs.responded (hstate ▸ hcheck)
    | sendsConfig _ hstate _ => cases hstate.symm.trans hcheck
    | sendsResponse _ _ hevents =>
      rw [hevents, grants_append]
      rfl
    | readsSuccess _ _ hstate _ => cases hstate.symm.trans hcheck
  | granted _ hasked hsame hrequest =>
    constructor
    · intro j
      by_cases hij : j = i
      · exact ⟨_, _, hij ▸ hrequest.mux⟩
      · obtain ⟨next, last, hmux⟩ := hother hsame j
        exact ⟨next, last, hrequest.same.mux (not_mem_register hij) hmux⟩
    · intro hcheck
      rw [hrequest.selectorState] at hcheck
      cases hasked with
      | waits hstate _ hresult => cases ((hresult _ rfl).trans hstate.symm).trans hcheck
      | readsSuccess _ _ hstate _ => cases hstate.symm.trans hcheck

theorem deselect_consistent (hs : network.Consistent s) (i : Fin network.segments) :
    network.Consistent (network.after s (.deselect i)) := by
  obtain ⟨next, last, hmux⟩ := hs.mux i
  have hdone := after_deselect hmux
  revert hdone
  generalize network.after s (.deselect i) = s'
  intro hdone
  cases hdone with
  | nothing => exact hs
  | closes hrequest hmodel hstate hevents =>
    constructor
    · intro j
      rw [hmodel]
      by_cases hij : j = i
      · exact ⟨_, _, hij ▸ hrequest.mux⟩
      · obtain ⟨next, last, hmux⟩ := hs.mux j
        exact ⟨next, last, hrequest.same.mux (not_mem_register hij) hmux⟩
    · intro hcheck
      rw [hevents, grants_append]
      exact hs.responded (hstate ▸ hcheck)

theorem dataCycle_consistent (hs : network.Consistent s) (received : Nat → Option Bits) :
    network.Consistent (network.after s (.dataCycle received)) := by
  refine ⟨fun j => ?_, hs.responded⟩
  obtain ⟨next, last, hmux⟩ := hs.mux j
  obtain ⟨hnext, hbypass, hlast⟩ :=
    afterCycle_keeps (s.model.registers (network.s2ib j).associatedRegister)
      (received (network.s2ib j).associatedRegister)
  refine ⟨next, _, ⟨?_, ?_, ?_⟩, fun _ => rfl, hnext.trans hmux.nextToSut, rfl⟩
  · exact (congrArg List.length hnext).trans hmux.hasWidth.nextToSut
  · rcases hlast with hlast | hlast
    · exact (congrArg List.length hlast).trans hmux.hasWidth.lastToSut
    · exact (congrArg List.length hlast).trans hmux.hasWidth.nextToSut
  · exact (congrArg List.length hbypass).trans hmux.hasWidth.bypass

theorem Consistent.after (hs : network.Consistent s) (step : Step network.segments) :
    network.Consistent (network.after s step) := by
  cases step with
  | select i => exact select_consistent hs i
  | deselect i => exact deselect_consistent hs i
  | dataCycle received => exact dataCycle_consistent hs received

theorem opensAuthenticated_of_asksInTurn (hs : network.Consistent s) {step : Step network.segments}
    (hturn : network.AsksInTurn s step) : network.OpensAuthenticated s step := by
  cases step with
  | select i => exact select_authenticated hs hturn
  | deselect i => exact deselect_authenticated hs
  | dataCycle received => exact dataCycle_authenticated received

theorem Consistent.opensAuthenticated {steps : List (Step network.segments)}
    (hs : network.Consistent s) (hturn : network.AllSteps network.AsksInTurn s steps) :
    network.AllSteps network.OpensAuthenticated s steps := by
  induction steps generalizing s with
  | nil => exact trivial
  | cons step rest ih =>
    obtain ⟨hfirst, hrest⟩ := hturn
    exact ⟨opensAuthenticated_of_asksInTurn hs hfirst, ih (hs.after step) hrest⟩

/-- A model of which the register of the shared selector has 128 bits and the others have one. -/
def twoSegmentsModel : SystemModel where
  identifierMapping := []
  registers id := .create "" (List.replicate (if id = 0 then 128 else 1) false) true .downto
  pendingCounts _ := 0
  iRunLoopCounts _ := 0

def twoSegments : Network where
  ssak := ⟨.ofRegister 0 128, 128, [], fun _ _ _ => 0⟩
  segments := 2
  s2ib i := ⟨i.val + 1, i.val + 1⟩
  model := twoSegmentsModel
  cardinality_injective _ _ h := Fin.ext (Nat.succ.inj h)
  register_injective _ _ h := Fin.ext (Nat.succ.inj h)
  not_ssak _ h := Nat.succ_ne_zero _ (List.mem_singleton.mp h)
  oneBit _ := ⟨rfl, rfl, rfl⟩

/-- The register of the shared selector receives a vector. -/
def receives (received : Bits) : Step twoSegments.segments :=
  .dataCycle fun id => if id = 0 then some received else none

/-- The first segment is asked for until its authentication succeeds. -/
def authenticatesFirst : List (Step twoSegments.segments) :=
  [.select ⟨0, by decide⟩, receives (List.replicate 128 false), .select ⟨0, by decide⟩,
    receives twoSegments.ssak.authenticationSuccess, .select ⟨0, by decide⟩]

end Network

end Ssak

end Mast
