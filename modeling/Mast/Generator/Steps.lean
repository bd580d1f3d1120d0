import Mast.Generator.Growth
import Mast.Generator.Wires

/-!
# Rounds of the walk along a wire

A round of the walk passes a register, enters an instance or leaves one. Each rule takes how the walk ends after the round to how it ends before.
-/

namespace Mast

namespace Generator

open Fuel Outcome Network

variable {n : Nat} {net : Network n} {s s' : State n} {m : Fin n} {signal : Signal}
  {σ : List Signal} {context : InstanceContext n} {rest : List (InstanceContext n)}
  {result : Except Fault (State n)}

namespace State

def Passed (s : State n) : Passage n → Prop
  | .register module name => (module, name) ∈ s.associatedRegisters
  | .output module name => (module, name) ∈ s.markedScanOutPorts

theorem assignNewNode_eq (hstack : s.instancesContext = context :: rest) (node : Node n) :
    ∃ s', s.assignNewNode node = .ok s' ∧ s.SameMarks s' ∧
      s.Assigned s' (!rest.isEmpty) context.parentNode node := by
  cases rest with
  | nil =>
    refine ⟨{ s with createdNodes := node :: s.createdNodes }, ?_, ⟨rfl, rfl, rfl, rfl⟩, rfl, rfl⟩
    rw [assignNewNode, hstack]
  | cons outer rest =>
    refine ⟨s.prependChild context.parentNode node, ?_, ⟨rfl, rfl, rfl, rfl⟩, rfl, rfl⟩
    rw [assignNewNode, hstack]

def entered (s : State n) (inst : Instance n) (scanOutPort : Port) (parentNode : Node n) :
    State n :=
  { s with
    markedScanOutPorts :=
      insert (inst.uniquifiedModule, scanOutPort.identifier.baseName) s.markedScanOutPorts
    instancesContext := ⟨some inst, inst.uniquifiedModule, parentNode⟩ :: s.instancesContext }

end State

def WalkEnds (net : Network n) (m : Fin n) (σ : List Signal) (s : State n)
    (result : Except Fault (State n)) : Prop :=
  Ends (fun fuel => net.followTopModulePath fuel m σ s) result

def RestEnds (net : Network n) (result : Except Fault (State n)) :
    Except Fault (ProcessingContext n × State n) → Prop
  | .error fault => result = .error fault
  | .ok (none, s) => result = .ok s
  | .ok (some (m, σ), s) => WalkEnds net m σ s result

theorem walkEnds_iff : WalkEnds net m σ s result ↔ RestEnds net result (net.followOnce m σ s) := by
  have hsucc (fuel : Nat) : net.followTopModulePath (fuel + 1) m σ s =
      match net.followOnce m σ s with
      | .error fault => some (.error fault)
      | .ok (none, s) => some (.ok s)
      | .ok (some (m, σ), s) => net.followTopModulePath fuel m σ s := rfl
  have hends : WalkEnds net m σ s result ↔
      Ends (fun fuel => net.followTopModulePath (fuel + 1) m σ s) result := by
    constructor
    · intro hends
      obtain ⟨enough, hends⟩ := hends
      exact ⟨enough, fun fuel hfuel => hends _ (Nat.le_succ_of_le hfuel)⟩
    · intro hends
      unfold WalkEnds
      exact Ends.succ hends
  rw [hends]
  cases hround : net.followOnce m σ s with
  | error fault =>
    simp only [hsucc, hround, RestEnds]
    exact ⟨fun hends => hends.unique (ends_some _), fun heq => heq ▸ ends_some _⟩
  | ok next =>
    obtain ⟨context, s'⟩ := next
    cases context with
    | none =>
      simp only [hsucc, hround, RestEnds]
      exact ⟨fun hends => hends.unique (ends_some _), fun heq => heq ▸ ends_some _⟩
    | some position =>
      simp only [hsucc, hround, RestEnds]
      exact Iff.rfl

theorem isSourcedByTopModuleInput_inside
    (hinside : isSourcedByModuleInput (net.modules m) σ = .ok none) :
    net.isSourcedByTopModuleInput m σ = .ok false := by
  unfold isSourcedByTopModuleInput
  split
  · rw [hinside]
    rfl
  · rfl

theorem followOnce_inside (hinside : isSourcedByModuleInput (net.modules m) [signal] = .ok none) :
    net.followOnce m [signal] s =
      net.processSource m signal s >>= fun next => net.arrive next.1 next.2 := by
  rw [followOnce, isSourcedByTopModuleInput_inside hinside]
  change (isSourcedByModuleInput (net.modules m) [signal] >>= _) = _
  rw [hinside]
  rfl

theorem followOnce_input {scanInPort : Port} (htop : m ≠ net.topModule)
    (hsourced : isSourcedByModuleInput (net.modules m) σ = .ok (some scanInPort)) :
    net.followOnce m σ s = processInstanceExit net scanInPort s := by
  obtain ⟨portName, isInverted, hsignal, -⟩ := isSourcedByModuleInput_some hsourced
  subst hsignal
  generalize Signal.port [] portName isInverted = signal at hsourced ⊢
  have hnotTop : net.isSourcedByTopModuleInput m [signal] = .ok false := by
    rw [isSourcedByTopModuleInput, if_neg htop]
  rw [followOnce, hnotTop]
  change (isSourcedByModuleInput (net.modules m) [signal] >>= _) = _
  rw [hsourced]
  rfl

theorem processInstanceExit_eq {inst : Instance n} {scanInPort input : Port}
    {outer : InstanceContext n} {outside : List Signal}
    (hstack : s.instancesContext = context :: outer :: rest) (hinst : context.inst = some inst)
    (hinput : inst.findInputPort scanInPort.identifier = some input)
    (houtside : input.source = some outside) :
    processInstanceExit net scanInPort s =
      .ok (some (outer.parentModule, outside), { s with instancesContext := outer :: rest }) := by
  simp only [processInstanceExit, hstack, hinst, hinput, houtside]

/-- The end of a round changes nothing for the rest of the walk. -/
theorem arrive_ends {scanInPort : Option Port}
    (hsourced : isSourcedByModuleInput (net.modules m) σ = .ok scanInPort)
    (hstack : s.instancesContext = context :: rest) (htop : rest ≠ [] → m ≠ net.topModule)
    (hends : WalkEnds net m σ s result) : RestEnds net result (net.arrive (some (m, σ)) s) := by
  cases scanInPort with
  | none =>
    have harrive : net.arrive (some (m, σ)) s = .ok (some (m, σ), s) := by
      rw [arrive, hsourced]
      rfl
    rw [harrive]
    exact hends
  | some scanInPort =>
    have harrive : net.arrive (some (m, σ)) s =
        if s.instancesContext.length > 1 then processInstanceExit net scanInPort s
        else .ok (some (m, σ), s) := by
      rw [arrive, hsourced]
      rfl
    rw [harrive]
    by_cases hdeep : s.instancesContext.length > 1
    · have hrest : rest ≠ [] := by
        intro hrest
        rw [hstack, hrest] at hdeep
        exact absurd hdeep (Nat.lt_irrefl 1)
      rw [if_pos hdeep, ← followOnce_input (htop hrest) hsourced]
      exact walkEnds_iff.mp hends
    · rw [if_neg hdeep]
      exact hends

/-! ### Rules -/

theorem walkEnds_register {scanRegister : ScanRegister} {bypassValue : Bits}
    {scanInPort : Option Port}
    (hinside : isSourcedByModuleInput (net.modules m) [signal] = .ok none)
    (hentity : net.sourceEntity (net.modules m) signal = .ok (.scanRegister scanRegister))
    (hsourced : isSourcedByModuleInput (net.modules m) scanRegister.scanInSource = .ok scanInPort)
    (hnew : (m, scanRegister.baseName) ∉ s.associatedRegisters)
    (hbypass : scanRegister.bypassValue = .ok bypassValue)
    (hstack : s.instancesContext = context :: rest) (htop : rest ≠ [] → m ≠ net.topModule) :
    ∃ s', State.SameMarks
        { s with associatedRegisters := insert (m, scanRegister.baseName) s.associatedRegisters }
        s' ∧
      s.Assigned s' (!rest.isEmpty) context.parentNode
        (.register m scanRegister.baseName bypassValue) ∧
      ∀ result, WalkEnds net m scanRegister.scanInSource s' result →
        WalkEnds net m [signal] s result := by
  obtain ⟨s', hassign, hmarks, hassigned⟩ := State.assignNewNode_eq
    (s := { s with
      associatedRegisters := insert (m, scanRegister.baseName) s.associatedRegisters })
    hstack (.register m scanRegister.baseName bypassValue)
  refine ⟨s', hmarks, ⟨hassigned.children, hassigned.createdNodes⟩, fun result hends => ?_⟩
  have hprocess : net.processSource m signal s = .ok (some (m, scanRegister.scanInSource), s') := by
    rw [processSource, hentity]
    change (if _ ∈ _ then _ else _) = _
    rw [if_neg hnew, processScanRegister, hbypass]
    change (State.assignNewNode _ _ >>= _) = _
    rw [hassign]
    rfl
  rw [walkEnds_iff, followOnce_inside hinside, hprocess]
  exact arrive_ends hsourced (hmarks.instancesContext.trans hstack) htop hends

theorem walkEnds_register_fails {scanRegister : ScanRegister} {fault : Fault}
    (hinside : isSourcedByModuleInput (net.modules m) [signal] = .ok none)
    (hentity : net.sourceEntity (net.modules m) signal = .ok (.scanRegister scanRegister))
    (hnew : (m, scanRegister.baseName) ∉ s.associatedRegisters)
    (hbypass : scanRegister.bypassValue = .error fault) :
    WalkEnds net m [signal] s (.error fault) := by
  have hprocess : net.processSource m signal s = .error fault := by
    rw [processSource, hentity]
    change (if _ ∈ _ then _ else _) = _
    rw [if_neg hnew, processScanRegister, hbypass]
    rfl
  rw [walkEnds_iff, followOnce_inside hinside, hprocess]
  exact rfl

/-- What the walk does on its way into an instance: for the first time it creates the chain. -/
inductive Enters (s : State n) (m : Fin n) (inst : Instance n) (deep : Bool)
    (parentNode : Node n) : State n → Node n → Prop
  | first {s' : State n} (hnew : (m, inst.name) ∉ s.associatedChains)
      (hassigned : s.Assigned s' deep parentNode (.chain m inst.name))
      (hmarks : State.SameMarks
        { s with associatedChains := insert (m, inst.name) s.associatedChains } s') :
      Enters s m inst deep parentNode s' (.chain m inst.name)
  | again (hold : (m, inst.name) ∈ s.associatedChains) :
      Enters s m inst deep parentNode s parentNode

theorem Enters.instancesContext {inst : Instance n} {deep : Bool} {parentNode inner : Node n}
    (henters : Enters s m inst deep parentNode s' inner) :
    s'.instancesContext = s.instancesContext := by
  cases henters with
  | first hnew hassigned hmarks => exact hmarks.instancesContext
  | again hold => rfl

theorem walkEnds_enter {inst : Instance n} {scanOutPort : Port} {inside : List Signal}
    {scanInPort : Option Port}
    (hinside : isSourcedByModuleInput (net.modules m) [signal] = .ok none)
    (hentity : net.sourceEntity (net.modules m) signal = .ok (.inst inst (some scanOutPort)))
    (hsource : scanOutPort.source = some inside)
    (hports : (net.modules inst.uniquifiedModule).scanInPorts ≠ [])
    (hnew : (inst.uniquifiedModule, scanOutPort.identifier.baseName) ∉ s.markedScanOutPorts)
    (hsourced :
      isSourcedByModuleInput (net.modules inst.uniquifiedModule) inside = .ok scanInPort)
    (hstack : s.instancesContext = context :: rest)
    (htop : inst.uniquifiedModule ≠ net.topModule) :
    ∃ s' parentNode, Enters s m inst (!rest.isEmpty) context.parentNode s' parentNode ∧
      ∀ result,
        WalkEnds net inst.uniquifiedModule inside (s'.entered inst scanOutPort parentNode) result →
          WalkEnds net m [signal] s result := by
  have hentry : net.processSource m signal s =
      net.processInstanceEntry m inst (some scanOutPort) s := by
    rw [processSource, hentity]
    rfl
  have hstep {s' : State n} {parentNode : Node n}
      (henter : net.processInstanceEntry m inst (some scanOutPort) s =
        .ok (some (inst.uniquifiedModule, inside), s'.entered inst scanOutPort parentNode))
      (result : Except Fault (State n))
      (hends : WalkEnds net inst.uniquifiedModule inside
        (s'.entered inst scanOutPort parentNode) result) : WalkEnds net m [signal] s result := by
    rw [walkEnds_iff, followOnce_inside hinside, hentry, henter]
    exact arrive_ends hsourced rfl (fun _ => htop) hends
  by_cases hchain : (m, inst.name) ∈ s.associatedChains
  · refine ⟨s, context.parentNode, .again hchain, hstep ?_⟩
    rw [processInstanceEntry, if_neg hports]
    simp [hchain, isScanOutPortMarked, hnew, enterInstance, hsource, State.entered, hstack]
  · obtain ⟨s', hassign, hmarks, hassigned⟩ := State.assignNewNode_eq
      (s := { s with associatedChains := insert (m, inst.name) s.associatedChains })
      hstack (.chain m inst.name)
    refine ⟨s', .chain m inst.name,
      .first hchain ⟨hassigned.children, hassigned.createdNodes⟩ hmarks, hstep ?_⟩
    rw [processInstanceEntry, if_neg hports]
    rw [hstack] at hassign
    simp only [hstack, hchain, not_false_eq_true, if_true]
    rw [hassign]
    change enterInstance inst (some scanOutPort) (.chain m inst.name) s' = _
    simp only [enterInstance, hsource, State.entered]

theorem walkEnds_leave {inst : Instance n} {scanInPort input : Port} {outer : InstanceContext n}
    {outside : List Signal} (htop : m ≠ net.topModule)
    (hsourced : isSourcedByModuleInput (net.modules m) σ = .ok (some scanInPort))
    (hstack : s.instancesContext = context :: outer :: rest) (hinst : context.inst = some inst)
    (hinput : inst.findInputPort scanInPort.identifier = some input)
    (houtside : input.source = some outside)
    (hends : WalkEnds net outer.parentModule outside
      { s with instancesContext := outer :: rest } result) : WalkEnds net m σ s result := by
  rw [walkEnds_iff, followOnce_input htop hsourced,
    processInstanceExit_eq hstack hinst hinput houtside]
  exact hends

theorem walkEnds_top {scanInPort : Port}
    (hsourced : isSourcedByModuleInput (net.modules net.topModule) σ = .ok (some scanInPort)) :
    WalkEnds net net.topModule σ s (.ok s) := by
  obtain ⟨portName, isInverted, hsignal, -⟩ := isSourcedByModuleInput_some hsourced
  subst hsignal
  generalize Signal.port [] portName isInverted = signal at hsourced ⊢
  have htop : net.isSourcedByTopModuleInput net.topModule [signal] = .ok true := by
    rw [isSourcedByTopModuleInput, if_pos rfl, hsourced]
    rfl
  rw [walkEnds_iff, followOnce, htop]
  exact rfl

end Generator

end Mast
