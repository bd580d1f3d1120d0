import Mast.Generator.Ends
import Mast.Lib.EndingPaths

/-!
# The wires of a network

A wire of a module is followed from its end backwards to a ScanInPort of the module: through its scan registers, and through instances from one of their outputs to one of their inputs. In a uniquified network a wire passes no register twice, and no output of an instance.
-/

namespace Mast

namespace Generator

open EndingPaths

variable {n : Nat} {net : Network n} {m m' : Fin n} {signal : Signal} {σ σ' : List Signal}

/-- What a wire passes, its end first. -/
inductive Trace (n : Nat)
  | nil
  | register (module : Fin n) (scanRegister : ScanRegister) (rest : Trace n)
  | crossing (module : Fin n) (inst : Instance n) (scanOutPort : Port) (inner rest : Trace n)

def Trace.registers : Trace n → List (Fin n × ScanRegister)
  | .nil => []
  | .register module scanRegister rest => (module, scanRegister) :: rest.registers
  | .crossing _ _ _ inner rest => inner.registers ++ rest.registers

/-- From the signals in the module, the wire leads back to the ScanInPort. -/
inductive Wire (net : Network n) : Fin n → List Signal → Trace n → Port → Prop
  | scanIn {m : Fin n} {σ : List Signal} {scanInPort : Port}
      (hsourced : isSourcedByModuleInput (net.modules m) σ = .ok (some scanInPort)) :
      Wire net m σ .nil scanInPort
  | register {m : Fin n} {signal : Signal} {scanRegister : ScanRegister} {rest : Trace n}
      {scanInPort : Port} (hinside : isSourcedByModuleInput (net.modules m) [signal] = .ok none)
      (hentity : net.sourceEntity (net.modules m) signal = .ok (.scanRegister scanRegister))
      (hrest : Wire net m scanRegister.scanInSource rest scanInPort) :
      Wire net m [signal] (.register m scanRegister rest) scanInPort
  | crossing {m : Fin n} {signal : Signal} {inst : Instance n}
      {scanOutPort inner input scanInPort : Port} {inside outside : List Signal}
      {through rest : Trace n}
      (hinside : isSourcedByModuleInput (net.modules m) [signal] = .ok none)
      (hentity : net.sourceEntity (net.modules m) signal = .ok (.inst inst (some scanOutPort)))
      (hsource : scanOutPort.source = some inside)
      (hthrough : Wire net inst.uniquifiedModule inside through inner)
      (hinput : inst.findInputPort inner.identifier = some input)
      (houtside : input.source = some outside) (hrest : Wire net m outside rest scanInPort) :
      Wire net m [signal] (.crossing m inst scanOutPort through rest) scanInPort

/-- A passage that the walk marks: of a register, or into an instance by the module and the output. -/
inductive Passage (n : Nat)
  | register (module : Fin n) (name : String)
  | output (module : Fin n) (name : String)
  deriving DecidableEq

def Trace.passages : Trace n → List (Passage n)
  | .nil => []
  | .register module scanRegister rest =>
    .register module scanRegister.baseName :: rest.passages
  | .crossing _ inst scanOutPort inner rest =>
    .output inst.uniquifiedModule scanOutPort.identifier.baseName ::
      (inner.passages ++ rest.passages)

/-! ### The way back -/

abbrev Position (n : Nat) := Fin n × List Signal

/-- A step backwards along a wire. An input of a module is left into the module that the instance is in. -/
inductive StepsBack (net : Network n) : Position n → Option (Passage n) → Position n → Prop
  | register {m : Fin n} {signal : Signal} {scanRegister : ScanRegister}
      (hinside : isSourcedByModuleInput (net.modules m) [signal] = .ok none)
      (hentity : net.sourceEntity (net.modules m) signal = .ok (.scanRegister scanRegister)) :
      StepsBack net (m, [signal]) (some (.register m scanRegister.baseName))
        (m, scanRegister.scanInSource)
  | enter {m : Fin n} {signal : Signal} {inst : Instance n} {scanOutPort : Port}
      {inside : List Signal}
      (hinside : isSourcedByModuleInput (net.modules m) [signal] = .ok none)
      (hentity : net.sourceEntity (net.modules m) signal = .ok (.inst inst (some scanOutPort)))
      (hsource : scanOutPort.source = some inside) :
      StepsBack net (m, [signal])
        (some (.output inst.uniquifiedModule scanOutPort.identifier.baseName))
        (inst.uniquifiedModule, inside)
  | leave {m : Fin n} {σ : List Signal} {inst : Instance n} {inner input : Port}
      {outside : List Signal}
      (hsourced : isSourcedByModuleInput (net.modules inst.uniquifiedModule) σ = .ok (some inner))
      (hinst : inst ∈ (net.modules m).instances)
      (hinput : inst.findInputPort inner.identifier = some input)
      (houtside : input.source = some outside) :
      StepsBack net (inst.uniquifiedModule, σ) none (m, outside)

theorem StepsBack.unique (huniquified : net.Uniquified) {p q q' : Position n}
    {passage passage' : Option (Passage n)} (hstep : StepsBack net p passage q)
    (hstep' : StepsBack net p passage' q') : passage = passage' ∧ q = q' := by
  generalize hp : p = p' at hstep'
  cases hstep with
  | register hinside hentity =>
    cases hstep' with
    | register hinside' hentity' =>
      obtain ⟨rfl, hsignal⟩ := Prod.mk.inj hp
      obtain ⟨rfl, -⟩ := List.cons.inj hsignal
      cases hentity.symm.trans hentity'
      exact ⟨rfl, rfl⟩
    | enter hinside' hentity' hsource' =>
      obtain ⟨rfl, hsignal⟩ := Prod.mk.inj hp
      obtain ⟨rfl, -⟩ := List.cons.inj hsignal
      cases hentity.symm.trans hentity'
    | leave hsourced' hinst' hinput' houtside' =>
      obtain ⟨rfl, rfl⟩ := Prod.mk.inj hp
      cases hinside.symm.trans hsourced'
  | enter hinside hentity hsource =>
    cases hstep' with
    | register hinside' hentity' =>
      obtain ⟨rfl, hsignal⟩ := Prod.mk.inj hp
      obtain ⟨rfl, -⟩ := List.cons.inj hsignal
      cases hentity.symm.trans hentity'
    | enter hinside' hentity' hsource' =>
      obtain ⟨rfl, hsignal⟩ := Prod.mk.inj hp
      obtain ⟨rfl, -⟩ := List.cons.inj hsignal
      cases hentity.symm.trans hentity'
      cases hsource.symm.trans hsource'
      exact ⟨rfl, rfl⟩
    | leave hsourced' hinst' hinput' houtside' =>
      obtain ⟨rfl, rfl⟩ := Prod.mk.inj hp
      cases hinside.symm.trans hsourced'
  | leave hsourced hinst hinput houtside =>
    cases hstep' with
    | register hinside' hentity' =>
      obtain ⟨rfl, rfl⟩ := Prod.mk.inj hp
      cases hinside'.symm.trans hsourced
    | enter hinside' hentity' hsource' =>
      obtain ⟨rfl, rfl⟩ := Prod.mk.inj hp
      cases hinside'.symm.trans hsourced
    | leave hsourced' hinst' hinput' houtside' =>
      obtain ⟨hmodule, rfl⟩ := Prod.mk.inj hp
      obtain ⟨rfl, rfl⟩ := huniquified.unique hinst hinst' hmodule
      cases hsourced.symm.trans hsourced'
      cases hinput.symm.trans hinput'
      cases houtside.symm.trans houtside'
      exact ⟨rfl, rfl⟩

theorem find?_own {α : Type*} {nameOf : α → String} {name : String} {l : List α} {a : α}
    (hfound : l.find? (fun b => nameOf b = name) = some a) :
    l.find? (fun b => nameOf b = nameOf a) = some a := by
  have hname := List.find?_some hfound
  rwa [of_decide_eq_true hname]

theorem Network.sourceEntity_findScanRegister {module : Module n} {scanRegister : ScanRegister}
    (hentity : net.sourceEntity module signal = .ok (.scanRegister scanRegister)) :
    module.scanRegisters.find? (fun r => r.baseName = scanRegister.baseName) =
      some scanRegister := by
  obtain ⟨identifier, hfound⟩ := sourceEntity_scanRegister hentity
  have hfound : module.scanRegisters.find? (fun r => r.baseName = identifier.baseName) =
      some scanRegister := hfound
  exact find?_own hfound

theorem Network.sourceEntity_findScanOutPort {module : Module n} {inst : Instance n} {port : Port}
    (hentity : net.sourceEntity module signal = .ok (.inst inst (some port))) :
    (net.modules inst.uniquifiedModule).scanOutPorts.find?
      (fun p => p.identifier.baseName = port.identifier.baseName) = some port := by
  obtain ⟨-, ⟨port', hports, hport⟩ | ⟨identifier, hfound⟩⟩ := sourceEntity_inst hentity
  · obtain rfl := Option.some.inj hport
    rw [hports]
    simp
  · have hfound : (net.modules inst.uniquifiedModule).scanOutPorts.find?
        (fun p => p.identifier.baseName = identifier.baseName) = some port := hfound
    exact find?_own hfound

theorem StepsBack.target {p p' q q' : Position n} {passage : Passage n}
    (hstep : StepsBack net p (some passage) q) (hstep' : StepsBack net p' (some passage) q') :
    q = q' := by
  generalize hlabel : some passage = label at hstep hstep'
  cases hstep with
  | leave hsourced hinst hinput houtside => cases hlabel
  | register hinside hentity =>
    obtain rfl := Option.some.inj hlabel
    generalize hlabel' : some (Passage.register _ _) = label at hstep'
    cases hstep' with
    | leave hsourced hinst hinput houtside => cases hlabel'
    | enter hinside' hentity' hsource' => cases hlabel'
    | register hinside' hentity' =>
      obtain ⟨rfl, hname⟩ := Passage.register.inj (Option.some.inj hlabel')
      have hfound := Network.sourceEntity_findScanRegister hentity
      rw [hname, Network.sourceEntity_findScanRegister hentity'] at hfound
      cases hfound
      rfl
  | enter hinside hentity hsource =>
    obtain rfl := Option.some.inj hlabel
    generalize hlabel' : some (Passage.output _ _) = label at hstep'
    cases hstep' with
    | leave hsourced hinst hinput houtside => cases hlabel'
    | register hinside' hentity' => cases hlabel'
    | enter hinside' hentity' hsource' =>
      obtain ⟨hmodule, hname⟩ := Passage.output.inj (Option.some.inj hlabel')
      have hfound := Network.sourceEntity_findScanOutPort hentity
      rw [hmodule, hname, Network.sourceEntity_findScanOutPort hentity'] at hfound
      cases hfound
      cases hsource.symm.trans hsource'
      rw [hmodule]

theorem nodup_passages (huniquified : net.Uniquified) {stop : Position n → Prop}
    (hended : ∀ {p q : Position n} {passage : Option (Passage n)}, stop p →
      ¬StepsBack net p passage q) {p : Position n} {passages : List (Passage n)}
    (hpath : Path (StepsBack net) stop p passages) : passages.Nodup := by
  apply hpath.nodup
  · constructor
    · intro p q q' passage passage' hstep hstep'
      exact hstep.unique huniquified hstep'
    · exact hended
  · intro p p' q q' passage hstep hstep'
    exact hstep.target hstep'

/-! ### Wires of the top module -/

def AtTopInput (net : Network n) (p : Position n) : Prop :=
  p.1 = net.topModule ∧
    ∃ scanInPort, isSourcedByModuleInput (net.modules p.1) p.2 = .ok (some scanInPort)

theorem AtTopInput.ended (huniquified : net.Uniquified) {p q : Position n}
    {passage : Option (Passage n)} (hstop : AtTopInput net p) : ¬StepsBack net p passage q := by
  intro hstep
  obtain ⟨htop, scanInPort, hsourced⟩ := hstop
  cases hstep with
  | register hinside hentity => cases hinside.symm.trans hsourced
  | enter hinside hentity hsource => cases hinside.symm.trans hsourced
  | leave hsourced' hinst hinput houtside => exact huniquified.top hinst htop

/-- The way back along a wire goes on where its input leads. -/
theorem Wire.path {stop : Position n → Prop} {trace : Trace n} {scanInPort : Port}
    (hwire : Wire net m σ trace scanInPort) {passages : List (Passage n)}
    (hon : ∀ σ', isSourcedByModuleInput (net.modules m) σ' = .ok (some scanInPort) →
      Path (StepsBack net) stop (m, σ') passages) :
    Path (StepsBack net) stop (m, σ) (trace.passages ++ passages) := by
  induction hwire generalizing passages with
  | scanIn hsourced => exact hon _ hsourced
  | register hinside hentity _ ih => exact .step (.register hinside hentity) (ih hon)
  | crossing hinside hentity hsource _ hinput houtside _ ihthrough ih =>
    rw [Trace.passages, List.cons_append, List.append_assoc]
    refine .step (.enter hinside hentity hsource) (ihthrough fun σ' hsourced => ?_)
    exact .step (.leave hsourced (Network.sourceEntity_inst hentity).1 hinput houtside) (ih hon)

theorem Wire.nodup_passages (huniquified : net.Uniquified) {trace : Trace n} {scanInPort : Port}
    (hwire : Wire net net.topModule σ trace scanInPort) : trace.passages.Nodup := by
  have hpath : Path (StepsBack net) (AtTopInput net) (net.topModule, σ)
      (trace.passages ++ []) :=
    hwire.path fun σ' hsourced => .stop ⟨rfl, scanInPort, hsourced⟩
  rw [List.append_nil] at hpath
  exact Generator.nodup_passages huniquified (fun hstop => hstop.ended huniquified) hpath

end Generator

end Mast
