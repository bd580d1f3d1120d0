import Mast.Generator.Walk
import Mast.Lib.Outcome
import Mathlib.Data.Finset.Card
import Mathlib.Data.Finset.SDiff
import Mathlib.Data.Finset.Union
import Mathlib.Data.Fintype.Basic

/-!
# The generation always ends

Every round of the walk associates a register, enters an instance through a new port or for the first time, or leaves one. The elements of a network that are not marked yet, counted twice, and the contexts on the stack become fewer with every round, whatever the sources of the network are connected to.
-/

namespace Mast

namespace Generator

open Fuel Outcome

variable {n : Nat} {net : Network n} {s s' : State n} {m : Fin n} {signal : Signal}
  {σ : List Signal} {context : ProcessingContext n}

/-! ### What the searches find -/

theorem isSourcedByModuleInput_some {module : Module n} {port : Port}
    (hsourced : isSourcedByModuleInput module σ = .ok (some port)) :
    ∃ portName isInverted, σ = [.port [] portName isInverted] ∧ port ∈ module.scanInPorts := by
  unfold isSourcedByModuleInput at hsourced
  split at hsourced
  · cases hsourced
  · rename_i portScope portName isInverted
    split at hsourced
    · cases hsourced
    · rename_i hscope
      obtain rfl := not_not.mp hscope
      exact ⟨portName, isInverted, rfl, List.mem_of_find?_eq_some (Except.ok.inj hsourced)⟩
  · cases hsourced

namespace Network

theorem sourceEntity_scanRegister {module : Module n} {scanRegister : ScanRegister}
    (hentity : net.sourceEntity module signal = .ok (.scanRegister scanRegister)) :
    ∃ identifier, module.findScanRegister identifier = some scanRegister := by
  unfold sourceEntity at hentity
  split at hentity
  · cases hentity
  · rename_i identifier _
    split at hentity
    · rename_i hfound
      cases hentity
      exact ⟨identifier, hfound⟩
    · split at hentity
      · cases hentity
      · split at hentity <;> cases hentity
  · split at hentity <;> cases hentity
  · cases hentity

theorem sourceEntity_inst {module : Module n} {inst : Instance n} {scanOutPort : Option Port}
    (hentity : net.sourceEntity module signal = .ok (.inst inst scanOutPort)) :
    inst ∈ module.instances ∧
      ((∃ port, (net.modules inst.uniquifiedModule).scanOutPorts = [port] ∧
          scanOutPort = some port) ∨
        ∃ identifier,
          (net.modules inst.uniquifiedModule).findScanOutPort identifier = scanOutPort) := by
  unfold sourceEntity at hentity
  split at hentity
  · cases hentity
  · split at hentity
    · cases hentity
    · split at hentity
      · cases hentity
      · rename_i hfound
        split at hentity
        · rename_i port hports
          cases hentity
          exact ⟨List.mem_of_find?_eq_some hfound, .inl ⟨port, hports, rfl⟩⟩
        · cases hentity
  · rename_i identifier _
    split at hentity
    · cases hentity
    · rename_i hfound
      cases hentity
      exact ⟨List.mem_of_find?_eq_some hfound, .inr ⟨identifier, rfl⟩⟩
  · cases hentity

theorem sourceEntity_port {module : Module n} {inst : Instance n} {port : Port}
    (hentity : net.sourceEntity module signal = .ok (.inst inst (some port))) :
    port ∈ (net.modules inst.uniquifiedModule).scanOutPorts := by
  obtain ⟨-, ⟨port', hports, heq⟩ | ⟨identifier, hfound⟩⟩ := sourceEntity_inst hentity
  · rw [hports, Option.some.inj heq]
    exact List.mem_singleton_self _
  · exact List.mem_of_find?_eq_some hfound

end Network

/-! ### What the operations change -/

structure State.SameMarks (s s' : State n) : Prop where
  instancesContext : s'.instancesContext = s.instancesContext
  associatedRegisters : s'.associatedRegisters = s.associatedRegisters
  associatedChains : s'.associatedChains = s.associatedChains
  markedScanOutPorts : s'.markedScanOutPorts = s.markedScanOutPorts

theorem State.assignNewNode_marks {node : Node n} (hassign : s.assignNewNode node = .ok s') :
    s.SameMarks s' := by
  unfold assignNewNode at hassign
  split at hassign
  · cases hassign
  · cases hassign
    exact ⟨rfl, rfl, rfl, rfl⟩
  · cases hassign
    exact ⟨rfl, rfl, rfl, rfl⟩

theorem processInstanceExit_ok {port : Port}
    (hexit : processInstanceExit net port s = .ok (context, s')) :
    ∃ left rest, s.instancesContext = left :: rest ∧ rest ≠ [] ∧
      s' = { s with instancesContext := rest } := by
  unfold processInstanceExit at hexit
  cases hstack : s.instancesContext with
  | nil =>
    rw [hstack] at hexit
    cases hexit
  | cons left rest =>
    rw [hstack] at hexit
    simp only at hexit
    refine ⟨left, rest, rfl, ?_⟩
    split at hexit
    · cases hexit
    · split at hexit
      · split at hexit
        · cases hexit
        · split at hexit
          · cases hexit
          · rename_i hrest
            cases hexit
            exact ⟨hrest, rfl⟩
      · split at hexit
        · cases hexit
        · cases hexit
        · cases hexit
          exact ⟨List.cons_ne_nil _ _, rfl⟩

theorem processScanRegister_ok {scanRegister : ScanRegister}
    (hprocess : processScanRegister m scanRegister s = .ok (context, s')) :
    ∃ bypassValue, scanRegister.bypassValue = .ok bypassValue ∧
      State.assignNewNode
        { s with
          associatedRegisters := insert (m, scanRegister.baseName) s.associatedRegisters }
        (.register m scanRegister.baseName bypassValue) = .ok s' ∧
      context = some (m, scanRegister.scanInSource) := by
  obtain ⟨bypassValue, hbypass, hprocess⟩ := bind_eq_ok.mp hprocess
  obtain ⟨s'', hassign, hprocess⟩ := bind_eq_ok.mp hprocess
  cases hprocess
  exact ⟨bypassValue, hbypass, hassign, rfl⟩

namespace Network

theorem enterInstance_ok {inst : Instance n} {scanOutPort : Option Port} {parentNode : Node n}
    (henter : enterInstance inst scanOutPort parentNode s = .ok (context, s')) :
    ∃ port sourceSignals, scanOutPort = some port ∧ port.source = some sourceSignals ∧
      context = some (inst.uniquifiedModule, sourceSignals) ∧
      s' = { s with
        markedScanOutPorts :=
          insert (inst.uniquifiedModule, port.identifier.baseName) s.markedScanOutPorts
        instancesContext :=
          ⟨some inst, inst.uniquifiedModule, parentNode⟩ :: s.instancesContext } := by
  unfold enterInstance at henter
  split at henter
  · cases henter
  · split at henter
    · cases henter
    · rename_i hsource
      cases henter
      exact ⟨_, _, rfl, hsource, rfl, rfl⟩

/-- An instance is entered for the first time, with a chain of its own, or through a port that was not marked, with the parent node of the context. -/
theorem processInstanceEntry_ok {inst : Instance n} {scanOutPort : Option Port}
    (hentry : net.processInstanceEntry m inst scanOutPort s = .ok (context, s')) :
    (net.modules inst.uniquifiedModule).scanInPorts ≠ [] ∧
      ((∃ s'', (m, inst.name) ∉ s.associatedChains ∧
          State.assignNewNode
            { s with associatedChains := insert (m, inst.name) s.associatedChains }
            (.chain m inst.name) = .ok s'' ∧
          enterInstance inst scanOutPort (.chain m inst.name) s'' = .ok (context, s')) ∨
        ∃ outer rest, s.instancesContext = outer :: rest ∧ (m, inst.name) ∈ s.associatedChains ∧
          isScanOutPortMarked inst.uniquifiedModule scanOutPort s = false ∧
          enterInstance inst scanOutPort outer.parentNode s = .ok (context, s')) := by
  unfold processInstanceEntry at hentry
  by_cases hports : (net.modules inst.uniquifiedModule).scanInPorts = []
  · rw [if_pos hports] at hentry
    cases hentry
  · rw [if_neg hports] at hentry
    refine ⟨hports, ?_⟩
    cases hstack : s.instancesContext with
    | nil =>
      simp only [hstack] at hentry
      cases hentry
    | cons outer rest =>
      simp only [hstack] at hentry
      by_cases hchain : (m, inst.name) ∉ s.associatedChains
      · rw [if_pos hchain] at hentry
        obtain ⟨s'', hassign, henter⟩ := bind_eq_ok.mp hentry
        exact .inl ⟨s'', hchain, hassign, henter⟩
      · rw [if_neg hchain] at hentry
        split at hentry
        · cases hentry
        · rename_i hmarked
          exact .inr ⟨outer, rest, rfl, not_not.mp hchain, Bool.not_eq_true _ ▸ hmarked, hentry⟩

theorem arrive_ok {context' : ProcessingContext n}
    (harrive : net.arrive context s = .ok (context', s')) :
    s' = s ∨ ∃ left rest, s.instancesContext = left :: rest ∧ rest ≠ [] ∧
      s' = { s with instancesContext := rest } := by
  unfold arrive at harrive
  split at harrive
  · cases harrive
    exact .inl rfl
  · obtain ⟨port, -, harrive⟩ := bind_eq_ok.mp harrive
    cases port with
    | none =>
      cases harrive
      exact .inl rfl
    | some port =>
      simp only at harrive
      split at harrive
      · exact .inr (processInstanceExit_ok harrive)
      · cases harrive
        exact .inl rfl

/-! ### The measure -/

def registerKeys (net : Network n) : Finset (Fin n × String) :=
  Finset.univ.biUnion fun m =>
    ((net.modules m).scanRegisters.map fun scanRegister => (m, scanRegister.baseName)).toFinset

def portKeys (net : Network n) : Finset (Fin n × String) :=
  Finset.univ.biUnion fun m =>
    ((net.modules m).scanOutPorts.map fun port => (m, port.identifier.baseName)).toFinset

def chainKeys (net : Network n) : Finset (Fin n × String) :=
  Finset.univ.biUnion fun m =>
    ((net.modules m).instances.map fun inst => (m, inst.name)).toFinset

theorem mem_registerKeys {scanRegister : ScanRegister}
    (hmem : scanRegister ∈ (net.modules m).scanRegisters) :
    (m, scanRegister.baseName) ∈ net.registerKeys :=
  Finset.mem_biUnion.mpr ⟨m, Finset.mem_univ m, by simpa using ⟨scanRegister, hmem, rfl⟩⟩

theorem mem_portKeys {port : Port} (hmem : port ∈ (net.modules m).scanOutPorts) :
    (m, port.identifier.baseName) ∈ net.portKeys :=
  Finset.mem_biUnion.mpr ⟨m, Finset.mem_univ m, by simpa using ⟨port, hmem, rfl⟩⟩

theorem mem_chainKeys {inst : Instance n} (hmem : inst ∈ (net.modules m).instances) :
    (m, inst.name) ∈ net.chainKeys :=
  Finset.mem_biUnion.mpr ⟨m, Finset.mem_univ m, by simpa using ⟨inst, hmem, rfl⟩⟩

def unmarked (net : Network n) (s : State n) : Nat :=
  (net.registerKeys \ s.associatedRegisters).card +
    (net.portKeys \ s.markedScanOutPorts).card + (net.chainKeys \ s.associatedChains).card

def measure (net : Network n) (s : State n) : Nat :=
  2 * net.unmarked s + s.instancesContext.length

theorem card_sdiff_insert_lt {keys marked : Finset (Fin n × String)} {key : Fin n × String}
    (hkey : key ∈ keys) (hnew : key ∉ marked) :
    (keys \ insert key marked).card < (keys \ marked).card := by
  apply Finset.card_lt_card
  refine Finset.ssubset_iff_of_subset
    (Finset.sdiff_subset_sdiff (Finset.Subset.refl _) (Finset.subset_insert _ _)) |>.mpr ?_
  exact ⟨key, Finset.mem_sdiff.mpr ⟨hkey, hnew⟩, fun hmem =>
    (Finset.mem_sdiff.mp hmem).2 (Finset.mem_insert_self _ _)⟩

theorem card_sdiff_insert_le (keys marked : Finset (Fin n × String)) (key : Fin n × String) :
    (keys \ insert key marked).card ≤ (keys \ marked).card :=
  Finset.card_le_card (Finset.sdiff_subset_sdiff (Finset.Subset.refl _) (Finset.subset_insert _ _))

theorem unmarked_congr (hsame : s.SameMarks s') : net.unmarked s' = net.unmarked s := by
  unfold unmarked
  rw [hsame.associatedRegisters, hsame.associatedChains, hsame.markedScanOutPorts]

theorem enterInstance_unmarked {inst : Instance n} {scanOutPort : Option Port}
    {parentNode : Node n}
    (henter : enterInstance inst scanOutPort parentNode s = .ok (context, s')) :
    net.unmarked s' ≤ net.unmarked s ∧
      s'.instancesContext.length = s.instancesContext.length + 1 := by
  obtain ⟨port, sourceSignals, -, -, -, rfl⟩ := enterInstance_ok henter
  have hports := card_sdiff_insert_le net.portKeys s.markedScanOutPorts
    (inst.uniquifiedModule, port.identifier.baseName)
  refine ⟨?_, rfl⟩
  unfold unmarked
  simp only
  omega

theorem processSource_measure (hprocess : net.processSource m signal s = .ok (context, s')) :
    context = none ∨ net.measure s' < net.measure s := by
  obtain ⟨entity, hentity, hprocess⟩ := bind_eq_ok.mp hprocess
  unfold measure
  cases entity with
  | scanRegister scanRegister =>
    simp only at hprocess
    by_cases hseen : (m, scanRegister.baseName) ∈ s.associatedRegisters
    · rw [if_pos hseen] at hprocess
      cases hprocess
      exact .inl rfl
    · rw [if_neg hseen] at hprocess
      obtain ⟨bypassValue, -, hassign, -⟩ := processScanRegister_ok hprocess
      obtain ⟨identifier, hfound⟩ := sourceEntity_scanRegister hentity
      have hmarks := State.assignNewNode_marks hassign
      have hkey : (m, scanRegister.baseName) ∈ net.registerKeys :=
        mem_registerKeys (List.mem_of_find?_eq_some hfound)
      have hcard := card_sdiff_insert_lt hkey hseen
      have hstack := congrArg List.length hmarks.instancesContext
      refine .inr ?_
      rw [unmarked_congr hmarks]
      unfold unmarked
      simp only at hstack ⊢
      omega
  | inst inst scanOutPort =>
    obtain ⟨-, ⟨s'', hnew, hassign, henter⟩ | ⟨outer, rest, -, -, hmarked, henter⟩⟩ :=
      processInstanceEntry_ok hprocess
    · have hmarks := State.assignNewNode_marks hassign
      have hkey : (m, inst.name) ∈ net.chainKeys := mem_chainKeys (sourceEntity_inst hentity).1
      have hcard := card_sdiff_insert_lt hkey hnew
      have hstack := congrArg List.length hmarks.instancesContext
      obtain ⟨hunmarked, hlength⟩ : net.unmarked s' ≤ net.unmarked s'' ∧
        s'.instancesContext.length = s''.instancesContext.length + 1 :=
        enterInstance_unmarked henter
      rw [unmarked_congr hmarks] at hunmarked
      unfold unmarked at hunmarked ⊢
      simp only at hstack hunmarked
      refine .inr ?_
      omega
    · obtain ⟨port, sourceSignals, rfl, -, -, rfl⟩ := enterInstance_ok henter
      have hnew : (inst.uniquifiedModule, port.identifier.baseName) ∉ s.markedScanOutPorts := by
        simpa [isScanOutPortMarked] using hmarked
      have hkey : (inst.uniquifiedModule, port.identifier.baseName) ∈ net.portKeys :=
        mem_portKeys (sourceEntity_port hentity)
      have hcard := card_sdiff_insert_lt hkey hnew
      refine .inr ?_
      unfold unmarked
      simp only [List.length_cons]
      omega

theorem exit_measure {left : InstanceContext n} {rest : List (InstanceContext n)}
    (hstack : s.instancesContext = left :: rest) :
    net.measure { s with instancesContext := rest } < net.measure s := by
  unfold measure unmarked
  simp only [hstack, List.length_cons]
  omega

/-- A round of the walk ends it or leaves less of it. -/
theorem followOnce_measure {position : Fin n × List Signal}
    (hround : net.followOnce m σ s = .ok (some position, s')) :
    net.measure s' < net.measure s := by
  obtain ⟨sourced, -, hround⟩ := bind_eq_ok.mp hround
  cases sourced with
  | true => cases hround
  | false =>
    simp only [Bool.false_eq_true, if_false] at hround
    split at hround
    · obtain ⟨port, -, hround⟩ := bind_eq_ok.mp hround
      cases port with
      | some port =>
        obtain ⟨left, rest, hstack, -, rfl⟩ := processInstanceExit_ok hround
        exact exit_measure hstack
      | none =>
        obtain ⟨⟨context, s''⟩, hprocess, harrive⟩ := bind_eq_ok.mp hround
        have hsource := processSource_measure hprocess
        rcases hsource with rfl | hless
        · cases harrive
        · rcases arrive_ok harrive with rfl | ⟨left, rest, hstack, -, rfl⟩
          · exact hless
          · exact Nat.lt_trans (exit_measure hstack) hless
    · cases hround

/-! ### The loops -/

theorem followTopModulePath_ends (m : Fin n) (σ : List Signal) (s : State n) :
    ∃ result, Ends (fun fuel => net.followTopModulePath fuel m σ s) result := by
  induction hmeasure : net.measure s using Nat.strong_induction_on generalizing m σ s with
  | _ bound ih =>
    cases hround : net.followOnce m σ s with
    | error fault =>
      refine ⟨.error fault, Ends.succ ((ends_some _).congr fun fuel => ?_)⟩
      rw [followTopModulePath, hround]
    | ok result =>
      obtain ⟨context, s'⟩ := result
      cases context with
      | none =>
        refine ⟨.ok s', Ends.succ ((ends_some _).congr fun fuel => ?_)⟩
        rw [followTopModulePath, hround]
      | some position =>
        obtain ⟨m', σ'⟩ := position
        have hless := followOnce_measure hround
        rw [hmeasure] at hless
        obtain ⟨result, hends⟩ := ih _ hless m' σ' s' rfl
        refine ⟨result, Ends.succ (hends.congr fun fuel => ?_)⟩
        rw [followTopModulePath, hround]

theorem generatePaths_ends (ports : List Port) (s : State n) :
    ∃ result, Ends (fun fuel => net.generatePaths fuel ports s) result := by
  induction ports generalizing s with
  | nil => exact ⟨.ok s, ends_some _⟩
  | cons port rest ih =>
    cases hsource : port.source with
    | none =>
      refine ⟨.error .undefinedBehaviour, (ends_some _).congr fun fuel => ?_⟩
      rw [generatePaths, hsource]
    | some sourceSignals =>
      obtain ⟨result, enough, hfollow⟩ :
          ∃ result, Ends (fun fuel => net.followTopModulePath fuel net.topModule sourceSignals s)
            result :=
        followTopModulePath_ends net.topModule sourceSignals s
      cases result with
      | error fault =>
        refine ⟨.error fault, enough, fun fuel hfuel => ?_⟩
        simp only [generatePaths, hsource, hfollow fuel hfuel]
      | ok s' =>
        obtain ⟨result, enough', hrest⟩ := ih (s'.appendCreatedNodesToParent .top)
        refine ⟨result, max enough enough', fun fuel hfuel => ?_⟩
        simp only [generatePaths, hsource,
          hfollow fuel (Nat.le_trans (Nat.le_max_left _ _) hfuel)]
        exact hrest fuel (Nat.le_trans (Nat.le_max_right _ _) hfuel)

/-- Whatever a network is connected to, and with modules that share or contain themselves, the generation ends. -/
theorem generateTopModule_ends (net : Network n) :
    ∃ result, Ends net.generateTopModule result := by
  unfold generateTopModule
  simp only
  split
  · exact ⟨_, ends_some _⟩
  · split
    · exact ⟨_, ends_some _⟩
    · exact generatePaths_ends _ _

end Network

end Generator

end Mast
