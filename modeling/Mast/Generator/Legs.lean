import Mast.Generator.Steps

/-!
# Legs of the walk

A leg takes the walk from one position of a module to another one of the same module, with the same contexts on the stack. Registers and crossings of instances are legs, and legs that follow each other are one.
-/

namespace Mast

namespace Generator

open Forests Network

variable {n : Nat} {net : Network n} {s s' s'' : State n} {m : Fin n} {signal : Signal}
  {σ σ' σ'' : List Signal} {context : InstanceContext n} {rest : List (InstanceContext n)}
  {parent : Node n} {passages passages' : List (Passage n)}
  {before before' stacked stacked' : Forest (Node n)}

/-- The walk goes from the signals in the state to other signals of the module in another state. -/
structure Leg (net : Network n) (m : Fin n) (parent : Node n) (σ : List Signal) (s : State n)
    (σ' : List Signal) (s' : State n) (passages : List (Passage n))
    (before stacked : Forest (Node n)) : Prop where
  stack : s'.instancesContext = s.instancesContext
  grows : s.Grows s' parent before stacked
  passed : ∀ passage, s'.Passed passage ↔ s.Passed passage ∨ passage ∈ passages
  ends : ∀ result, WalkEnds net m σ' s' result → WalkEnds net m σ s result

theorem Leg.refl (net : Network n) (m : Fin n) (parent : Node n) (σ : List Signal) (s : State n) :
    Leg net m parent σ s σ s [] .nil .nil where
  stack := rfl
  grows := .refl s parent
  passed := fun _ => by simp
  ends := fun _ hends => hends

theorem Leg.trans (hleg : Leg net m parent σ s σ' s' passages before stacked)
    (hattached : s.Attached parent)
    (hleg' : Leg net m parent σ' s' σ'' s'' passages' before' stacked') :
    Leg net m parent σ s σ'' s'' (passages ++ passages') (before' ++ before)
      (stacked' ++ stacked) where
  stack := hleg'.stack.trans hleg.stack
  grows := hleg.grows.trans hattached hleg'.grows
  passed := fun passage => by rw [hleg'.passed, hleg.passed, List.mem_append, or_assoc]
  ends := fun result hends => hleg.ends result (hleg'.ends result hends)

theorem Leg.fresh (hleg : Leg net m parent σ s σ' s' passages before stacked)
    (hnodup : (passages ++ passages').Nodup)
    (hfresh : ∀ passage ∈ passages ++ passages', ¬s.Passed passage) :
    ∀ passage ∈ passages', ¬s'.Passed passage := by
  intro passage hmem hpassed
  rcases (hleg.passed passage).mp hpassed with hpassed | hpassed
  · exact hfresh passage (List.mem_append_right _ hmem) hpassed
  · exact List.disjoint_of_nodup_append hnodup hpassed hmem

/-! ### Registers -/

theorem leg_register {scanRegister : ScanRegister} {bypassValue : Bits}
    {scanInPort : Option Port}
    (hinside : isSourcedByModuleInput (net.modules m) [signal] = .ok none)
    (hentity : net.sourceEntity (net.modules m) signal = .ok (.scanRegister scanRegister))
    (hsourced : isSourcedByModuleInput (net.modules m) scanRegister.scanInSource = .ok scanInPort)
    (hnew : ¬s.Passed (.register m scanRegister.baseName))
    (hbypass : scanRegister.bypassValue = .ok bypassValue)
    (hstack : s.instancesContext = context :: rest) (htop : rest ≠ [] → m ≠ net.topModule) :
    ∃ s', s'.associatedChains = s.associatedChains ∧
      Leg net m context.parentNode [signal] s scanRegister.scanInSource s'
        [.register m scanRegister.baseName]
        (onlyIf (!rest.isEmpty) (.leaf (.register m scanRegister.baseName bypassValue) .nil))
        (onlyIf (! !rest.isEmpty)
          (.leaf (.register m scanRegister.baseName bypassValue) .nil)) := by
  obtain ⟨s', hmarks, hassigned, hends⟩ :=
    walkEnds_register hinside hentity hsourced hnew hbypass hstack htop
  refine ⟨s', hmarks.associatedChains, hmarks.instancesContext,
    hassigned.grows_register hmarks.associatedChains, fun passage => ?_, hends⟩
  cases passage with
  | register module name =>
    change _ ∈ s'.associatedRegisters ↔ _ ∈ s.associatedRegisters ∨ _
    rw [hmarks.associatedRegisters, Finset.mem_insert, List.mem_singleton, Passage.register.injEq,
      Prod.mk.injEq, or_comm]
  | output module name =>
    change _ ∈ s'.markedScanOutPorts ↔ _ ∈ s.markedScanOutPorts ∨ _
    rw [hmarks.markedScanOutPorts]
    simp

/-! ### Crossings -/

section

variable {inst : Instance n} {deep : Bool} {parentNode : Node n}

theorem Enters.attached (henters : Enters s m inst deep parent s' parentNode)
    (hattached : s.Attached parent) : s'.Attached parentNode := by
  cases henters with
  | first hnew hassigned hmarks =>
    intro m' name hnode
    cases hnode
    rw [hmarks.associatedChains]
    exact Finset.mem_insert_self _ _
  | again hold => exact hattached

theorem Enters.noChildrenYet (henters : Enters s m inst deep parent s' parentNode)
    (hattached : s.Attached parent) (hempty : s.NoChildrenYet) : s'.NoChildrenYet := by
  cases henters with
  | first hnew hassigned hmarks =>
    intro m' name hnot
    rw [hmarks.associatedChains, Finset.mem_insert, not_or] at hnot
    rw [hassigned.elsewhere]
    · exact hempty m' name hnot.2
    · intro hnode
      exact hnot.2 (hattached m' name hnode.symm)
  | again hold => exact hempty

theorem Enters.passed (henters : Enters s m inst deep parent s' parentNode)
    (passage : Passage n) : s'.Passed passage ↔ s.Passed passage := by
  cases henters with
  | first hnew hassigned hmarks =>
    cases passage with
    | register module name =>
      change _ ∈ s'.associatedRegisters ↔ _
      rw [hmarks.associatedRegisters]
      exact Iff.rfl
    | output module name =>
      change _ ∈ s'.markedScanOutPorts ↔ _
      rw [hmarks.markedScanOutPorts]
      exact Iff.rfl
  | again hold => exact Iff.rfl

theorem passed_entered (s : State n) (inst : Instance n) (scanOutPort : Port)
    (parentNode : Node n) (passage : Passage n) :
    (s.entered inst scanOutPort parentNode).Passed passage ↔ s.Passed passage ∨
      passage = .output inst.uniquifiedModule scanOutPort.identifier.baseName := by
  cases passage with
  | register module name =>
    change _ ∈ s.associatedRegisters ↔ _
    simp [State.Passed]
  | output module name =>
    change _ ∈ insert _ s.markedScanOutPorts ↔ _
    rw [Finset.mem_insert, Passage.output.injEq, Prod.mk.injEq, or_comm]
    exact Iff.rfl

/-- What a crossing puts into the tree: for the first time the chain of the instance, and later what it passes inside. -/
def crossed (first deep : Bool) (chain : Node n) (inner : Forest (Node n)) :
    Forest (Node n) × Forest (Node n) :=
  if first then (onlyIf deep (.branch chain inner .nil), onlyIf (!deep) (.branch chain inner .nil))
  else (inner, .nil)

theorem Enters.grows {inner : Forest (Node n)}
    (henters : Enters s m inst deep parent s' parentNode) (hattached : s.Attached parent)
    (hempty : s.NoChildrenYet) (hinner : s'.Grows s'' parentNode inner .nil) :
    s.Grows s'' parent
      (crossed (decide ((m, inst.name) ∉ s.associatedChains)) deep (.chain m inst.name) inner).1
      (crossed (decide ((m, inst.name) ∉ s.associatedChains)) deep (.chain m inst.name)
        inner).2 := by
  cases henters with
  | first hnew hassigned hmarks =>
    simp only [crossed, hnew, not_false_eq_true, decide_true, if_true]
    exact State.Assigned.grows_chain hnew hempty hattached hassigned hmarks.associatedChains hinner
  | again hold =>
    simp only [crossed, hold, not_true_eq_false, decide_false, Bool.false_eq_true, if_false]
    exact hinner

end

/-- The walk from an input of the module to another, in any context of the instance, puts a forest with the property into the tree. -/
def LeadsThrough (net : Network n) (m : Fin n) (inside : List Signal) (innerPort : Port)
    (passages : List (Passage n)) (outer : List (InstanceContext n))
    (property : Forest (Node n) → Prop) : Prop :=
  ∀ (s : State n) (inner : InstanceContext n), s.instancesContext = inner :: outer →
    inner.parentModule = m → s.Attached inner.parentNode → s.NoChildrenYet →
      (∀ passage ∈ passages, ¬s.Passed passage) →
        ∃ σ' s' before, property before ∧
          isSourcedByModuleInput (net.modules m) σ' = .ok (some innerPort) ∧
          Leg net m inner.parentNode inside s σ' s' passages before .nil

theorem leg_crossing {inst : Instance n} {scanOutPort innerPort input : Port}
    {inside outside : List Signal} {scanInPort : Option Port} {through : List (Passage n)}
    {property : Forest (Node n) → Prop}
    (hinside : isSourcedByModuleInput (net.modules m) [signal] = .ok none)
    (hentity : net.sourceEntity (net.modules m) signal = .ok (.inst inst (some scanOutPort)))
    (hsource : scanOutPort.source = some inside)
    (hports : (net.modules inst.uniquifiedModule).scanInPorts ≠ [])
    (hsourced :
      isSourcedByModuleInput (net.modules inst.uniquifiedModule) inside = .ok scanInPort)
    (hinput : inst.findInputPort innerPort.identifier = some input)
    (houtside : input.source = some outside)
    (htop : inst.uniquifiedModule ≠ net.topModule)
    (hstack : s.instancesContext = context :: rest) (hmodule : context.parentModule = m)
    (hattached : s.Attached context.parentNode) (hempty : s.NoChildrenYet)
    (hthrough : LeadsThrough net inst.uniquifiedModule inside innerPort through (context :: rest)
      property)
    (hnodup : (.output inst.uniquifiedModule scanOutPort.identifier.baseName :: through).Nodup)
    (hfresh : ∀ passage ∈
      .output inst.uniquifiedModule scanOutPort.identifier.baseName :: through,
        ¬s.Passed passage) :
    ∃ s' inner, property inner ∧ Leg net m context.parentNode [signal] s outside s'
      (.output inst.uniquifiedModule scanOutPort.identifier.baseName :: through)
      (crossed (decide ((m, inst.name) ∉ s.associatedChains)) (!rest.isEmpty)
        (.chain m inst.name) inner).1
      (crossed (decide ((m, inst.name) ∉ s.associatedChains)) (!rest.isEmpty)
        (.chain m inst.name) inner).2 := by
  obtain ⟨s₁, parentNode, henters, henterEnds⟩ := walkEnds_enter hinside hentity hsource hports
    (hfresh _ List.mem_cons_self) hsourced hstack htop
  have hstack₁ : s₁.instancesContext = context :: rest := henters.instancesContext.trans hstack
  obtain ⟨σ₂, s₂, inner, hproperty, hport, hleg⟩ := hthrough
    (s₁.entered inst scanOutPort parentNode) ⟨some inst, inst.uniquifiedModule, parentNode⟩
    (congrArg _ hstack₁) rfl (henters.attached hattached)
    (henters.noChildrenYet hattached hempty) (by
      intro passage hmem hpassed
      rcases (passed_entered _ _ _ _ _).mp hpassed with hold | rfl
      · exact hfresh passage (List.mem_cons_of_mem _ hmem) ((henters.passed passage).mp hold)
      · exact (List.nodup_cons.mp hnodup).1 hmem)
  -- leaving the instance restores the context
  have hstack₂ : s₂.instancesContext =
      ⟨some inst, inst.uniquifiedModule, parentNode⟩ :: context :: rest :=
    hleg.stack.trans (congrArg _ hstack₁)
  have hgrows : s₁.Grows { s₂ with instancesContext := context :: rest } parentNode inner .nil :=
    ⟨hleg.grows.front, hleg.grows.created, hleg.grows.unfolds, hleg.grows.elsewhere,
      hleg.grows.fresh, hleg.grows.chains⟩
  refine ⟨{ s₂ with instancesContext := context :: rest }, inner, hproperty, hstack.symm,
    henters.grows hattached hempty hgrows, fun passage => ?_, fun result hends => ?_⟩
  · have hpassed : State.Passed { s₂ with instancesContext := context :: rest } passage ↔
        s₂.Passed passage := by
      cases passage <;> exact Iff.rfl
    rw [hpassed, hleg.passed, passed_entered, henters.passed, List.mem_cons, or_assoc]
  · refine henterEnds result (hleg.ends result ?_)
    refine walkEnds_leave htop hport hstack₂ rfl hinput houtside ?_
    rwa [hmodule]

end Generator

end Mast
