import Mast.Generator.Legs

/-!
# What the walk leaves of a wire

Inside an instance everything a wire passes is put in front, one after the other. In the top module what belongs to the module itself, and what is passed in an instance that is crossed for the first time, is stacked; what is passed in an instance that was crossed before is put in front at once.
-/

namespace Mast

namespace Generator

open Forests Network

variable {n : Nat} {net : Network n} {s : State n} {m : Fin n} {σ : List Signal}
  {trace : Trace n} {scanInPort : Port} {context : InstanceContext n}
  {rest : List (InstanceContext n)}

theorem Wire.sourced (hwire : Wire net m σ trace scanInPort) :
    ∃ port, isSourcedByModuleInput (net.modules m) σ = .ok port := by
  cases hwire with
  | scanIn hsourced => exact ⟨_, hsourced⟩
  | register hinside _ _ => exact ⟨_, hinside⟩
  | crossing hinside _ _ _ _ _ _ => exact ⟨_, hinside⟩

theorem Wire.scanInPorts_ne_nil (hwire : Wire net m σ trace scanInPort) :
    (net.modules m).scanInPorts ≠ [] := by
  induction hwire with
  | scanIn hsourced =>
    obtain ⟨-, -, -, hmem⟩ := isSourcedByModuleInput_some hsourced
    exact List.ne_nil_of_mem hmem
  | register _ _ _ ih => exact ih
  | crossing _ _ _ _ _ _ _ _ ih => exact ih

def leafOf (element : Fin n × ScanRegister) : Node n :=
  .register element.1 element.2.baseName (element.2.bypassValue.toOption.getD [])

theorem leafOf_eq {scanRegister : ScanRegister} {bypassValue : Bits}
    (hbypass : scanRegister.bypassValue = .ok bypassValue) :
    leafOf (m, scanRegister) = .register m scanRegister.baseName bypassValue := by
  rw [leafOf, hbypass]
  rfl

def Trace.Converts (trace : Trace n) : Prop :=
  ∀ element ∈ trace.registers, ∃ bypassValue, element.2.bypassValue = .ok bypassValue

section

variable (first deep : Bool) (chain : Node n) (inner : Forest (Node n))

theorem crossed_deep : (crossed first true chain inner).2 = .nil := by
  cases first <;> rfl

theorem crossed_leaves :
    (crossed first deep chain inner).1.leaves = (if first && !deep then [] else inner.leaves) ∧
      (crossed first deep chain inner).2.leaves = if first && !deep then inner.leaves else [] := by
  cases first <;> cases deep <;> simp [crossed, onlyIf]

theorem crossed_branches :
    ((crossed first deep chain inner).1 ++ (crossed first deep chain inner).2).branches =
      if first then chain :: inner.branches else inner.branches := by
  cases first with
  | true =>
    simp only [crossed, if_true, State.onlyIf_split]
    simp
  | false => simp [crossed]

end

/-! ### Below the top module -/

/-- The forest has the registers of the wire, and no chain of an instance of the top module. -/
def Passes (net : Network n) (trace : Trace n) (f : Forest (Node n)) : Prop :=
  f.leaves = (trace.registers.map leafOf).reverse ∧
    ∀ node ∈ f.branches, ∀ name, node ≠ .chain net.topModule name

theorem Wire.leadsThrough (huniquified : net.Uniquified) (hwire : Wire net m σ trace scanInPort)
    (htop : m ≠ net.topModule) (hconverts : trace.Converts) (hnodup : trace.passages.Nodup)
    (hrest : rest ≠ []) :
    LeadsThrough net m σ scanInPort trace.passages rest (Passes net trace) := by
  induction hwire generalizing rest with
  | scanIn hsourced =>
    intro s inner _ _ _ _ _
    exact ⟨_, s, .nil, ⟨rfl, fun _ hmem => absurd hmem List.not_mem_nil⟩, hsourced, .refl _ _ _ _ _⟩
  | @register m signal scanRegister trace scanInPort hinside hentity hwire ih =>
    intro s inner hstack hmodule hattached hempty hfresh
    obtain ⟨bypassValue, hbypass⟩ := hconverts _ List.mem_cons_self
    obtain ⟨port, hsourced⟩ := hwire.sourced
    obtain ⟨s₁, -, hleg⟩ := leg_register hinside hentity hsourced
      (hfresh _ List.mem_cons_self) hbypass hstack fun _ => htop
    obtain ⟨σ', s', before, ⟨hleaves, hbranches⟩, hport, hleg'⟩ := ih htop
      (fun element hmem => hconverts element (List.mem_cons_of_mem _ hmem))
      (List.nodup_cons.mp hnodup).2 hrest s₁ inner (hleg.stack.trans hstack) hmodule
      (hleg.grows.attached hattached) (hleg.grows.noChildrenYet hattached hempty)
      (hleg.fresh hnodup hfresh)
    have hdeep : (!rest.isEmpty) = true := by simpa using hrest
    rw [hdeep] at hleg
    refine ⟨σ', s', _, ⟨?_, ?_⟩, hport, hleg.trans hattached hleg'⟩
    · simp only [onlyIf, if_true, Forest.leaves_append, Forest.leaves_leaf, Forest.leaves_nil,
        hleaves, Trace.registers, List.map_cons, List.reverse_cons, leafOf_eq hbypass]
    · simpa [onlyIf] using hbranches
  | @crossing m signal inst scanOutPort innerPort input scanInPort inside outside through trace
      hinside hentity hsource hthrough hinput houtside hwire ihthrough ih =>
    intro s inner hstack hmodule hattached hempty hfresh
    have hinst := (sourceEntity_inst hentity).1
    obtain ⟨port, hsourced⟩ := hthrough.sourced
    have hsplit : (Trace.crossing m inst scanOutPort through trace).passages =
        (.output inst.uniquifiedModule scanOutPort.identifier.baseName :: through.passages) ++
          trace.passages := rfl
    rw [hsplit] at hnodup hfresh
    have hnodupThrough := (List.nodup_append.mp hnodup).1
    obtain ⟨s₁, f, ⟨hthroughLeaves, hthroughBranches⟩, hleg⟩ := leg_crossing hinside hentity
      hsource hthrough.scanInPorts_ne_nil hsourced hinput houtside (huniquified.top hinst) hstack
      hmodule hattached hempty
      (ihthrough (huniquified.top hinst)
        (fun element hmem => hconverts element (List.mem_append_left _ hmem))
        (List.nodup_cons.mp hnodupThrough).2 (List.cons_ne_nil _ _))
      hnodupThrough fun passage hmem => hfresh passage (List.mem_append_left _ hmem)
    obtain ⟨σ', s', before, ⟨hleaves, hbranches⟩, hport, hleg'⟩ := ih htop
      (fun element hmem => hconverts element (List.mem_append_right _ hmem))
      (List.nodup_append.mp hnodup).2.1 hrest s₁ inner (hleg.stack.trans hstack) hmodule
      (hleg.grows.attached hattached) (hleg.grows.noChildrenYet hattached hempty)
      (hleg.fresh hnodup hfresh)
    have hdeep : (!rest.isEmpty) = true := by simpa using hrest
    rw [hdeep, crossed_deep] at hleg
    refine ⟨σ', s', _, ⟨?_, ?_⟩, hport, hleg.trans hattached hleg'⟩
    · rw [Forest.leaves_append, (crossed_leaves _ true _ f).1, hleaves, Bool.not_true,
        Bool.and_false, if_neg Bool.false_ne_true, hthroughLeaves, Trace.registers,
        List.map_append, List.reverse_append]
    · intro node hmem name
      have hsplit := crossed_branches (decide ((m, inst.name) ∉ s.associatedChains)) true
        (.chain m inst.name) f
      rw [crossed_deep, Forest.append_nil] at hsplit
      rw [Forest.branches_append, List.mem_append, hsplit] at hmem
      rcases hmem with hmem | hmem
      · exact hbranches node hmem name
      · split at hmem
        · rcases List.mem_cons.mp hmem with rfl | hmem
          · intro heq
            exact htop (Node.chain.inj heq).1
          · exact hthroughBranches node hmem name
        · exact hthroughBranches node hmem name

/-! ### In the top module -/

/-- The registers, with whether they are passed in an instance of the module that was crossed before. -/
def Trace.onReturn : List String → Trace n → List (Bool × Fin n × ScanRegister)
  | _, .nil => []
  | seen, .register module scanRegister rest =>
    (false, module, scanRegister) :: rest.onReturn seen
  | seen, .crossing _ inst _ inner rest =>
    inner.registers.map (decide (inst.name ∈ seen), ·) ++ rest.onReturn (inst.name :: seen)

/-- The nodes of the registers that are passed on a return to an instance, or of the others, from left to right. -/
def Trace.leavesOf (onReturn : Bool) (seen : List String) (trace : Trace n) : List (Node n) :=
  (((trace.onReturn seen).filter fun element => element.1 == onReturn).map
    fun element => leafOf element.2).reverse

theorem leavesOf_register {seen : List String} {scanRegister : ScanRegister} (onReturn : Bool)
    (trace : Trace n) :
    (Trace.register m scanRegister trace).leavesOf onReturn seen =
      trace.leavesOf onReturn seen ++ if onReturn then [] else [leafOf (m, scanRegister)] := by
  cases onReturn <;> simp [Trace.leavesOf, Trace.onReturn]

theorem leavesOf_crossing {seen : List String} {inst : Instance n} {port : Port}
    (onReturn : Bool) (through trace : Trace n) :
    (Trace.crossing m inst port through trace).leavesOf onReturn seen =
      trace.leavesOf onReturn (inst.name :: seen) ++
        if decide (inst.name ∈ seen) = onReturn then (through.registers.map leafOf).reverse
        else [] := by
  have hfilter (b : Bool) : ((through.registers.map (b, ·)).filter
      fun element : Bool × Fin n × ScanRegister => element.1 == onReturn) =
        if b = onReturn then through.registers.map (b, ·) else [] := by
    split
    · rename_i heq
      apply List.filter_eq_self.mpr
      intro element hmem
      obtain ⟨a, -, rfl⟩ := List.mem_map.mp hmem
      simpa using heq
    · rename_i hne
      apply List.filter_eq_nil_iff.mpr
      intro element hmem
      obtain ⟨a, -, rfl⟩ := List.mem_map.mp hmem
      simpa using hne
  rw [Trace.leavesOf, Trace.onReturn, List.filter_append, hfilter, List.map_append,
    List.reverse_append]
  refine congrArg₂ _ rfl ?_
  split
  · rw [List.map_map]
    rfl
  · rfl

theorem Wire.leg_top (huniquified : net.Uniquified)
    (hwire : Wire net net.topModule σ trace scanInPort) (hconverts : trace.Converts)
    (hnodup : trace.passages.Nodup) {seen : List String}
    (hstack : s.instancesContext = [⟨none, net.topModule, .top⟩]) (hempty : s.NoChildrenYet)
    (hfresh : ∀ passage ∈ trace.passages, ¬s.Passed passage)
    (hseen : ∀ name, name ∈ seen ↔ (net.topModule, name) ∈ s.associatedChains) :
    ∃ σ' s' before stacked,
      isSourcedByModuleInput (net.modules net.topModule) σ' = .ok (some scanInPort) ∧
      before.leaves = trace.leavesOf true seen ∧ stacked.leaves = trace.leavesOf false seen ∧
      Leg net net.topModule .top σ s σ' s' trace.passages before stacked := by
  have hattached (s : State n) : s.Attached .top := fun _ _ hnode => by cases hnode
  generalize hm : net.topModule = m at hwire
  induction hwire generalizing s seen with
  | scanIn hsourced =>
    subst hm
    exact ⟨_, s, .nil, .nil, hsourced, rfl, rfl, .refl _ _ _ _ _⟩
  | @register m signal scanRegister trace scanInPort hinside hentity hwire ih =>
    subst hm
    obtain ⟨bypassValue, hbypass⟩ := hconverts _ List.mem_cons_self
    obtain ⟨port, hsourced⟩ := hwire.sourced
    obtain ⟨s₁, hchains, hleg⟩ := leg_register hinside hentity hsourced
      (hfresh _ List.mem_cons_self) hbypass hstack fun hne => absurd rfl hne
    obtain ⟨σ', s', before, stacked, hport, hbefore, hstacked, hleg'⟩ := ih
      (fun element hmem => hconverts element (List.mem_cons_of_mem _ hmem))
      (List.nodup_cons.mp hnodup).2 (hleg.stack.trans hstack)
      (hleg.grows.noChildrenYet (hattached s) hempty) (hleg.fresh hnodup hfresh)
      (fun name => by rw [hseen, hchains]) rfl
    refine ⟨σ', s', _, _, hport, ?_, ?_, hleg.trans (hattached s) hleg'⟩
    · rw [leavesOf_register, ← hbefore]
      simp [onlyIf]
    · rw [leavesOf_register, ← hstacked, leafOf_eq hbypass]
      simp [onlyIf]
  | @crossing m signal inst scanOutPort innerPort input scanInPort inside outside through trace
      hinside hentity hsource hthrough hinput houtside hwire ihthrough ih =>
    subst hm
    have hinst := (sourceEntity_inst hentity).1
    obtain ⟨port, hsourced⟩ := hthrough.sourced
    have hsplit : (Trace.crossing net.topModule inst scanOutPort through trace).passages =
        (.output inst.uniquifiedModule scanOutPort.identifier.baseName :: through.passages) ++
          trace.passages := rfl
    rw [hsplit] at hnodup hfresh
    have hnodupThrough := (List.nodup_append.mp hnodup).1
    obtain ⟨s₁, f, ⟨hthroughLeaves, hthroughBranches⟩, hleg⟩ := leg_crossing hinside hentity
      hsource hthrough.scanInPorts_ne_nil hsourced hinput houtside (huniquified.top hinst) hstack
      rfl (hattached s) hempty
      (hthrough.leadsThrough huniquified (huniquified.top hinst)
        (fun element hmem => hconverts element (List.mem_append_left _ hmem))
        (List.nodup_cons.mp hnodupThrough).2 (List.cons_ne_nil _ _))
      hnodupThrough fun passage hmem => hfresh passage (List.mem_append_left _ hmem)
    -- only the instance itself has got a chain in the top module
    have hseen₁ (name : String) :
        name ∈ inst.name :: seen ↔ (net.topModule, name) ∈ s₁.associatedChains := by
      rw [hleg.grows.chains, crossed_branches, List.mem_cons, hseen]
      by_cases hfirst : (net.topModule, inst.name) ∉ s.associatedChains
      · simp only [hfirst, not_false_eq_true, decide_true, if_true, List.mem_cons,
          Node.chain.injEq, true_and]
        have hnot : Node.chain net.topModule name ∉ f.branches :=
          fun hmem => hthroughBranches _ hmem name rfl
        tauto
      · simp only [hfirst, decide_false, Bool.false_eq_true, if_false]
        have hnot : Node.chain net.topModule name ∉ f.branches :=
          fun hmem => hthroughBranches _ hmem name rfl
        constructor
        · rintro (rfl | hmem)
          · exact .inl (not_not.mp hfirst)
          · exact .inl hmem
        · tauto
    obtain ⟨σ', s', before, stacked, hport, hbefore, hstacked, hleg'⟩ := ih
      (fun element hmem => hconverts element (List.mem_append_right _ hmem))
      (List.nodup_append.mp hnodup).2.1 (hleg.stack.trans hstack)
      (hleg.grows.noChildrenYet (hattached s) hempty) (hleg.fresh hnodup hfresh) hseen₁ rfl
    have hleaves := crossed_leaves (decide ((net.topModule, inst.name) ∉ s.associatedChains)) false
      (.chain net.topModule inst.name) f
    refine ⟨σ', s', _, _, hport, ?_, ?_, hleg.trans (hattached s) hleg'⟩
    · rw [Forest.leaves_append, List.isEmpty_nil, Bool.not_true, hleaves.1, hbefore,
        leavesOf_crossing, hthroughLeaves]
      by_cases hmem : (net.topModule, inst.name) ∈ s.associatedChains <;>
        simp [hmem, hseen]
    · rw [Forest.leaves_append, List.isEmpty_nil, Bool.not_true, hleaves.2, hstacked,
        leavesOf_crossing, hthroughLeaves]
      by_cases hmem : (net.topModule, inst.name) ∈ s.associatedChains <;>
        simp [hmem, hseen]

/-! ### Registers without a bypass sequence -/

/-- A register without a bypass sequence makes the walk fail, wherever it is on the wire. -/
theorem Wire.fails (huniquified : net.Uniquified) (hwire : Wire net m σ trace scanInPort)
    (hnot : ¬trace.Converts) (hnodup : trace.passages.Nodup)
    (hstack : s.instancesContext = context :: rest) (hmodule : context.parentModule = m)
    (htop : rest ≠ [] → m ≠ net.topModule) (hattached : s.Attached context.parentNode)
    (hempty : s.NoChildrenYet) (hfresh : ∀ passage ∈ trace.passages, ¬s.Passed passage) :
    ∃ fault, WalkEnds net m σ s (.error fault) := by
  induction hwire generalizing s context rest with
  | scanIn hsourced => exact absurd (fun _ hmem => absurd hmem List.not_mem_nil) hnot
  | @register m signal scanRegister trace scanInPort hinside hentity hwire ih =>
    cases hbypass : scanRegister.bypassValue with
    | error fault =>
      exact ⟨fault, walkEnds_register_fails hinside hentity (hfresh _ List.mem_cons_self) hbypass⟩
    | ok bypassValue =>
      obtain ⟨port, hsourced⟩ := hwire.sourced
      obtain ⟨s₁, -, hleg⟩ := leg_register hinside hentity hsourced
        (hfresh _ List.mem_cons_self) hbypass hstack htop
      have hnotRest : ¬trace.Converts := by
        intro hrest
        apply hnot
        intro element hmem
        rcases List.mem_cons.mp hmem with rfl | hmem
        · exact ⟨bypassValue, hbypass⟩
        · exact hrest element hmem
      obtain ⟨fault, hends⟩ := ih hnotRest (List.nodup_cons.mp hnodup).2
        (hleg.stack.trans hstack) hmodule htop (hleg.grows.attached hattached)
        (hleg.grows.noChildrenYet hattached hempty) (hleg.fresh hnodup hfresh)
      exact ⟨fault, hleg.ends _ hends⟩
  | @crossing m signal inst scanOutPort innerPort input scanInPort inside outside through trace
      hinside hentity hsource hthrough hinput houtside hwire ihthrough ih =>
    have hinst := (sourceEntity_inst hentity).1
    have htopInst := huniquified.top hinst
    obtain ⟨port, hsourced⟩ := hthrough.sourced
    have hsplit : (Trace.crossing m inst scanOutPort through trace).passages =
        (.output inst.uniquifiedModule scanOutPort.identifier.baseName :: through.passages) ++
          trace.passages := rfl
    rw [hsplit] at hnodup hfresh
    have hnodupThrough := (List.nodup_append.mp hnodup).1
    have hfreshThrough := fun passage hmem => hfresh passage (List.mem_append_left _ hmem)
    by_cases hconverts : through.Converts
    · obtain ⟨s₁, f, -, hleg⟩ := leg_crossing hinside hentity hsource
        hthrough.scanInPorts_ne_nil hsourced hinput houtside htopInst hstack hmodule hattached
        hempty (hthrough.leadsThrough huniquified htopInst hconverts
          (List.nodup_cons.mp hnodupThrough).2 (List.cons_ne_nil _ _))
        hnodupThrough hfreshThrough
      have hnotRest : ¬trace.Converts := by
        intro hrest
        apply hnot
        intro element hmem
        rcases List.mem_append.mp hmem with hmem | hmem
        · exact hconverts element hmem
        · exact hrest element hmem
      obtain ⟨fault, hends⟩ := ih hnotRest (List.nodup_append.mp hnodup).2.1
        (hleg.stack.trans hstack) hmodule htop (hleg.grows.attached hattached)
        (hleg.grows.noChildrenYet hattached hempty) (hleg.fresh hnodup hfresh)
      exact ⟨fault, hleg.ends _ hends⟩
    · obtain ⟨s₁, parentNode, henters, henterEnds⟩ := walkEnds_enter hinside hentity hsource
        hthrough.scanInPorts_ne_nil (hfreshThrough _ List.mem_cons_self) hsourced hstack htopInst
      obtain ⟨fault, hends⟩ := ihthrough (s := s₁.entered inst scanOutPort parentNode) hconverts
        (List.nodup_cons.mp hnodupThrough).2 rfl rfl (fun _ => htopInst)
        (henters.attached hattached) (henters.noChildrenYet hattached hempty) (by
          intro passage hmem hpassed
          rcases (passed_entered _ _ _ _ _).mp hpassed with hold | rfl
          · exact hfreshThrough passage (List.mem_cons_of_mem _ hmem)
              ((henters.passed passage).mp hold)
          · exact (List.nodup_cons.mp hnodupThrough).1 hmem)
      exact ⟨fault, henterEnds _ hends⟩

end Generator

end Mast
