import Mast.Generator.WireOrder

/-!
# The generated nodes are a tree

Whatever the sources of a network are connected to, every chain and every register that is created has one place in the tree, also when a path ends inside an instance and the contexts of one output are still on the stack for the next.
-/

namespace Mast

namespace Generator

open Forests Fuel Outcome Network

variable {n : Nat} {net : Network n} {s s' : State n} {m : Fin n} {σ : List Signal}
  {signal : Signal} {context : ProcessingContext n} {before stacked g : Forest (Node n)}

/-! ### Forests of the nodes -/

/-- The children of the top chain and the stack unfold to forests of different chains. -/
structure State.Shape (s : State n) (before stacked : Forest (Node n)) : Prop where
  front : s.children .top = before.heads
  created : s.createdNodes = stacked.heads
  unfolds : (before ++ stacked).Unfolds Node.isRegister s.children
  nodup : (before ++ stacked).branches.Nodup
  notTop : .top ∉ (before ++ stacked).branches

theorem State.Shape.assign {deep : Bool} {parent node : Node n} (hshape : s.Shape before stacked)
    (hparent : parent = .top ∨ parent ∈ (before ++ stacked).branches)
    (hassigned : s.Assigned s' deep parent node) (hheads : g.heads = [node])
    (hg : g.Unfolds Node.isRegister s'.children)
    (hnew : ∀ branch ∈ g.branches, branch ≠ .top ∧ branch ∉ (before ++ stacked).branches)
    (hnodup : g.branches.Nodup) :
    ∃ before' stacked', s'.Shape before' stacked' ∧
      (before' ++ stacked').branches.Perm (g.branches ++ (before ++ stacked).branches) ∧
      (before' ++ stacked').leaves.Perm (g.leaves ++ (before ++ stacked).leaves) := by
  have hwhole : (g.branches ++ (before ++ stacked).branches).Nodup :=
    List.nodup_append.mpr ⟨hnodup, hshape.nodup, fun a ha b hb hab =>
      (hnew a ha).2 (hab ▸ hb)⟩
  have hnotTop : .top ∉ g.branches ++ (before ++ stacked).branches := by
    intro hmem
    rcases List.mem_append.mp hmem with hmem | hmem
    · exact (hnew _ hmem).1 rfl
    · exact hshape.notTop hmem
  cases deep with
  | false =>
    have hchildren : s'.children = s.children := hassigned.children
    have hperm : (before ++ (g ++ stacked)).branches.Perm
        (g.branches ++ (before ++ stacked).branches) := by
      simp only [Forest.branches_append, ← List.append_assoc]
      exact List.perm_append_comm.append_right _
    refine ⟨before, g ++ stacked, ⟨?_, ?_, ?_, ?_, ?_⟩, hperm, ?_⟩
    · rw [hchildren]
      exact hshape.front
    · rw [hassigned.createdNodes, hshape.created, Forest.heads_append, hheads]
      rfl
    · have hold := hshape.unfolds
      rw [← hchildren] at hold
      simp only [Forest.unfolds_append] at hold ⊢
      exact ⟨hold.1, hg, hold.2⟩
    · exact hperm.nodup_iff.mpr hwhole
    · rwa [hperm.mem_iff]
    · simp only [Forest.leaves_append, ← List.append_assoc]
      exact List.perm_append_comm.append_right _
  | true =>
    have hchildren : s'.children =
        Function.update s.children parent (node :: s.children parent) := hassigned.children
    have hcreated : s'.createdNodes = s.createdNodes := hassigned.createdNodes
    rcases hparent with rfl | hparent
    · have hperm : ((g ++ before) ++ stacked).branches.Perm
          (g.branches ++ (before ++ stacked).branches) := by
        simp only [Forest.branches_append, List.append_assoc]
        exact List.Perm.refl _
      refine ⟨g ++ before, stacked, ⟨?_, ?_, ?_, ?_, ?_⟩, hperm, ?_⟩
      · rw [hchildren, Function.update_self, hshape.front, Forest.heads_append, hheads]
        rfl
      · rw [hcreated]
        exact hshape.created
      · have hold : (before ++ stacked).Unfolds Node.isRegister s'.children := by
          refine hshape.unfolds.congr fun branch hmem => ?_
          rw [hchildren, Function.update_of_ne]
          intro heq
          exact hshape.notTop (heq ▸ hmem)
        simp only [Forest.unfolds_append] at hold ⊢
        exact ⟨⟨hg, hold.1⟩, hold.2⟩
      · exact hperm.nodup_iff.mpr hwhole
      · rwa [hperm.mem_iff]
      · simp only [Forest.leaves_append, List.append_assoc]
        exact List.Perm.refl _
    · obtain ⟨hbranches, hleaves⟩ := Forest.insertAt_perm g hparent hshape.nodup
      rw [Forest.insertAt_append] at hbranches hleaves
      have hne : parent ≠ .top := fun heq => hshape.notTop (heq ▸ hparent)
      refine ⟨before.insertAt parent g, stacked.insertAt parent g, ⟨?_, ?_, ?_, ?_, ?_⟩,
        hbranches, hleaves⟩
      · rw [hchildren, Function.update_of_ne hne.symm, Forest.heads_insertAt]
        exact hshape.front
      · rw [hcreated, Forest.heads_insertAt]
        exact hshape.created
      · rw [← Forest.insertAt_append]
        refine hshape.unfolds.insertAt hg ?_ fun branch _ hbranch => ?_
        · rw [hchildren, Function.update_self, hheads]
          rfl
        · rw [hchildren, Function.update_of_ne hbranch]
      · exact hbranches.nodup_iff.mpr hwhole
      · rwa [hbranches.mem_iff]

/-! ### Created nodes -/

/-- The forests hold the associated registers and chains, each once, and the parent nodes of the contexts. -/
structure State.Tree (s : State n) (before stacked : Forest (Node n)) : Prop where
  shape : s.Shape before stacked
  registers_nodup : ((before ++ stacked).leaves.map registerKey).Nodup
  registers : ∀ m name, (m, name) ∈ s.associatedRegisters ↔
    some (m, name) ∈ (before ++ stacked).leaves.map registerKey
  chains : ∀ node, node ∈ (before ++ stacked).branches ↔
    ∃ m name, node = .chain m name ∧ (m, name) ∈ s.associatedChains
  parents : ∀ context ∈ s.instancesContext,
    context.parentNode = .top ∨ context.parentNode ∈ (before ++ stacked).branches
  empty : s.NoChildrenYet

def State.IsTree (s : State n) : Prop := ∃ before stacked, s.Tree before stacked

/-- Only the contexts and the marks of the ports differ, and the contexts have parent nodes of the tree. -/
theorem State.IsTree.congr (htree : s.IsTree) (hchildren : s'.children = s.children)
    (hcreated : s'.createdNodes = s.createdNodes)
    (hregisters : s'.associatedRegisters = s.associatedRegisters)
    (hchains : s'.associatedChains = s.associatedChains)
    (hcontexts : ∀ context ∈ s'.instancesContext, (∃ context' ∈ s.instancesContext,
      context.parentNode = context'.parentNode) ∨
        ∃ m name, context.parentNode = .chain m name ∧ (m, name) ∈ s.associatedChains) :
    s'.IsTree := by
  obtain ⟨before, stacked, htree⟩ := htree
  refine ⟨before, stacked, ⟨?_, ?_, ?_, htree.shape.nodup, htree.shape.notTop⟩,
    htree.registers_nodup, ?_, ?_, ?_, ?_⟩
  · rw [hchildren]
    exact htree.shape.front
  · rw [hcreated]
    exact htree.shape.created
  · rw [hchildren]
    exact htree.shape.unfolds
  · rw [hregisters]
    exact htree.registers
  · rw [hchains]
    exact htree.chains
  · intro context hmem
    rcases hcontexts context hmem with ⟨context', hmem', hsame⟩ | hchain
    · rw [hsame]
      exact htree.parents context' hmem'
    · exact .inr ((htree.chains _).mpr hchain)
  · intro m name hnot
    rw [hchains] at hnot
    rw [hchildren]
    exact htree.empty m name hnot

theorem State.IsTree.parentNode_attached (htree : s.IsTree) {context : InstanceContext n}
    (hmem : context ∈ s.instancesContext) : s.Attached context.parentNode := by
  obtain ⟨before, stacked, htree⟩ := htree
  intro m name hnode
  rcases htree.parents context hmem with htop | hbranch
  · rw [hnode] at htop
    cases htop
  · obtain ⟨m', name', heq, hin⟩ := (htree.chains _).mp hbranch
    rw [hnode] at heq
    cases heq
    exact hin

theorem State.assignNewNode_ok {node : Node n} (hassign : s.assignNewNode node = .ok s') :
    ∃ context rest, s.instancesContext = context :: rest ∧ s.SameMarks s' ∧
      s.Assigned s' (!rest.isEmpty) context.parentNode node := by
  cases hstack : s.instancesContext with
  | nil =>
    rw [assignNewNode, hstack] at hassign
    cases hassign
  | cons context rest =>
    obtain ⟨s'', hok, hmarks, hassigned⟩ := assignNewNode_eq hstack node
    obtain rfl := Except.ok.inj (hok.symm.trans hassign)
    exact ⟨context, rest, rfl, hmarks, hassigned⟩

theorem State.Tree.parentNode {contexts : List (InstanceContext n)} {c : InstanceContext n}
    (htree : s.Tree before stacked) (hstack : s.instancesContext = c :: contexts) :
    c.parentNode = .top ∨ c.parentNode ∈ (before ++ stacked).branches :=
  htree.parents c (hstack ▸ List.mem_cons_self)

theorem State.IsTree.processScanRegister {scanRegister : ScanRegister} (htree : s.IsTree)
    (hnew : (m, scanRegister.baseName) ∉ s.associatedRegisters)
    (hprocess : processScanRegister m scanRegister s = .ok (context, s')) : s'.IsTree := by
  obtain ⟨bypassValue, -, hassign, -⟩ := processScanRegister_ok hprocess
  obtain ⟨c, rest, hstack, hmarks, hassigned⟩ := State.assignNewNode_ok hassign
  have hmem : c ∈ s.instancesContext := by
    have hstack : s.instancesContext = c :: rest := hstack
    exact hstack ▸ List.mem_cons_self
  have hattached := htree.parentNode_attached hmem
  obtain ⟨before, stacked, htree⟩ := htree
  have hassigned : s.Assigned s' (!rest.isEmpty) c.parentNode
      (.register m scanRegister.baseName bypassValue) :=
    ⟨hassigned.children, hassigned.createdNodes⟩
  obtain ⟨before', stacked', hshape, hbranches, hleaves⟩ := htree.shape.assign
    (g := .leaf (.register m scanRegister.baseName bypassValue) .nil) (htree.parentNode hstack)
    hassigned rfl ⟨rfl, trivial⟩ (fun _ hmem => absurd hmem List.not_mem_nil) List.nodup_nil
  have hkeys := hleaves.map registerKey
  have hnot : some (m, scanRegister.baseName) ∉ (before ++ stacked).leaves.map registerKey :=
    fun hmem => hnew ((htree.registers _ _).mpr hmem)
  refine ⟨before', stacked', hshape, ?_, ?_, ?_, ?_, ?_⟩
  · rw [hkeys.nodup_iff]
    exact List.nodup_cons.mpr ⟨hnot, htree.registers_nodup⟩
  · intro m' name
    rw [hmarks.associatedRegisters, hkeys.mem_iff, Finset.mem_insert, htree.registers]
    exact (or_congr_left (by simp [registerKey])).trans List.mem_cons.symm
  · intro node
    rw [hbranches.mem_iff, hmarks.associatedChains]
    exact htree.chains node
  · intro context hmem
    rw [hmarks.instancesContext] at hmem
    rw [hbranches.mem_iff]
    exact htree.parents context hmem
  · intro m' name hfree
    rw [hmarks.associatedChains] at hfree
    rw [hassigned.elsewhere]
    · exact htree.empty m' name hfree
    · intro hnode
      exact hfree (hattached m' name hnode.symm)

theorem State.IsTree.assignChain {name : String} (htree : s.IsTree)
    (hnew : (m, name) ∉ s.associatedChains)
    (hassign : State.assignNewNode
      { s with associatedChains := insert (m, name) s.associatedChains } (.chain m name) =
        .ok s') : s'.IsTree ∧ s'.associatedChains = insert (m, name) s.associatedChains ∧
      s'.instancesContext = s.instancesContext := by
  obtain ⟨c, rest, hstack, hmarks, hassigned⟩ := State.assignNewNode_ok hassign
  refine ⟨?_, hmarks.associatedChains, hmarks.instancesContext⟩
  have hmem : c ∈ s.instancesContext := by
    have hstack : s.instancesContext = c :: rest := hstack
    exact hstack ▸ List.mem_cons_self
  have hattached := htree.parentNode_attached hmem
  obtain ⟨before, stacked, htree⟩ := htree
  have hassigned : s.Assigned s' (!rest.isEmpty) c.parentNode (.chain m name) :=
    ⟨hassigned.children, hassigned.createdNodes⟩
  have hparent : Node.chain m name ≠ c.parentNode :=
    fun hnode => hnew (hattached m name hnode.symm)
  have hchildren : s'.children (.chain m name) = [] := by
    rw [hassigned.elsewhere hparent]
    exact htree.empty m name hnew
  obtain ⟨before', stacked', hshape, hbranches, hleaves⟩ := htree.shape.assign
    (g := .branch (.chain m name) .nil .nil) (htree.parentNode hstack) hassigned rfl
    ⟨rfl, hchildren, trivial, trivial⟩ (by
      intro branch hmem
      obtain rfl := List.mem_singleton.mp hmem
      constructor
      · intro heq
        cases heq
      · intro hin
        obtain ⟨m', name', heq, hmem'⟩ := (htree.chains _).mp hin
        cases heq
        exact hnew hmem') (List.nodup_singleton _)
  have hkeys := hleaves.map registerKey
  refine ⟨before', stacked', hshape, ?_, ?_, ?_, ?_, ?_⟩
  · rw [hkeys.nodup_iff]
    exact htree.registers_nodup
  · intro m' name'
    rw [hmarks.associatedRegisters, hkeys.mem_iff]
    exact htree.registers m' name'
  · intro node
    rw [hbranches.mem_iff, hmarks.associatedChains]
    refine List.mem_cons.trans ?_
    change node = _ ∨ node ∈ (before ++ stacked).branches ↔ _
    rw [htree.chains]
    constructor
    · rintro (rfl | ⟨m', name', rfl, hin⟩)
      · exact ⟨m, name, rfl, Finset.mem_insert_self _ _⟩
      · exact ⟨m', name', rfl, Finset.mem_insert_of_mem hin⟩
    · rintro ⟨m', name', rfl, hin⟩
      rcases Finset.mem_insert.mp hin with heq | hin
      · cases heq
        exact .inl rfl
      · exact .inr ⟨m', name', rfl, hin⟩
  · intro context hmem
    rw [hmarks.instancesContext] at hmem
    rw [hbranches.mem_iff]
    rcases htree.parents context hmem with htop | hin
    · exact .inl htop
    · exact .inr (List.mem_append_right _ hin)
  · intro m' name' hfree
    rw [hmarks.associatedChains, Finset.mem_insert, not_or] at hfree
    rw [hassigned.elsewhere]
    · exact htree.empty m' name' hfree.2
    · intro hnode
      exact hfree.2 (hattached m' name' hnode.symm)

theorem State.IsTree.enterInstance {inst : Instance n} {scanOutPort : Option Port}
    {parentNode : Node n} (htree : s.IsTree)
    (hparent : (∃ c ∈ s.instancesContext, parentNode = c.parentNode) ∨
      ∃ m name, parentNode = .chain m name ∧ (m, name) ∈ s.associatedChains)
    (henter : enterInstance inst scanOutPort parentNode s = .ok (context, s')) : s'.IsTree := by
  obtain ⟨port, sourceSignals, -, -, -, rfl⟩ := enterInstance_ok henter
  refine htree.congr rfl rfl rfl rfl fun c hmem => ?_
  rcases List.mem_cons.mp hmem with rfl | hmem
  · exact hparent
  · exact .inl ⟨c, hmem, rfl⟩

theorem State.IsTree.popped {rest : List (InstanceContext n)} {c : InstanceContext n}
    (htree : s.IsTree) (hstack : s.instancesContext = c :: rest) :
    State.IsTree { s with instancesContext := rest } :=
  htree.congr rfl rfl rfl rfl fun context hmem =>
    .inl ⟨context, hstack ▸ List.mem_cons_of_mem _ hmem, rfl⟩

theorem State.IsTree.processSource (htree : s.IsTree)
    (hprocess : net.processSource m signal s = .ok (context, s')) : s'.IsTree := by
  obtain ⟨entity, hentity, hprocess⟩ := bind_eq_ok.mp hprocess
  cases entity with
  | scanRegister scanRegister =>
    simp only at hprocess
    by_cases hseen : (m, scanRegister.baseName) ∈ s.associatedRegisters
    · rw [if_pos hseen] at hprocess
      cases hprocess
      exact htree
    · rw [if_neg hseen] at hprocess
      exact htree.processScanRegister hseen hprocess
  | inst inst scanOutPort =>
    obtain ⟨-, ⟨s'', hnew, hassign, henter⟩ | ⟨outer, rest, hstack, -, -, henter⟩⟩ :=
      processInstanceEntry_ok hprocess
    · obtain ⟨htree', hchains, -⟩ := htree.assignChain hnew hassign
      refine htree'.enterInstance (.inr ⟨m, inst.name, rfl, ?_⟩) henter
      rw [hchains]
      exact Finset.mem_insert_self _ _
    · exact htree.enterInstance (.inl ⟨outer, hstack ▸ List.mem_cons_self, rfl⟩) henter

/-- A round of the walk keeps the tree. -/
theorem State.IsTree.followOnce (htree : s.IsTree)
    (hround : net.followOnce m σ s = .ok (context, s')) : s'.IsTree := by
  obtain ⟨sourced, -, hround⟩ := bind_eq_ok.mp hround
  cases sourced with
  | true =>
    cases hround
    exact htree
  | false =>
    simp only [Bool.false_eq_true, if_false] at hround
    split at hround
    · obtain ⟨port, -, hround⟩ := bind_eq_ok.mp hround
      cases port with
      | some port =>
        obtain ⟨left, rest, hstack, -, rfl⟩ := processInstanceExit_ok hround
        exact htree.popped hstack
      | none =>
        obtain ⟨⟨context, s''⟩, hprocess, harrive⟩ := bind_eq_ok.mp hround
        have htree' := htree.processSource hprocess
        rcases arrive_ok harrive with rfl | ⟨left, rest, hstack, -, rfl⟩
        · exact htree'
        · exact htree'.popped hstack
    · cases hround

theorem State.IsTree.followTopModulePath {fuel : Nat} (htree : s.IsTree)
    (hwalk : net.followTopModulePath fuel m σ s = some (.ok s')) : s'.IsTree := by
  induction fuel generalizing m σ s with
  | zero => cases hwalk
  | succ fuel ih =>
    rw [Network.followTopModulePath] at hwalk
    cases hround : net.followOnce m σ s with
    | error fault =>
      rw [hround] at hwalk
      cases hwalk
    | ok next =>
      rw [hround] at hwalk
      obtain ⟨context, s''⟩ := next
      have htree' := htree.followOnce hround
      cases context with
      | none =>
        cases hwalk
        exact htree'
      | some position => exact ih htree' hwalk

theorem State.IsTree.appendCreatedNodesToParent (htree : s.IsTree) :
    (s.appendCreatedNodesToParent .top).IsTree := by
  obtain ⟨before, stacked, htree⟩ := htree
  have hchildren : (s.appendCreatedNodesToParent .top).children =
      Function.update s.children .top (before ++ stacked).heads := by
    change (s.createdNodes.foldl _ s).children = _
    rw [foldl_appendChild_children, htree.shape.created, htree.shape.front, Forest.heads_append]
  have hmarks (nodes : List (Node n)) (s : State n) :
      s.SameMarks (nodes.foldl (fun s child => s.appendChild .top child) s) := by
    induction nodes generalizing s with
    | nil => exact ⟨rfl, rfl, rfl, rfl⟩
    | cons node nodes ih =>
      have hrest := ih (s.appendChild .top node)
      exact ⟨hrest.instancesContext, hrest.associatedRegisters, hrest.associatedChains,
        hrest.markedScanOutPorts⟩
  have hsame := hmarks s.createdNodes s
  refine ⟨before ++ stacked, .nil, ⟨?_, rfl, ?_, ?_, ?_⟩, ?_, ?_, ?_, ?_, ?_⟩
  · rw [hchildren, Function.update_self]
  · rw [Forest.append_nil, hchildren]
    refine htree.shape.unfolds.congr fun node hmem => Function.update_of_ne ?_ _ _
    intro heq
    exact htree.shape.notTop (heq ▸ hmem)
  · rw [Forest.append_nil]
    exact htree.shape.nodup
  · rw [Forest.append_nil]
    exact htree.shape.notTop
  · rw [Forest.append_nil]
    exact htree.registers_nodup
  · intro m name
    rw [Forest.append_nil, ← htree.registers]
    change _ ∈ (s.createdNodes.foldl _ s).associatedRegisters ↔ _
    rw [hsame.associatedRegisters]
  · intro node
    rw [Forest.append_nil, htree.chains]
    change _ ↔ ∃ m name, _ ∧ _ ∈ (s.createdNodes.foldl _ s).associatedChains
    rw [hsame.associatedChains]
  · intro context hmem
    rw [Forest.append_nil]
    change _ ∈ (s.createdNodes.foldl _ s).instancesContext at hmem
    rw [hsame.instancesContext] at hmem
    exact htree.parents context hmem
  · intro m name hfree
    change _ ∉ (s.createdNodes.foldl _ s).associatedChains at hfree
    rw [hsame.associatedChains] at hfree
    rw [hchildren, Function.update_of_ne (by intro heq; cases heq)]
    exact htree.empty m name hfree

theorem State.IsTree.generatePaths {fuel : Nat} {ports : List Port} (htree : s.IsTree)
    (hstacked : s.createdNodes = []) (hpaths : net.generatePaths fuel ports s = some (.ok s')) :
    s'.IsTree ∧ s'.createdNodes = [] := by
  induction ports generalizing s with
  | nil =>
    cases hpaths
    exact ⟨htree, hstacked⟩
  | cons port rest ih =>
    rw [Network.generatePaths] at hpaths
    split at hpaths
    · cases hpaths
    · split at hpaths
      · cases hpaths
      · cases hpaths
      · rename_i hwalk
        exact ih (htree.followTopModulePath hwalk).appendCreatedNodesToParent rfl hpaths

/-- Every network that gives a tree gives one in which each created chain and register has one place, and none is left out. -/
theorem generateTopModule_isTree {fuel : Nat} (hgenerate : net.generateTopModule fuel = some (.ok s)) :
    ∃ f : Forest (Node n), s.children .top = f.heads ∧
      f.Unfolds Node.isRegister s.children ∧ f.branches.Nodup ∧
      (f.leaves.map registerKey).Nodup ∧
      (∀ m name, (m, name) ∈ s.associatedRegisters ↔ some (m, name) ∈ f.leaves.map registerKey) ∧
      ∀ node, node ∈ f.branches ↔
        ∃ m name, node = .chain m name ∧ (m, name) ∈ s.associatedChains := by
  have hstart : net.start.IsTree :=
    ⟨.nil, .nil, ⟨rfl, rfl, trivial, List.nodup_nil, List.not_mem_nil⟩, List.nodup_nil,
      fun _ _ => by simp [Network.start], fun _ => by simp [Network.start],
      fun context hmem => by
        obtain rfl := List.mem_singleton.mp hmem
        exact .inl rfl, start_noChildrenYet⟩
  obtain ⟨⟨before, stacked, htree⟩, hstacked⟩ : s.IsTree ∧ s.createdNodes = [] := by
    unfold Network.generateTopModule at hgenerate
    simp only at hgenerate
    split at hgenerate
    · cases hgenerate
    · split at hgenerate
      · cases hgenerate
      · exact hstart.generatePaths rfl hgenerate
  have hempty : stacked = .nil := by
    have hheads := htree.shape.created
    rw [hstacked] at hheads
    cases stacked with
    | nil => rfl
    | leaf a rest => cases hheads
    | branch a inner rest => cases hheads
  subst hempty
  have hshape := htree.shape
  have hnodup := htree.registers_nodup
  have hregisters := htree.registers
  have hchains := htree.chains
  have hunfolds := hshape.unfolds
  have hbranches := hshape.nodup
  rw [Forest.append_nil] at hnodup hunfolds hbranches
  simp only [Forest.append_nil] at hregisters hchains
  exact ⟨before, hshape.front, hunfolds, hbranches, hnodup, hregisters, hchains⟩

theorem bothChannels_isTree : ∃ (s : State 2) (f : Forest (Node 2)),
    bothChannels.generateTopModule 10 = some (.ok s) ∧ s.children .top = f.heads ∧
      f.Unfolds Node.isRegister s.children := by
  have hsome : ((bothChannels.generateTopModule 10).bind Except.toOption).isSome = true := by
    decide +kernel
  obtain ⟨s, hs⟩ := Option.isSome_iff_exists.mp hsome
  obtain ⟨result, hresult, hok⟩ := Option.bind_eq_some_iff.mp hs
  cases result with
  | error fault => cases hok
  | ok _ =>
    obtain rfl := Option.some.inj hok
    obtain ⟨f, hheads, hunfolds, -⟩ := generateTopModule_isTree hresult
    exact ⟨_, f, hresult, hheads, hunfolds⟩

end Generator

end Mast
