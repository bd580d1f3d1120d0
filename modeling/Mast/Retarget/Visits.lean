import Mast.Retarget.Passes

/-!
# The visit of a tree

`ConfigureVisitor` gets through a tree of MIBs without a fault. The induction is on the nodes: each is visited on its own, a decision is taken about the path that leads to it, and the pass goes on with the nodes after it.
-/

namespace Mast

open Multiplexers Outcome

variable {mibs : Nat → Mib} {algorithm : ConfigureAlgorithm} {s s₁ s' : SystemModel}

/-! ### Counts -/

namespace Nodes

/-- The tally of siblings tells whether something is pending, if the counts of the parent nodes do. -/
theorem tally_ne_zero {nodes : Nodes}
    (hcounts : ∀ id firstChild, (id, firstChild) ∈ nodes.parents →
      (s.pendingCounts id ≠ 0 ↔ firstChild.anyPending s = true)) :
    nodes.tally s ≠ 0 ↔ nodes.anyPending s = true := by
  induction nodes with
  | none => simp [tally, anyPending, registerIds]
  | register id nextSibling ih =>
    have hnext := ih hcounts
    rw [tally, anyPending, registerIds, List.any_cons, Bool.or_eq_true, ← anyPending, ← hnext,
      Register.pendings]
    split <;> simp_all
  | parent kind id firstChild nextSibling _ ih =>
    have hfirst := hcounts id firstChild List.mem_cons_self
    have hnext := ih fun other child hmem =>
      hcounts other child (List.mem_cons_of_mem _ (List.mem_append_right _ hmem))
    rw [tally, anyPending, registerIds, List.any_append, Bool.or_eq_true, ← anyPending,
      ← anyPending, ← hnext, ← hfirst]
    omega

theorem mem_parentIds_alone {kind : ParentKind} {id other : Nat} {firstChild : Nodes} :
    other ∈ (parent kind id firstChild .none).parentIds ↔
      other = id ∨ other ∈ firstChild.parentIds := by
  simp [parentIds]

/-- Something is pending among siblings if it is at one of them. -/
theorem works_any (s : SystemModel) (nodes : Nodes) :
    (nodes.works s).any (fun work => work) = nodes.anyPending s := by
  induction nodes with
  | none => rfl
  | register id nextSibling ih =>
    rw [works, List.any_cons, ih, anyPending, anyPending, registerIds, List.any_cons]
  | parent kind id firstChild nextSibling _ ih =>
    rw [works, List.any_cons, ih, anyPending, anyPending, anyPending, registerIds, List.any_append]

theorem works_idle {nodes : Nodes} (hidle : nodes.anyPending s = false) :
    ∀ work ∈ nodes.works s, work = false := by
  rw [← works_any, List.any_eq_false] at hidle
  exact fun work hwork => Bool.eq_false_iff.mpr (hidle work hwork)

end Nodes

theorem Configured.isPending {nodes head tail : Nodes} (hsplits : nodes.Splits head tail)
    (h : Configured mibs algorithm head s s') : head.works s' = [head.isPending s'] := by
  cases hsplits with
  | register id nextSibling => rfl
  | parent kind id firstChild nextSibling =>
    have hcount := h.counts id firstChild List.mem_cons_self
    refine congrArg (fun work => [work]) (Bool.eq_iff_iff.mpr ?_)
    exact hcount.symm.trans decide_eq_true_iff.symm

theorem Configured.of_setPendingCount {nodes : Nodes} {id count : Nat}
    (h : Configured mibs algorithm nodes (s.setPendingCount id count) s') :
    Configured mibs algorithm nodes s s' := by
  refine ⟨h.written, h.counts, fun other firstChild hmem => ?_⟩
  obtain ⟨hresolved, hwidth, hquiet, hkept, htouched⟩ := h.linkers other firstChild hmem
  exact ⟨hresolved, hwidth, hquiet, hkept, htouched⟩

/-- The last decision about a linker whose register has not been visited. -/
theorem Decided.of_turned {mib : Mib} {works : List Bool} {value : Bits} {visited : Prop}
    {id count : Nat} (hmoving : Moving algorithm mib 1 works s s₁)
    (hturned : (s₁.setPendingCount id count).Turned mib.selectorRegister mib.width value s')
    (hresolved : mib.lever.Resolved (s₁.registers mib.selectorRegister).lastToSut works
      (s₁.registers mib.selectorRegister).nextToSut value) (hvisited : ¬visited) :
    Decided algorithm mib works visited s s' := by
  have hkept : (s₁.registers mib.selectorRegister).nextToSut = value →
      s'.registers mib.selectorRegister = s₁.registers mib.selectorRegister := by
    intro hsame
    rw [hturned.kept hsame]
    rfl
  refine ⟨?_, hturned.hasWidth, fun _ _ hvisit => absurd hvisit hvisited, fun hmoves hsame _ => ?_,
    fun _ => ?_⟩
  · rw [hmoving.lastToSut, hmoving.nextToSut] at hresolved
    rwa [hturned.nextToSut]
  · have hfirst := hmoving.kept hmoves
    rw [hturned.nextToSut, ← hfirst] at hsame
    rw [hkept hsame.symm, hfirst]
  · by_cases hsame : (s₁.registers mib.selectorRegister).nextToSut = value
    · rw [hkept hsame]
      exact hmoving.touched
    · right
      rw [hturned.flagged hsame]
      exact Nat.one_ne_zero

theorem Configured.of_child {kind : ParentKind} {id : Nat} {firstChild : Nodes}
    {siblings' : List Nat} (h : Configured mibs algorithm firstChild s s₁)
    (hretargetable : firstChild.Retargetable mibs siblings')
    (hregisters : ∀ reg ∈ firstChild.registerIds, s'.registers reg = s₁.registers reg)
    (hselectors : ∀ reg ∈ firstChild.selectorRegisters, s'.registers reg = s₁.registers reg)
    (hcounts : ∀ other ∈ firstChild.parentIds, s'.pendingCounts other = s₁.pendingCounts other)
    (hcount : s'.pendingCounts id = firstChild.tally s₁)
    (hlinker : ∀ p keepOpen, kind = .linker p keepOpen → Decided algorithm (mibs id)
      (firstChild.works s') ((mibs id).selectorRegister ∈ firstChild.registerIds) s s') :
    Configured mibs algorithm (.parent kind id firstChild .none) s s' := by
  have hchild := h.congr hretargetable hregisters hselectors hcounts
  have hids : (Nodes.parent kind id firstChild .none).registerIds = firstChild.registerIds :=
    List.append_nil _
  refine ⟨fun reg hreg => hchild.written reg (hids ▸ hreg), fun other child hmem => ?_,
    fun other child hmem => ?_⟩
  · rw [show (Nodes.parent kind id firstChild .none).parents =
      (id, firstChild) :: firstChild.parents from List.append_nil _] at hmem
    rcases List.mem_cons.mp hmem with heq | hbelow
    · obtain ⟨rfl, rfl⟩ := Prod.mk.inj heq
      rw [hcount, Nodes.tally_ne_zero h.counts, Nodes.anyPending_congr hregisters]
    · exact hchild.counts other child hbelow
  · rw [hids]
    cases kind with
    | linker p keepOpen =>
      rw [show (Nodes.parent (.linker p keepOpen) id firstChild .none).linkers =
        (id, firstChild) :: firstChild.linkers from List.append_nil _] at hmem
      rcases List.mem_cons.mp hmem with heq | hbelow
      · obtain ⟨rfl, rfl⟩ := Prod.mk.inj heq
        exact hlinker p keepOpen rfl
      · exact hchild.linkers other child hbelow
    | _ =>
      refine hchild.linkers other child ?_
      simpa [Nodes.linkers] using hmem

namespace ConfigureVisitor

variable {siblings : List Nat} {nodes head tail : Nodes} {path : Path}

/-! ### One node -/

/-- The decision about the path that leads to a node, once the node has been visited. -/
theorem Passed.decide (hsplits : nodes.Splits head tail)
    (hretargetable : head.Retargetable mibs siblings) (hpath : path.Ready mibs siblings head s)
    (hvisited : Passed mibs algorithm none head s s₁) :
    ∃ s', ConfigureVisitor.decide algorithm.create path head s₁ = .ok s' ∧
      Passed mibs algorithm path head s s' := by
  have hown : head.selectorRegisters ++ Path.selectorRegisters none = head.selectorRegisters :=
    List.append_nil _
  have hwork := hvisited.configured.isPending hsplits
  have hcount : 0 < head.siblingsCount := by
    cases hsplits <;> exact Nat.succ_pos _
  have hpath₁ : path.Ready mibs siblings head s₁ := by
    rcases path with _ | ⟨l, i⟩
    · trivial
    · obtain ⟨⟨hselector, hkeep, hready⟩, hrest⟩ := hpath
      have hsame := hvisited.visited.registers_eq (by rw [hown]; exact hrest.2.2.2.1) hrest.2.2.1
      exact ⟨⟨hselector, hkeep, hready.congr hsame⟩, hrest⟩
  obtain ⟨s', hdecide, hsetup, hcounts, hmoving⟩ := decide_passed hpath₁ hcount head
  have hsteered := decide_visited (List.Subset.refl _) head s₁ s' hdecide
  have hregisters : ∀ id ∈ head.registerIds, s'.registers id = s₁.registers id := fun id hid =>
    hsteered.registers_eq (fun hmoved => (hpath.selectorRegisters hmoved).1 hid) List.not_mem_nil
  have hselectors : ∀ id ∈ head.selectorRegisters, s'.registers id = s₁.registers id :=
    fun id hid => hsteered.registers_eq (fun hmoved => (hpath.selectorRegisters hmoved).2 hid)
      List.not_mem_nil
  refine ⟨s', hdecide, ?_, IsTrans.trans _ _ _ hvisited.sameSetup hsetup, ?_, ?_, ?_⟩
  · exact hvisited.configured.congr hretargetable hregisters hselectors fun id hid =>
      hcounts id fun hlinker => hpath.linkerIds hlinker hid
  · have hfirst := hvisited.visited
    rw [hown] at hfirst
    have hboth := (hfirst.mono (List.subset_append_left _ path.selectorRegisters)).trans
      (hsteered.mono (List.subset_append_right head.selectorRegisters _))
    rwa [List.append_nil] at hboth
  · intro id hid hlinker
    exact (hcounts id hlinker).trans (hvisited.others id hid List.not_mem_nil)
  · rw [Nodes.works_congr hregisters, hwork]
    rcases path with _ | ⟨l, i⟩
    · trivial
    · refine Mast.Moving.congr hmoving (hvisited.visited.registers_eq ?_ hpath.2.2.2.1) rfl
      rw [hown]
      exact hpath.2.2.2.2.1

theorem visit_splits (hsplits : nodes.Splits head tail) (path : Path)
    (algorithm : Option ConfigurationAlgorithm) (s : SystemModel) :
    visit algorithm path nodes s =
      (do
        let s ← visit algorithm none head s
        let s ← ConfigureVisitor.decide algorithm path head s
        visit algorithm path.next tail s) := by
  cases hsplits with
  | register id nextSibling => rfl
  | parent kind id firstChild nextSibling =>
    cases kind with
    | linker p keepOpen =>
      simp only [visit, bind, Except.bind]
      cases start algorithm ⟨id, p, keepOpen⟩ s with
      | error fault => rfl
      | ok s₁ =>
        simp only
        cases visit algorithm (some (⟨id, p, keepOpen⟩, 1)) firstChild s₁ with
        | error fault => rfl
        | ok s₂ =>
          simp only
          cases resolve algorithm ⟨id, p, keepOpen⟩
            (s₂.setPendingCount id (firstChild.tally s₂)) with
          | error fault => rfl
          | ok s₃ => rfl
    | _ =>
      simp only [visit, bind, Except.bind]
      cases visit algorithm none firstChild s with
      | error fault => rfl
      | ok s₁ => rfl

/-! ### All nodes -/

/-- Nodes that are ready are passed over without a fault. -/
def Passes (mibs : Nat → Mib) (algorithm : ConfigureAlgorithm) (nodes : Nodes) : Prop :=
  ∀ {path : Path} {siblings : List Nat} {s : SystemModel}, nodes.Wired mibs siblings →
    nodes.Ready mibs s → path.Ready mibs siblings nodes s →
    ∃ s', visit algorithm.create path nodes s = .ok s' ∧ Passed mibs algorithm path nodes s s'

theorem Passes.withoutPath (h : Passes mibs algorithm nodes) (hwired : nodes.Wired mibs siblings)
    (hready : nodes.Ready mibs s) : ∃ s', visit algorithm.create none nodes s = .ok s' ∧
      Passed mibs algorithm none nodes s s' :=
  h hwired hready trivial

theorem Passes.of_head (hsplits : nodes.Splits head tail)
    (hhead : ∀ {siblings : List Nat} {s : SystemModel}, nodes.Wired mibs siblings →
      nodes.Ready mibs s → ∃ s', visit algorithm.create none head s = .ok s' ∧
        Passed mibs algorithm none head s s')
    (htail : Passes mibs algorithm tail) : Passes mibs algorithm nodes := by
  intro path siblings s hwired hready hpath
  have hpathHead : path.Ready mibs siblings head s := by
    rcases path with _ | ⟨l, i⟩
    · trivial
    · obtain ⟨hlinker, ⟨hi, hle⟩, hbeside, hregister, hselectors, hparent⟩ := hpath
      rw [hsplits.registerIds, List.mem_append, not_or] at hregister
      rw [hsplits.selectorRegisters, List.mem_append, not_or] at hselectors
      rw [hsplits.parentIds, List.mem_append, not_or] at hparent
      have hone : head.siblingsCount = 1 := by
        cases hsplits <;> rfl
      rw [hsplits.siblingsCount] at hle
      exact ⟨hlinker, ⟨hi, by omega⟩, hbeside, hregister.1, hselectors.1, hparent.1⟩
  obtain ⟨s₁, hvisit, hvisited⟩ := hhead hwired hready
  obtain ⟨s₂, hdecide, hdecided⟩ :=
    hvisited.decide hsplits (hsplits.retargetable hwired.retargetable).1 hpathHead
  obtain ⟨hreadyTail, hpathTail⟩ := Passed.ready hsplits hwired hpath hready hdecided
  obtain ⟨s', hrest, hpassed⟩ := htail (hsplits.wired hwired) hreadyTail hpathTail
  refine ⟨s', ?_, Passed.append hsplits hwired hpath hdecided hpassed⟩
  rw [visit_splits hsplits]
  exact bind_eq_ok.mpr ⟨s₁, hvisit, bind_eq_ok.mpr ⟨s₂, hdecide, hrest⟩⟩

theorem register_passed (id : Nat) (s : SystemModel) :
    ∃ s', visit algorithm.create none (.register id .none) s = .ok s' ∧
      Passed mibs algorithm none (.register id .none) s s' := by
  refine ⟨s.setRegister id (visitRegister (s.registers id)), rfl, ⟨fun reg hreg hnew => ?_, ?_, ?_⟩,
    SystemModel.setRegister_sameSetup ⟨rfl, rfl, rfl, rfl, rfl, rfl⟩, Visited.visitRegister _ s id,
    fun _ _ _ => rfl, trivial⟩
  · rw [List.mem_singleton.mp hreg, SystemModel.setRegister_self] at hnew ⊢
    exact visitRegister_written hnew
  · exact fun _ _ hmem => absurd hmem List.not_mem_nil
  · exact fun _ _ hmem => absurd hmem List.not_mem_nil

theorem chain_passed {id : Nat} {firstChild nextSibling : Nodes}
    (hwired : (Nodes.parent .chain id firstChild nextSibling).Wired mibs siblings)
    (hready : (Nodes.parent .chain id firstChild nextSibling).Ready mibs s)
    (hchild : Passes mibs algorithm firstChild) :
    ∃ s', visit algorithm.create none (.parent .chain id firstChild .none) s = .ok s' ∧
      Passed mibs algorithm none (.parent .chain id firstChild .none) s s' := by
  have hbelow := hwired.child _ hwired.retargetable.1 fun _ hreg => hreg
  have hreadyChild : firstChild.Ready mibs s := fun other child hmem =>
    hready other child (List.mem_append_left _ hmem)
  have hfresh : id ∉ firstChild.parentIds := fun hid =>
    (List.nodup_cons.mp hwired.parents).1 (List.mem_append_left _ hid)
  obtain ⟨s₁, hvisit, hpassed⟩ := Passes.withoutPath hchild hbelow hreadyChild
  have hrun : visit algorithm.create none (.parent .chain id firstChild .none) s =
      .ok (s₁.setPendingCount id (firstChild.tally s₁)) := by
    rw [visit, hvisit]
    · rfl
    · exact fun p keepOpen hkind => by cases hkind
  refine ⟨_, hrun, ⟨?_, hpassed.sameSetup,
    visit_visited (List.subset_append_right _ _) (List.subset_append_left _ _) s _ hrun, ?_,
    trivial⟩⟩
  · refine hpassed.configured.of_child hbelow.retargetable (fun _ _ => rfl) (fun _ _ => rfl)
      (fun other hother => Function.update_of_ne (ne_of_mem_of_not_mem hother hfresh) _ _)
      (Function.update_self _ _ _) fun p keepOpen hkind => by cases hkind
  · intro other hother _
    rw [Nodes.mem_parentIds_alone, not_or] at hother
    exact (Function.update_of_ne hother.1 _ _).trans
      (hpassed.others other hother.2 List.not_mem_nil)

theorem linker_passed {p : PathSelector} {keepOpen : Bool} {id : Nat}
    {firstChild nextSibling : Nodes}
    (hwired : (Nodes.parent (.linker p keepOpen) id firstChild nextSibling).Wired mibs siblings)
    (hready : (Nodes.parent (.linker p keepOpen) id firstChild nextSibling).Ready mibs s)
    (hchild : Passes mibs algorithm firstChild) :
    ∃ s', visit algorithm.create none (.parent (.linker p keepOpen) id firstChild .none) s =
        .ok s' ∧
      Passed mibs algorithm none (.parent (.linker p keepOpen) id firstChild .none) s s' := by
  obtain ⟨⟨hselector, hkeep, hbeside, hpaths⟩, hretargetable, -⟩ := hwired.retargetable
  have hbelow := hwired.child [] hretargetable fun _ hreg => absurd hreg List.not_mem_nil
  have hmib : (mibs id).Ready s := hready id firstChild List.mem_cons_self
  have hreadyChild : firstChild.Ready mibs s := fun other child hmem =>
    hready other child (List.mem_cons_of_mem _ (List.mem_append_left _ hmem))
  have hfresh : id ∉ firstChild.parentIds := fun hid =>
    (List.nodup_cons.mp hwired.parents).1 (List.mem_append_left _ hid)
  have hregister : (mibs id).selectorRegister ∉ firstChild.registerIds :=
    hwired.siblings_apart hbeside
  have hselectors : (mibs id).selectorRegister ∉ firstChild.selectorRegisters := fun hmem =>
    hregister ((hretargetable.selectorRegisters_subset hmem).resolve_left List.not_mem_nil)
  let l : Linker := ⟨id, p, keepOpen⟩
  have hpath : Path.Ready mibs [] firstChild (s.setPendingCount id 0) (some (l, 1)) :=
    ⟨⟨hselector, hkeep, hmib.congr rfl⟩, ⟨Nat.one_pos, by rw [hpaths, Nat.add_comm]⟩, rfl,
      hregister, hselectors, hfresh⟩
  have hreadyStart : firstChild.Ready mibs (s.setPendingCount id 0) := fun other child hmem =>
    (hreadyChild other child hmem).congr rfl
  obtain ⟨s₁, hvisit, hpassed⟩ := hchild hbelow hreadyStart hpath
  have hmoving : Mast.Moving algorithm (mibs id) 1 (firstChild.works s₁) s s₁ :=
    Mast.Moving.congr hpassed.moving rfl rfl
  -- the last decision, with the tally
  let s₂ := s₁.setPendingCount id (firstChild.tally s₁)
  have htally : s₂.pendingCounts id = firstChild.tally s₁ := Function.update_self _ _ _
  have hmux : s₂.Mux (mibs id).selectorRegister (mibs id).width
      (s₁.registers (mibs id).selectorRegister).nextToSut
      (s₁.registers (mibs id).selectorRegister).lastToSut := by
    refine ⟨hmoving.hasWidth, fun hupto => hmib.ordering ?_, rfl, rfl⟩
    have hsetup : s.SameSetup s₁ := hpassed.sameSetup
    rwa [← (hsetup (mibs id).selectorRegister).bitsOrdering]
  have hproper : (mibs id).lever.Proper (s₁.registers (mibs id).selectorRegister).nextToSut := by
    rw [hmoving.nextToSut]
    refine Multiplexer.proper_settle hmib.proper Nat.one_pos ?_
    rw [Nodes.works_length, hpaths, Nat.add_comm]
  have hidle : l.isPending s₂ = false → ∀ work ∈ firstChild.works s₁, work = false := by
    intro hpending
    have hzero : ¬firstChild.tally s₁ ≠ 0 := by
      rw [← htally]
      exact of_decide_eq_false hpending
    rw [Nodes.tally_ne_zero hpassed.configured.counts, Bool.not_eq_true] at hzero
    exact Nodes.works_idle hzero
  obtain ⟨value, s', hresolve, hturned, hresolved⟩ :=
    resolve_mib (l := l) hselector hmux algorithm hproper hidle
  have hrun : visit algorithm.create none (.parent (.linker p keepOpen) id firstChild .none) s =
      .ok s' := by
    have hstart : start algorithm.create l s = .ok (s.setPendingCount id 0) := by
      cases algorithm <;> rfl
    exact bind_eq_ok.mpr ⟨_, hstart, bind_eq_ok.mpr ⟨s₁, hvisit,
      bind_eq_ok.mpr ⟨s', hresolve, rfl⟩⟩⟩
  have hregisters : ∀ reg ∈ firstChild.registerIds, s'.registers reg = s₁.registers reg :=
    fun reg hreg => hturned.steered.others reg fun hmem =>
      hregister (List.mem_singleton.mp hmem ▸ hreg)
  have hothers : ∀ reg ∈ firstChild.selectorRegisters, s'.registers reg = s₁.registers reg :=
    fun reg hreg => hturned.steered.others reg fun hmem =>
      hselectors (List.mem_singleton.mp hmem ▸ hreg)
  have hcounts : ∀ {other}, other ≠ id → s'.pendingCounts other = s₁.pendingCounts other := by
    intro other hother
    rw [hturned.steered.pendingCounts]
    exact Function.update_of_ne hother _ _
  refine ⟨s', hrun, ⟨?_, fun reg => (hpassed.sameSetup reg).trans (hturned.sameSetup reg),
    visit_visited (List.subset_append_right _ _) (List.subset_append_left _ _) s _ hrun, ?_,
    trivial⟩⟩
  · refine hpassed.configured.of_setPendingCount.of_child hretargetable hregisters hothers
      (fun other hother => hcounts (ne_of_mem_of_not_mem hother hfresh)) ?_ fun _ _ _ => ?_
    · rw [hturned.steered.pendingCounts]
      exact htally
    · rw [Nodes.works_congr hregisters]
      exact Decided.of_turned hmoving hturned hresolved hregister
  · intro other hother _
    rw [Nodes.mem_parentIds_alone, not_or] at hother
    rw [hcounts hother.1, hpassed.others other hother.2 fun hlinker =>
      hother.1 (List.mem_singleton.mp hlinker)]
    exact Function.update_of_ne hother.1 _ _

theorem visit_passed (mibs : Nat → Mib) (algorithm : ConfigureAlgorithm) (nodes : Nodes) :
    Passes mibs algorithm nodes := by
  induction nodes with
  | none =>
    intro path siblings s _ _ hpath
    refine ⟨s, rfl, ⟨?_, ?_, ?_⟩, .refl s, .of_steered (.refl s), fun _ _ _ => rfl, ?_⟩
    · exact fun _ hmem => absurd hmem List.not_mem_nil
    · exact fun _ _ hmem => absurd hmem List.not_mem_nil
    · exact fun _ _ hmem => absurd hmem List.not_mem_nil
    · rcases path with _ | ⟨l, i⟩
      · trivial
      · exact Mast.Moving.nil hpath.1.2.2 i
  | register id nextSibling ih =>
    exact Passes.of_head (.register id nextSibling) (fun _ _ => register_passed id _) ih
  | parent kind id firstChild nextSibling ihChild ihNext =>
    refine Passes.of_head (.parent kind id firstChild nextSibling) (fun hwired hready => ?_) ihNext
    cases kind with
    | linker p keepOpen => exact linker_passed hwired hready ihChild
    | chain => exact chain_passed hwired hready ihChild
    | _ => exact hwired.retargetable.elim

end ConfigureVisitor

end Mast
