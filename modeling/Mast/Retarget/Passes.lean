import Mast.Retarget.Configured

/-!
# A pass of the configurator

`ConfigureVisitor` gets through a tree of MIBs without a fault, and what it leaves behind is configured. The induction is on the nodes. Each node is visited, a decision is taken about the path that leads to it, and the pass goes on with the nodes after it.
-/

namespace Mast

open Multiplexers Outcome

variable {mibs : Nat → Mib} {algorithm : ConfigureAlgorithm} {s s₁ s' : SystemModel}

/-! ### The register of the path -/

/-- What visiting some children of a linker does to the register of its selector. -/
structure Moving (algorithm : ConfigureAlgorithm) (mib : Mib) (i : Nat) (works : List Bool)
    (s s' : SystemModel) : Prop where
  nextToSut : (s'.registers mib.selectorRegister).nextToSut = mib.settled algorithm s i works
  lastToSut : (s'.registers mib.selectorRegister).lastToSut =
    (s.registers mib.selectorRegister).lastToSut
  hasWidth : (s'.registers mib.selectorRegister).HasWidth mib.width
  kept : mib.moves algorithm s i works = false →
    s'.registers mib.selectorRegister = s.registers mib.selectorRegister
  touched : s'.registers mib.selectorRegister = s.registers mib.selectorRegister ∨
    (s'.registers mib.selectorRegister).pendingCount ≠ 0

namespace Moving

variable {mib : Mib} {i : Nat} {work : Bool} {works : List Bool}

theorem nil (hready : mib.Ready s) (i : Nat) : Moving algorithm mib i [] s s :=
  ⟨rfl, rfl, hready.hasWidth, fun _ => rfl, .inl rfl⟩

theorem trans (h : Moving algorithm mib i [work] s s₁)
    (h' : Moving algorithm mib (i + 1) works s₁ s') :
    Moving algorithm mib i (work :: works) s s' := by
  have hlast := h.lastToSut
  have hnext : (s₁.registers mib.selectorRegister).nextToSut =
      mib.lever.step algorithm.policy (s.registers mib.selectorRegister).lastToSut i work
        (s.registers mib.selectorRegister).nextToSut := h.nextToSut
  have hnext' := h'.nextToSut
  have hkept' := h'.kept
  unfold Mib.settled at hnext'
  unfold Mib.moves at hkept'
  rw [hlast, hnext] at hnext' hkept'
  refine ⟨hnext', h'.lastToSut.trans hlast, h'.hasWidth, fun hmoves => ?_, ?_⟩
  · obtain ⟨hfirst, hrest⟩ := Bool.or_eq_false_iff.mp hmoves
    have hstill : mib.moves algorithm s i [work] = false := by
      rw [Mib.moves, Multiplexer.moves, hfirst]
      rfl
    exact (hkept' hrest).trans (h.kept hstill)
  · rcases h'.touched with hsame | hpending
    · rw [hsame]
      exact h.touched
    · exact .inr hpending

theorem congr {s₀ s₂ : SystemModel} (h : Moving algorithm mib i works s s₁)
    (hsame : s.registers mib.selectorRegister = s₀.registers mib.selectorRegister)
    (hsame' : s₂.registers mib.selectorRegister = s₁.registers mib.selectorRegister) :
    Moving algorithm mib i works s₀ s₂ := by
  obtain ⟨hnext, hlast, hwidth, hkept, htouched⟩ := h
  unfold Mib.settled at hnext
  unfold Mib.moves at hkept
  rw [hsame] at hnext hlast hkept htouched
  constructor <;> rw [hsame']
  · exact hnext
  · exact hlast
  · exact hwidth
  · exact hkept
  · exact htouched

theorem of_turned {count id : Nat} (hlast : (s.registers mib.selectorRegister).lastToSut =
      (s'.registers mib.selectorRegister).lastToSut)
    (hturned : (s.setPendingCount id count).Turned mib.selectorRegister mib.width
      (mib.lever.step algorithm.policy (s.registers mib.selectorRegister).lastToSut i work
        (s.registers mib.selectorRegister).nextToSut) s') :
    Moving algorithm mib i [work] s s' := by
  have hkept : (s.registers mib.selectorRegister).nextToSut =
      mib.lever.step algorithm.policy (s.registers mib.selectorRegister).lastToSut i work
        (s.registers mib.selectorRegister).nextToSut →
      s'.registers mib.selectorRegister = s.registers mib.selectorRegister := by
    intro hsame
    rw [hturned.kept hsame]
    rfl
  refine ⟨hturned.nextToSut, hlast.symm, hturned.hasWidth, fun hmoves => hkept ?_, ?_⟩
  · have hstep := (Bool.or_eq_false_iff.mp hmoves).1
    exact (not_not.mp (of_decide_eq_false hstep)).symm
  · by_cases hsame : (s.registers mib.selectorRegister).nextToSut =
        mib.lever.step algorithm.policy (s.registers mib.selectorRegister).lastToSut i work
          (s.registers mib.selectorRegister).nextToSut
    · exact .inl (hkept hsame)
    · right
      rw [hturned.flagged hsame]
      exact Nat.one_ne_zero

end Moving

theorem Visited.mono {regs regs' ids : List Nat} (h : Visited regs ids s s') (hsub : regs ⊆ regs') :
    Visited regs' ids s s' :=
  ⟨h.identifierMapping, h.steered, fun id hid => h.flagged id fun hmem => hid (hsub hmem)⟩

/-- A selector that is not steered stays ready. -/
theorem Mib.Ready.visited {mib : Mib} {regs ids : List Nat} (h : mib.Ready s)
    (hvisited : Visited regs ids s s') (hfresh : mib.selectorRegister ∉ regs) : mib.Ready s' := by
  have hflagged := hvisited.flagged _ hfresh
  split at hflagged
  · constructor <;> rw [hflagged]
    · exact ⟨h.hasWidth.nextToSut, h.hasWidth.lastToSut, h.hasWidth.bypass⟩
    · exact h.ordering
    · exact h.proper
  · exact h.congr hflagged

/-! ### Nodes that are ready -/

namespace Nodes

/-- The registers that select the linkers can be read and hold values the selectors may have left there. -/
def Ready (mibs : Nat → Mib) (nodes : Nodes) (s : SystemModel) : Prop :=
  ∀ id firstChild, (id, firstChild) ∈ nodes.linkers → (mibs id).Ready s

variable {nodes head tail : Nodes} {siblings : List Nat}

theorem mem_selectorRegisters (hretargetable : nodes.Retargetable mibs siblings) {id : Nat}
    {firstChild : Nodes} (hmem : (id, firstChild) ∈ nodes.linkers) :
    (mibs id).selectorRegister ∈ nodes.selectorRegisters := by
  rw [hretargetable.selectorRegisters_eq]
  exact List.mem_map.mpr ⟨(id, firstChild), hmem, rfl⟩

theorem exists_linker (hretargetable : nodes.Retargetable mibs siblings) {reg : Nat}
    (hreg : reg ∈ nodes.selectorRegisters) :
    ∃ linker ∈ nodes.linkers, (mibs linker.1).selectorRegister = reg := by
  rwa [hretargetable.selectorRegisters_eq, List.mem_map] at hreg

theorem Splits.retargetable (h : nodes.Splits head tail)
    (hretargetable : nodes.Retargetable mibs siblings) :
    head.Retargetable mibs siblings ∧ tail.Retargetable mibs siblings := by
  cases h with
  | register id nextSibling => exact ⟨trivial, hretargetable⟩
  | parent kind id firstChild nextSibling =>
    cases kind with
    | linker p keepOpen =>
      obtain ⟨hown, hchild, hnext⟩ := hretargetable
      exact ⟨⟨hown, hchild, trivial⟩, hnext⟩
    | chain => exact ⟨⟨hretargetable.1, trivial⟩, hretargetable.2⟩
    | _ => exact hretargetable.elim

theorem Splits.wired (h : nodes.Splits head tail) (hwired : nodes.Wired mibs siblings) :
    tail.Wired mibs siblings := by
  cases h with
  | register id nextSibling => exact hwired.afterRegister
  | parent kind id firstChild nextSibling => exact hwired.afterParent

theorem Splits.below (h : nodes.Splits head tail) (hwired : nodes.Wired mibs siblings) {id : Nat}
    {firstChild : Nodes} (hmem : (id, firstChild) ∈ head.parents) {reg : Nat}
    (hreg : reg ∈ firstChild.registerIds) : reg ∉ tail.selectorRegisters := by
  cases h with
  | register id nextSibling => cases hmem
  | parent kind id child nextSibling =>
    have hchild : reg ∈ child.registerIds := by
      have hhead : reg ∈ (Nodes.parent kind id child .none).registerIds := (mem_parents hmem).2 hreg
      simpa [Nodes.registerIds] using hhead
    exact fun hselector => hwired.selectors_apart hselector hchild

end Nodes

/-- A configuration is a matter of the registers and the counts of its nodes. -/
theorem Configured.congr {nodes : Nodes} {siblings : List Nat}
    (h : Configured mibs algorithm nodes s s₁) (hretargetable : nodes.Retargetable mibs siblings)
    (hregisters : ∀ id ∈ nodes.registerIds, s'.registers id = s₁.registers id)
    (hselectors : ∀ id ∈ nodes.selectorRegisters, s'.registers id = s₁.registers id)
    (hcounts : ∀ id ∈ nodes.parentIds, s'.pendingCounts id = s₁.pendingCounts id) :
    Configured mibs algorithm nodes s s' where
  written id hid hnew := by
    rw [hregisters id hid] at hnew ⊢
    exact h.written id hid hnew
  counts id firstChild hmem := by
    obtain ⟨hid, hbelow⟩ := Nodes.mem_parents hmem
    rw [hcounts id hid, Nodes.anyPending_congr fun reg hreg => hregisters reg (hbelow hreg)]
    exact h.counts id firstChild hmem
  linkers id firstChild hmem := by
    have hsame := hselectors _ (Nodes.mem_selectorRegisters hretargetable hmem)
    have hbelow := (Nodes.mem_parents (Nodes.linkers_subset nodes hmem)).2
    obtain ⟨hresolved, hwidth, hquiet, hkept, htouched⟩ := h.linkers id firstChild hmem
    rw [Nodes.works_congr fun reg hreg => hregisters reg (hbelow hreg)]
    constructor <;> rw [hsame]
    · exact hresolved
    · exact hwidth
    · exact hquiet
    · exact hkept
    · exact htouched

/-! ### Nodes behind a path -/

namespace ConfigureVisitor

/-- What visiting nodes does to the register of the linker they are children of. -/
def Path.Moving (mibs : Nat → Mib) (algorithm : ConfigureAlgorithm) :
    Path → List Bool → SystemModel → SystemModel → Prop
  | none, _, _, _ => True
  | some (l, i), works, s, s' => Mast.Moving algorithm (mibs l.id) i works s s'

/-- The nodes are the children, from a path on, of the linker of a MIB whose register is elsewhere. -/
def Path.Ready (mibs : Nat → Mib) (siblings : List Nat) (nodes : Nodes) (s : SystemModel) :
    Path → Prop
  | none => True
  | some (l, i) =>
    (l.selector = (mibs l.id).selector ∧ l.keepOpen = false ∧ (mibs l.id).Ready s) ∧
    (0 < i ∧ i + nodes.siblingsCount ≤ (mibs l.id).paths + 1) ∧ siblings = [] ∧
    (mibs l.id).selectorRegister ∉ nodes.registerIds ∧
    (mibs l.id).selectorRegister ∉ nodes.selectorRegisters ∧ l.id ∉ nodes.parentIds

def Path.linkerIds : Path → List Nat
  | none => []
  | some (l, _) => [l.id]

theorem Path.linkerIds_next (path : Path) : path.next.linkerIds = path.linkerIds := by
  cases path <;> rfl

section Ready

variable {siblings : List Nat} {nodes : Nodes} {path : Path}

theorem Path.Ready.selectorRegisters (h : path.Ready mibs siblings nodes s) {reg : Nat}
    (hreg : reg ∈ path.selectorRegisters) :
    reg ∉ nodes.registerIds ∧ reg ∉ nodes.selectorRegisters := by
  rcases path with _ | ⟨l, i⟩
  · cases hreg
  · obtain ⟨⟨hselector, -⟩, -, -, hregister, hselectors, -⟩ := h
    have hsame : reg = (mibs l.id).selectorRegister := by
      rw [Path.selectorRegisters, hselector] at hreg
      exact List.mem_singleton.mp hreg
    rw [hsame]
    exact ⟨hregister, hselectors⟩

theorem Path.Ready.linkerIds (h : path.Ready mibs siblings nodes s) {id : Nat}
    (hid : id ∈ path.linkerIds) : id ∉ nodes.parentIds := by
  rcases path with _ | ⟨l, i⟩
  · cases hid
  · obtain ⟨-, -, -, -, -, hparent⟩ := h
    rwa [List.mem_singleton.mp hid]

end Ready

/-! ### What a pass leaves behind -/

/-- What a pass over nodes does. -/
structure Passed (mibs : Nat → Mib) (algorithm : ConfigureAlgorithm) (path : Path) (nodes : Nodes)
    (s s' : SystemModel) : Prop where
  configured : Configured mibs algorithm nodes s s'
  sameSetup : s.SameSetup s'
  visited : Visited (nodes.selectorRegisters ++ path.selectorRegisters) nodes.registerIds s s'
  others (id : Nat) : id ∉ nodes.parentIds → id ∉ path.linkerIds →
    s'.pendingCounts id = s.pendingCounts id
  moving : path.Moving mibs algorithm (nodes.works s') s s'

theorem decide_passed {path : Path} {siblings : List Nat} {nodes : Nodes}
    (hpath : path.Ready mibs siblings nodes s) (hcount : 0 < nodes.siblingsCount) (child : Nodes) :
    ∃ s', decide algorithm.create path child s = .ok s' ∧ s.SameSetup s' ∧
      (∀ id, id ∉ path.linkerIds → s'.pendingCounts id = s.pendingCounts id) ∧
      path.Moving mibs algorithm [child.isPending s] s s' := by
  rcases path with _ | ⟨l, i⟩
  · exact ⟨s, rfl, .refl s, fun _ _ => rfl, trivial⟩
  · obtain ⟨⟨hselector, hkeep, hready⟩, ⟨hi, hle⟩, -⟩ := hpath
    obtain ⟨count, s', hdecide, hturned⟩ :=
      decide_mib hselector hready.mux algorithm hkeep hi (by omega) child
    refine ⟨s', hdecide, hturned.sameSetup, fun id hid => ?_, ?_⟩
    · rw [hturned.steered.pendingCounts]
      exact Function.update_of_ne (fun hsame => hid (List.mem_singleton.mpr hsame)) _ _
    · exact Moving.of_turned (hturned.steered.registers _).lastToSut.symm hturned

section Append

variable {nodes head tail : Nodes} {siblings : List Nat} {path : Path}
  (hsplits : nodes.Splits head tail) (hwired : nodes.Wired mibs siblings)
include hsplits hwired

/-- What a pass over the first node steers drives no linker after it. -/
theorem tailSelector_fresh (hpath : path.Ready mibs siblings nodes s) {id : Nat}
    {firstChild : Nodes} (hmem : (id, firstChild) ∈ tail.linkers) :
    (mibs id).selectorRegister ∉ head.selectorRegisters ++ path.selectorRegisters := by
  have hlater := Nodes.mem_selectorRegisters (hsplits.retargetable hwired.retargetable).2 hmem
  have hselectors := hwired.selectors
  rw [hsplits.selectorRegisters, List.nodup_append] at hselectors
  intro hmoved
  rcases List.mem_append.mp hmoved with hbefore | hown
  · exact hselectors.2.2 _ hbefore _ hlater rfl
  · have hnot := (hpath.selectorRegisters hown).2
    rw [hsplits.selectorRegisters] at hnot
    exact hnot (List.mem_append_right _ hlater)

theorem Passed.apart (hpath : path.Ready mibs siblings nodes s)
    (htail : Passed mibs algorithm path.next tail s₁ s') :
    Apart mibs head tail (head.selectorRegisters ++ path.selectorRegisters)
      (tail.selectorRegisters ++ path.next.selectorRegisters) s₁ s' := by
  obtain ⟨hhead, hrest⟩ := hsplits.retargetable hwired.retargetable
  have hregisters := hwired.registers
  have hselectors := hwired.selectors
  have hparents := hwired.parents
  rw [hsplits.registerIds, List.nodup_append] at hregisters
  rw [hsplits.selectorRegisters, List.nodup_append] at hselectors
  rw [hsplits.parentIds, List.nodup_append] at hparents
  have hpathRegister : ∀ {reg}, reg ∈ path.selectorRegisters → reg ∉ head.registerIds ∧
      reg ∉ head.selectorRegisters := by
    intro reg hreg
    obtain ⟨hregister, hselector⟩ := hpath.selectorRegisters hreg
    rw [hsplits.registerIds, List.mem_append, not_or] at hregister
    rw [hsplits.selectorRegisters, List.mem_append, not_or] at hselector
    exact ⟨hregister.1, hselector.1⟩
  rw [Path.selectorRegisters_next]
  refine ⟨fun id hid hlater => hregisters.2.2 id hid id hlater rfl, ?_, ?_, ?_, ?_, ?_⟩
  · intro id firstChild hmem reg hreg hmoved
    rcases List.mem_append.mp hmoved with hlater | hown
    · exact hsplits.below hwired hmem hreg hlater
    · exact (hpathRegister hown).1 ((Nodes.mem_parents hmem).2 hreg)
  · intro reg hreg hmoved
    rcases List.mem_append.mp hmoved with hlater | hown
    · exact Nodes.exists_linker hrest hlater
    · exact absurd hreg (hpathRegister hown).1
  · intro id firstChild hmem hmoved
    have hbefore := Nodes.mem_selectorRegisters hhead hmem
    rcases List.mem_append.mp hmoved with hlater | hown
    · exact hselectors.2.2 _ hbefore _ hlater rfl
    · exact (hpathRegister hown).2 hbefore
  · exact fun id firstChild hmem => tailSelector_fresh hsplits hwired hpath hmem
  · intro id firstChild hmem
    have hbefore := (Nodes.mem_parents hmem).1
    refine htail.others id (fun hlater => hparents.2.2 id hbefore id hlater rfl) ?_
    rw [Path.linkerIds_next]
    intro hown
    have hnot := hpath.linkerIds hown
    rw [hsplits.parentIds] at hnot
    exact hnot (List.mem_append_left _ hbefore)

theorem Passed.append (hpath : path.Ready mibs siblings nodes s)
    (hhead : Passed mibs algorithm path head s s₁)
    (htail : Passed mibs algorithm path.next tail s₁ s') :
    Passed mibs algorithm path nodes s s' where
  configured := by
    have hapart := Passed.apart hsplits hwired hpath htail
    exact Configured.append hsplits hapart hhead.configured hhead.visited htail.configured
      htail.visited
  sameSetup := IsTrans.trans _ _ _ hhead.sameSetup htail.sameSetup
  visited := by
    have hbefore := hhead.visited
    have hlater := htail.visited
    rw [Path.selectorRegisters_next] at hlater
    rw [hsplits.selectorRegisters, hsplits.registerIds]
    exact (hbefore.mono (List.append_subset.mpr ⟨List.subset_append_of_subset_left _
      (List.subset_append_left _ _), List.subset_append_right _ _⟩)).trans
        (hlater.mono (List.append_subset.mpr ⟨List.subset_append_of_subset_left _
          (List.subset_append_right _ _), List.subset_append_right _ _⟩))
  others id hid hown := by
    rw [hsplits.parentIds, List.mem_append, not_or] at hid
    rw [htail.others id hid.2 (by rwa [Path.linkerIds_next]), hhead.others id hid.1 hown]
  moving := by
    have hapart := Passed.apart hsplits hwired hpath htail
    rcases path with _ | ⟨l, i⟩
    · trivial
    · have hbeside : siblings = [] := hpath.2.2.1
      subst hbeside
      obtain ⟨work, hfirst, hworks⟩ := hsplits.works s'
      have hsame : ∀ reg ∈ head.registerIds, s'.registers reg = s₁.registers reg := by
        intro reg hreg
        have hnot := hapart.registers reg hreg
        refine htail.visited.registers_eq (fun hmoved => ?_) hnot
        rcases List.mem_append.mp hmoved with hlater | hown
        · have hbelow := (hsplits.wired hwired).retargetable.selectorRegisters_subset hlater
          exact hnot (hbelow.resolve_left List.not_mem_nil)
        · have hregister := (hpath.selectorRegisters hown).1
          rw [hsplits.registerIds] at hregister
          exact hregister (List.mem_append_left _ hreg)
      have hmoving := hhead.moving
      rw [← Nodes.works_congr hsame, hfirst] at hmoving
      rw [hworks]
      exact Mast.Moving.trans hmoving htail.moving

/-- The nodes after the first one are ready for the rest of the pass. -/
theorem Passed.ready (hpath : path.Ready mibs siblings nodes s) (hready : nodes.Ready mibs s)
    (hhead : Passed mibs algorithm path head s s₁) :
    tail.Ready mibs s₁ ∧ path.next.Ready mibs siblings tail s₁ := by
  constructor
  · intro id firstChild hmem
    have hlinker := hready id firstChild (by
      rw [hsplits.linkers]
      exact List.mem_append_right _ hmem)
    exact hlinker.visited hhead.visited (tailSelector_fresh hsplits hwired hpath hmem)
  · rcases path with _ | ⟨l, i⟩
    · trivial
    · obtain ⟨⟨hselector, hkeep, hlinker⟩, ⟨hi, hle⟩, hbeside, hregister, hselectors, hparent⟩ :=
        hpath
      rw [hsplits.siblingsCount] at hle
      rw [hsplits.registerIds, List.mem_append, not_or] at hregister
      rw [hsplits.selectorRegisters, List.mem_append, not_or] at hselectors
      rw [hsplits.parentIds, List.mem_append, not_or] at hparent
      have hmoving : Mast.Moving algorithm (mibs l.id) i (head.works s₁) s s₁ := hhead.moving
      obtain ⟨work, hfirst, -⟩ := hsplits.works s₁
      rw [hfirst] at hmoving
      refine ⟨⟨hselector, hkeep, hmoving.hasWidth, fun hupto => ?_, ?_⟩, ⟨by omega, by omega⟩,
        hbeside, hregister.2, hselectors.2, hparent.2⟩
      · rw [(hhead.sameSetup _).bitsOrdering] at hupto
        exact hlinker.ordering hupto
      · rw [hmoving.nextToSut]
        exact Multiplexer.proper_settle hlinker.proper hi (by simp; omega)

end Append

end ConfigureVisitor

end Mast
