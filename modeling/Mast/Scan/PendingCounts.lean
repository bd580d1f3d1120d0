import Mast.Scan.Configure

/-!
# Pending counts after a configuration

The first pass flags every register that is not a selector register for exactly what it has to write, whatever the algorithm does. The second pass only sets flags, so a selector register that was flagged and then given back its last value stays flagged. The counts of the parent nodes are those of the flags.
-/

namespace Mast

open Outcome

/-! ### The first pass -/

/-- What visiting some registers does to a model: those that no selector drives are flagged, and the others are steered at most. -/
structure Visited (regs ids : List Nat) (s s' : SystemModel) : Prop where
  identifierMapping : s'.identifierMapping = s.identifierMapping
  steered (id : Nat) : (s.registers id).Steered (s'.registers id)
  flagged (id : Nat) : id ∉ regs → s'.registers id =
    if id ∈ ids then ConfigureVisitor.visitRegister (s.registers id) else s.registers id

theorem ConfigureVisitor.visitRegister_steered (r : Register) : r.Steered (visitRegister r) :=
  ⟨rfl, rfl, rfl, rfl, rfl, rfl, fun _ => rfl, id⟩

/-- A flagged register is not changed by being visited again. -/
theorem ConfigureVisitor.visitRegister_visitRegister (r : Register) :
    visitRegister (visitRegister r) = visitRegister r := rfl

namespace Visited

variable {regs ids ids' : List Nat} {s s' s'' : SystemModel}

theorem of_steered (h : SystemModel.Steered regs s s') : Visited regs [] s s' where
  identifierMapping := h.identifierMapping
  steered := h.registers
  flagged id hid := h.others id hid

theorem setPendingCount (regs : List Nat) (s : SystemModel) (id count : Nat) :
    Visited regs [] s (s.setPendingCount id count) :=
  ⟨rfl, fun _ => .refl _, fun _ _ => rfl⟩

theorem trans (h : Visited regs ids s s') (h' : Visited regs ids' s' s'') :
    Visited regs (ids ++ ids') s s'' where
  identifierMapping := h'.identifierMapping.trans h.identifierMapping
  steered id := (h.steered id).trans (h'.steered id)
  flagged id hid := by
    rw [h'.flagged id hid, h.flagged id hid]
    by_cases hfirst : id ∈ ids
    · by_cases hsecond : id ∈ ids'
      · simp [hfirst, hsecond, ConfigureVisitor.visitRegister_visitRegister]
      · simp [hfirst, hsecond]
    · by_cases hsecond : id ∈ ids'
      · simp [hfirst, hsecond]
      · simp [hfirst, hsecond]

theorem visitRegister (regs : List Nat) (s : SystemModel) (id : Nat) :
    Visited regs [id] s
      (s.setRegister id (ConfigureVisitor.visitRegister (s.registers id))) where
  identifierMapping := rfl
  steered other := by
    by_cases hother : other = id
    · rw [hother, SystemModel.setRegister_self]
      exact ConfigureVisitor.visitRegister_steered _
    · rw [SystemModel.setRegister_other s _ hother]
      exact .refl _
  flagged other _ := by
    by_cases hother : other = id
    · rw [hother, SystemModel.setRegister_self, if_pos (List.mem_singleton.mpr rfl)]
    · rw [SystemModel.setRegister_other s _ hother,
        if_neg fun hmem => hother (List.mem_singleton.mp hmem)]

end Visited

namespace Linker

variable {l : Linker} {regs : List Nat} (hregs : l.selector.muxRegisters.identifiers ⊆ regs)

include hregs

theorem select_steered (pathIdentifier : Nat) (s : SystemModel) :
    Keeps (SystemModel.Steered regs) s (l.select pathIdentifier s) := by
  refine Keeps.ite (fun _ => Keeps.error _) fun _ => Keeps.ite (fun _ => Keeps.ok (.refl s)) fun _ => ?_
  exact PathSelector.select_steered hregs pathIdentifier s

theorem deselect_steered (pathIdentifier : Nat) (s : SystemModel) :
    Keeps (SystemModel.Steered regs) s (l.deselect pathIdentifier s) := by
  refine Keeps.ite (fun _ => Keeps.error _) fun _ => ?_
  exact PathSelector.deselect_steered hregs pathIdentifier s

theorem Steers.steered {s s' : SystemModel} (h : l.Steers s s') :
    SystemModel.Steered regs s s' := by
  induction h with
  | refl => exact .refl s
  | select pathIdentifier _ hselect ih =>
    exact IsTrans.trans _ _ _ ih (select_steered hregs pathIdentifier _ _ hselect)
  | deselect pathIdentifier _ hdeselect ih =>
    exact IsTrans.trans _ _ _ ih (deselect_steered hregs pathIdentifier _ _ hdeselect)

end Linker

namespace ConfigureVisitor

variable {algorithm : Option ConfigurationAlgorithm} {regs : List Nat}

/-- The registers of the multiplexer whose paths are being visited. -/
def Path.selectorRegisters : Path → List Nat
  | none => []
  | some (l, _) => l.selector.muxRegisters.identifiers

@[simp] theorem Path.selectorRegisters_next (path : Path) :
    path.next.selectorRegisters = path.selectorRegisters := by
  cases path <;> rfl

theorem decide_visited {path : Path} (hpath : path.selectorRegisters ⊆ regs) (child : Nodes)
    (s : SystemModel) : Keeps (Visited regs []) s (decide algorithm path child s) := by
  rcases path with _ | ⟨l, pathIdentifier⟩
  · exact Keeps.ok (.of_steered (.refl s))
  · refine Keeps.ite (fun _ => ?_) fun _ => Keeps.read fun isSelected _ => ?_
    · intro s' hs'
      have hcount := Visited.setPendingCount regs s l.id
        (s.pendingCounts l.id + child.pendingCount s)
      refine hcount.trans (.of_steered ?_)
      cases algorithm with
      | some algorithm =>
        exact Linker.Steers.steered hpath (algorithm.process_steers l pathIdentifier _ _ hs')
      | none => exact Linker.select_steered hpath pathIdentifier _ _ hs'
    · refine Keeps.ite (fun _ => ?_) fun _ => Keeps.ok (.of_steered (.refl s))
      exact fun s' hs' => .of_steered (Linker.deselect_steered hpath pathIdentifier s s' hs')

theorem resolve_visited {l : Linker} (hregs : l.selector.muxRegisters.identifiers ⊆ regs)
    (s : SystemModel) : Keeps (Visited regs []) s (resolve algorithm l s) := by
  intro s' hs'
  refine .of_steered ?_
  cases algorithm with
  | some algorithm => exact Linker.Steers.steered hregs (algorithm.resolve_steers l s s' hs')
  | none => exact Linker.Steers.steered hregs (l.selectNone_steers s s' hs')

theorem start_visited {l : Linker} (hregs : l.selector.muxRegisters.identifiers ⊆ regs)
    (s : SystemModel) : Keeps (Visited regs []) s (start algorithm l s) := by
  intro s' hs'
  refine (Visited.setPendingCount regs s l.id 0).trans (.of_steered ?_)
  cases algorithm with
  | some algorithm => exact Linker.Steers.steered hregs (algorithm.start_steers l _ s' hs')
  | none =>
    obtain rfl := Except.ok.inj hs'
    exact .refl _

/-- The first pass over nodes, with the selectors of the tree and of the path among `regs`. -/
theorem visit_visited {path : Path} {nodes : Nodes} (hpath : path.selectorRegisters ⊆ regs)
    (hnodes : nodes.selectorRegisters ⊆ regs) (s : SystemModel) :
    Keeps (Visited regs nodes.registerIds) s (visit algorithm path nodes s) := by
  induction nodes generalizing path s with
  | none => exact Keeps.ok (.of_steered (.refl s))
  | register id nextSibling ih =>
    intro t ht
    obtain ⟨s', hdecide, hrest⟩ := bind_eq_ok.mp ht
    have hregister := Visited.visitRegister regs s id
    have hnext := ih (by rwa [Path.selectorRegisters_next]) hnodes s' t hrest
    exact (hregister.trans (decide_visited hpath _ _ s' hdecide)).trans hnext
  | parent kind id firstChild nextSibling ihChild ihNext =>
    have hpathNext : path.next.selectorRegisters ⊆ regs := by
      rwa [Path.selectorRegisters_next]
    intro t ht
    cases kind with
    | linker selector keepOpen =>
      obtain ⟨hboth, hnext⟩ := List.append_subset.mp hnodes
      obtain ⟨hselector, hchild⟩ := List.append_subset.mp hboth
      obtain ⟨s₁, hstart, hrest₁⟩ := bind_eq_ok.mp ht
      obtain ⟨s₂, hvisit, hrest₂⟩ := bind_eq_ok.mp hrest₁
      obtain ⟨s₃, hresolve, hrest₃⟩ := bind_eq_ok.mp hrest₂
      obtain ⟨s₄, hdecide, hrest₄⟩ := bind_eq_ok.mp hrest₃
      have hpathChild : Path.selectorRegisters (some (⟨id, selector, keepOpen⟩, 1)) ⊆ regs :=
        hselector
      have hfirst := (start_visited hselector s s₁ hstart).trans
        (ihChild hpathChild hchild s₁ s₂ hvisit)
      have hresolved := (Visited.setPendingCount regs s₂ id (firstChild.tally s₂)).trans
        (resolve_visited hselector _ s₃ hresolve)
      have hlast := (decide_visited hpath _ s₃ s₄ hdecide).trans
        (ihNext hpathNext hnext s₄ t hrest₄)
      have hall := (hfirst.trans hresolved).trans hlast
      rwa [List.append_assoc] at hall
    | _ =>
      obtain ⟨hchild, hnext⟩ := List.append_subset.mp hnodes
      obtain ⟨s₁, hvisit, hrest₁⟩ := bind_eq_ok.mp ht
      obtain ⟨s₂, hdecide, hrest₂⟩ := bind_eq_ok.mp hrest₁
      have hpathChild : Path.selectorRegisters none ⊆ regs := List.nil_subset regs
      have hfirst := ihChild hpathChild hchild s s₁ hvisit
      have hcount := Visited.setPendingCount regs s₁ id (firstChild.tally s₁)
      have hlast := (decide_visited hpath _ _ s₂ hdecide).trans
        (ihNext hpathNext hnext s₂ t hrest₂)
      have hall := (hfirst.trans hcount).trans hlast
      rwa [List.append_nil] at hall

end ConfigureVisitor

/-! ### The second pass -/

theorem Nodes.mem_parents {nodes firstChild : Nodes} {id : Nat}
    (hmem : (id, firstChild) ∈ nodes.parents) :
    id ∈ nodes.parentIds ∧ firstChild.registerIds ⊆ nodes.registerIds := by
  induction nodes with
  | none => cases hmem
  | register _ nextSibling ih =>
    obtain ⟨hid, hsub⟩ := ih hmem
    exact ⟨hid, fun other hother => List.mem_cons_of_mem _ (hsub hother)⟩
  | parent _ parent child nextSibling ihChild ihNext =>
    rcases List.mem_cons.mp hmem with heq | hmem
    · obtain ⟨rfl, rfl⟩ := Prod.mk.inj heq
      exact ⟨List.mem_cons_self, List.subset_append_left _ _⟩
    · rcases List.mem_append.mp hmem with hinner | hlater
      · obtain ⟨hid, hsub⟩ := ihChild hinner
        exact ⟨List.mem_cons_of_mem _ (List.mem_append_left _ hid),
          fun other hother => List.mem_append_left _ (hsub hother)⟩
      · obtain ⟨hid, hsub⟩ := ihNext hlater
        exact ⟨List.mem_cons_of_mem _ (List.mem_append_right _ hid),
          fun other hother => List.mem_append_right _ (hsub hother)⟩

namespace PropagatePendingVisitor

theorem visitRegister_visitRegister (r : Register) :
    visitRegister (visitRegister r) = visitRegister r := by
  unfold visitRegister
  split
  · exact if_pos ‹_›
  · rfl

def pendingIn (s : SystemModel) (ids : List Nat) : Nat :=
  ids.countP fun id => (s.registers id).isPending

/-- What the second pass over nodes has done to the state and to its first accumulator. -/
structure Propagated (nodes : Nodes) (s s' : SystemModel) (added : Nat) : Prop where
  registers (id : Nat) : s'.registers id =
    if id ∈ nodes.registerIds then visitRegister (s.registers id) else s.registers id
  others (id : Nat) : id ∉ nodes.parentIds → s'.pendingCounts id = s.pendingCounts id
  added : added = pendingIn s' nodes.registerIds
  parents (id : Nat) (firstChild : Nodes) : nodes.parentIds.Nodup →
    (id, firstChild) ∈ nodes.parents →
      s'.pendingCounts id = pendingIn s' firstChild.registerIds

theorem pendingIn_append (s : SystemModel) (ids ids' : List Nat) :
    pendingIn s (ids ++ ids') = pendingIn s ids + pendingIn s ids' := List.countP_append

theorem pendingIn_cons (s : SystemModel) (id : Nat) (ids : List Nat) :
    pendingIn s (id :: ids) = (s.registers id).pendings + pendingIn s ids := by
  rw [pendingIn, List.countP_cons, Nat.add_comm]
  rfl

theorem pendingIn_congr {s s' : SystemModel} {ids : List Nat}
    (hsame : ∀ id ∈ ids, s'.registers id = s.registers id) : pendingIn s' ids = pendingIn s ids :=
  List.countP_congr fun id hid => by rw [hsame id hid]

/-- What visiting the first registers and then others does to each of them. -/
theorem registers_append {s s' s'' : SystemModel} {ids ids' : List Nat}
    (h : ∀ id, s'.registers id =
      if id ∈ ids then visitRegister (s.registers id) else s.registers id)
    (h' : ∀ id, s''.registers id =
      if id ∈ ids' then visitRegister (s'.registers id) else s'.registers id) (id : Nat) :
    s''.registers id =
      (if id ∈ ids ++ ids' then visitRegister (s.registers id) else s.registers id) ∧
    (id ∈ ids → s''.registers id = s'.registers id) := by
  rw [h' id, h id]
  by_cases hfirst : id ∈ ids
  · by_cases hsecond : id ∈ ids'
    · simp [hfirst, hsecond, visitRegister_visitRegister]
    · simp [hfirst, hsecond]
  · by_cases hsecond : id ∈ ids'
    · simp [hfirst, hsecond]
    · simp [hfirst, hsecond]

theorem setRegister_visited (s : SystemModel) (id other : Nat) :
    (s.setRegister id (visitRegister (s.registers id))).registers other =
      if other ∈ [id] then visitRegister (s.registers other) else s.registers other := by
  by_cases hother : other = id
  · rw [hother, SystemModel.setRegister_self, if_pos (List.mem_singleton.mpr rfl)]
  · rw [SystemModel.setRegister_other s _ hother,
      if_neg fun hmem => hother (List.mem_singleton.mp hmem)]

theorem visit_propagated (nodes : Nodes) (s : SystemModel) (pendingCount iRunLoopCount : Nat) :
    ∃ added, (visit nodes (s, pendingCount, iRunLoopCount)).2.1 = pendingCount + added ∧
      Propagated nodes s (visit nodes (s, pendingCount, iRunLoopCount)).1 added := by
  induction nodes generalizing s pendingCount iRunLoopCount with
  | none =>
    exact ⟨0, rfl, fun _ => rfl, fun _ _ => rfl, rfl, fun _ _ _ hmem => by cases hmem⟩
  | register id nextSibling ih =>
    let r := visitRegister (s.registers id)
    obtain ⟨added, hcount, hrest⟩ := ih (s.setRegister id r) (pendingCount + r.pendings)
      (max iRunLoopCount r.iRunLoopCount)
    have hregister : visit (.register id nextSibling) (s, pendingCount, iRunLoopCount) =
        visit nextSibling
          (s.setRegister id r, pendingCount + r.pendings, max iRunLoopCount r.iRunLoopCount) := rfl
    rw [hregister]
    generalize visit nextSibling (s.setRegister id r, pendingCount + r.pendings,
      max iRunLoopCount r.iRunLoopCount) = last at hcount hrest ⊢
    have hregisters := registers_append (setRegister_visited s id) hrest.registers
    have hid := (hregisters id).2 (List.mem_singleton.mpr rfl)
    rw [SystemModel.setRegister_self] at hid
    refine ⟨r.pendings + added, ?_, fun other => (hregisters other).1, hrest.others, ?_,
      hrest.parents⟩
    · rw [hcount, Nat.add_assoc]
    · change _ = pendingIn _ (id :: nextSibling.registerIds)
      rw [pendingIn_cons, hid, ← hrest.added]
  | parent kind id firstChild nextSibling ihChild ihNext =>
    obtain ⟨pendings, hpendings, hchild⟩ := ihChild s 0 0
    rw [Nat.zero_add] at hpendings
    generalize hvisit : visit firstChild (s, 0, 0) = inner at hpendings hchild
    obtain ⟨s₁, count, loops⟩ := inner
    obtain rfl : count = pendings := hpendings
    let loops' := runLoops kind (max loops (s₁.iRunLoopCounts id))
    obtain ⟨added, hcount, hrest⟩ := ihNext ((s₁.setPendingCount id count).setiRunLoop id loops')
      (pendingCount + count) (max iRunLoopCount loops')
    have hparent : visit (.parent kind id firstChild nextSibling) (s, pendingCount, iRunLoopCount) =
        visit nextSibling ((s₁.setPendingCount id count).setiRunLoop id loops', pendingCount + count,
          max iRunLoopCount loops') := by
      rw [visit, hvisit]
    rw [hparent]
    generalize (visit nextSibling ((s₁.setPendingCount id count).setiRunLoop id loops',
      pendingCount + count, max iRunLoopCount loops')) = last at hcount hrest ⊢
    have hregisters := registers_append hchild.registers hrest.registers
    have hkept : pendingIn last.1 firstChild.registerIds = pendingIn s₁ firstChild.registerIds :=
      pendingIn_congr fun other hother => (hregisters other).2 hother
    refine ⟨count + added, ?_, fun other => (hregisters other).1, ?_, ?_, ?_⟩
    · rw [hcount, Nat.add_assoc]
    · intro other hother
      obtain ⟨hne, hother⟩ := not_or.mp (mt List.mem_cons.mpr hother)
      obtain ⟨hnotChild, hnotNext⟩ := not_or.mp (mt List.mem_append.mpr hother)
      rw [hrest.others other hnotNext]
      exact (Function.update_of_ne hne ..).trans (hchild.others other hnotChild)
    · change _ = pendingIn _ (firstChild.registerIds ++ nextSibling.registerIds)
      rw [pendingIn_append, hkept, ← hchild.added, ← hrest.added]
    · intro other child hnodup hmem
      obtain ⟨hfresh, hnodup⟩ := List.nodup_cons.mp hnodup
      obtain ⟨hnotChild, hnotNext⟩ := not_or.mp (mt List.mem_append.mpr hfresh)
      obtain ⟨hnodupChild, hnodupNext, hdisjoint⟩ := List.nodup_append.mp hnodup
      rcases List.mem_cons.mp hmem with heq | hmem
      · obtain ⟨rfl, rfl⟩ := Prod.mk.inj heq
        rw [hrest.others other hnotNext, hkept, ← hchild.added]
        exact Function.update_self ..
      · rcases List.mem_append.mp hmem with hinner | hlater
        · obtain ⟨hinside, hsub⟩ := Nodes.mem_parents hinner
          have hne : other ≠ id := by
            rintro rfl
            exact hnotChild hinside
          have hlater : other ∉ nextSibling.parentIds := fun hmem =>
            hdisjoint other hinside other hmem rfl
          have hsame : pendingIn last.1 child.registerIds = pendingIn s₁ child.registerIds :=
            pendingIn_congr fun member hmem => (hregisters member).2 (hsub hmem)
          rw [hrest.others other hlater, hsame, ← hchild.parents other child hnodupChild hinner]
          exact Function.update_of_ne hne ..
        · exact hrest.parents other child hnodupNext hlater

theorem propagate_propagated (root : Nodes) (s : SystemModel) :
    ∃ added, Propagated root s (propagate root s) added :=
  (visit_propagated root s 0 0).imp fun _ h => h.2

theorem propagate_steered (root : Nodes) (s : SystemModel) (id : Nat) :
    (s.registers id).Steered ((propagate root s).registers id) := by
  obtain ⟨added, hpropagated⟩ := propagate_propagated root s
  rw [hpropagated.registers id]
  split
  · unfold visitRegister
    split
    · exact Register.setPending_steered _
    · exact .refl _
  · exact .refl _

end PropagatePendingVisitor

/-! ### Both passes -/

/-- The register has something to read or to write. -/
def Register.HasWork (r : Register) : Prop := r.pendingRead = true ∨ r.nextToSut ≠ r.lastToSut

instance (r : Register) : Decidable r.HasWork := inferInstanceAs (Decidable (_ ∨ _))

def workIn (s : SystemModel) (ids : List Nat) : Nat :=
  ids.countP fun id => (s.registers id).HasWork

theorem PropagatePendingVisitor.visitRegister_isPending (r : Register) :
    (visitRegister r).isPending = true ↔ r.isPending = true ∨ r.HasWork := by
  unfold visitRegister Register.HasWork
  split
  · simp [Register.isPending, Register.isPendingForWrite, Register.setPending, *]
  · simp only [Register.isPending, *]
    simp
    tauto

theorem ConfigureVisitor.visitRegister_isPending (r : Register) :
    (visitRegister r).isPending = true ↔ r.HasWork := by
  unfold visitRegister Register.HasWork
  by_cases hwrite : r.nextToSut = r.lastToSut
  · simp [Register.isPending, Register.isPendingForWrite, Register.setPendingForWrite, hwrite]
  · simp [Register.isPending, Register.isPendingForWrite, Register.setPendingForWrite, hwrite]

/-- What the two passes leave behind. -/
structure CountsExact (root : Nodes) (s : SystemModel) : Prop where
  counts (id : Nat) (firstChild : Nodes) : (id, firstChild) ∈ root.parents →
    s.pendingCounts id = PropagatePendingVisitor.pendingIn s firstChild.registerIds
  work_pending (id : Nat) : id ∈ root.registerIds → (s.registers id).HasWork →
    (s.registers id).isPending = true
  pending_work (id : Nat) : id ∈ root.registerIds → id ∉ root.selectorRegisters →
    (s.registers id).isPending = true → (s.registers id).HasWork

/-- A parent node without selector registers below it counts the registers with something to do. -/
theorem CountsExact.work_count {root : Nodes} {s : SystemModel} (h : CountsExact root s) {id : Nat}
    {firstChild : Nodes} (hparent : (id, firstChild) ∈ root.parents)
    (hselector : ∀ reg ∈ firstChild.registerIds, reg ∉ root.selectorRegisters) :
    s.pendingCounts id = workIn s firstChild.registerIds := by
  obtain ⟨-, hsub⟩ := Nodes.mem_parents hparent
  rw [h.counts id firstChild hparent, PropagatePendingVisitor.pendingIn, workIn]
  refine List.countP_congr fun reg hreg => ?_
  rw [decide_eq_true_eq]
  exact ⟨h.pending_work reg (hsub hreg) (hselector reg hreg), h.work_pending reg (hsub hreg)⟩

theorem CountsExact.isPending_iff {root : Nodes} {s : SystemModel} (h : CountsExact root s)
    {id : Nat} {firstChild : Nodes} (hparent : (id, firstChild) ∈ root.parents) :
    s.pendingCounts id ≠ 0 ↔ ∃ reg ∈ firstChild.registerIds, (s.registers reg).isPending = true := by
  rw [h.counts id firstChild hparent, PropagatePendingVisitor.pendingIn, ← Nat.pos_iff_ne_zero,
    List.countP_pos_iff]

theorem countsExact_propagate {algorithm : Option ConfigurationAlgorithm} {root : Nodes}
    {s s' : SystemModel} (hparents : root.parentIds.Nodup)
    (hconfigure : ConfigureVisitor.visit algorithm none root s = .ok s') :
    CountsExact root (PropagatePendingVisitor.propagate root s') := by
  have hvisited := ConfigureVisitor.visit_visited (List.nil_subset _) (List.Subset.refl _) s s'
    hconfigure
  obtain ⟨added, hpropagated⟩ := PropagatePendingVisitor.propagate_propagated root s'
  have hregisters : ∀ id ∈ root.registerIds,
      (PropagatePendingVisitor.propagate root s').registers id =
        PropagatePendingVisitor.visitRegister (s'.registers id) := fun id hid =>
    (hpropagated.registers id).trans (if_pos hid)
  have hwork : ∀ id ∈ root.registerIds,
      ((PropagatePendingVisitor.propagate root s').registers id).HasWork ↔
        (s'.registers id).HasWork := by
    intro id hid
    rw [hregisters id hid]
    unfold PropagatePendingVisitor.visitRegister Register.HasWork
    split <;> rfl
  refine ⟨fun id firstChild => hpropagated.parents id firstChild hparents, fun id hid h => ?_, fun id hid hselector h => ?_⟩
  · rw [hregisters id hid, PropagatePendingVisitor.visitRegister_isPending]
    exact .inr ((hwork id hid).mp h)
  · rw [hwork id hid]
    rw [hregisters id hid, PropagatePendingVisitor.visitRegister_isPending] at h
    refine h.elim (fun hpending => ?_) fun hdone => hdone
    rw [hvisited.flagged id hselector, if_pos hid] at hpending ⊢
    exact (ConfigureVisitor.visitRegister_isPending _).mp hpending

theorem pendingCounts_exact {algorithm : Option ConfigurationAlgorithm} {root : Nodes}
    {s s' : SystemModel} (hparents : root.parentIds.Nodup)
    (hconfigure : ConfigureVisitor.visit algorithm none root s = .ok s') :
    CountsExact root (PropagatePendingVisitor.propagate root s') ∧
      ∀ id firstChild, (id, firstChild) ∈ root.parents →
        ((PropagatePendingVisitor.propagate root s').pendingCounts id ≠ 0 ↔
          ∃ reg ∈ firstChild.registerIds,
            ((PropagatePendingVisitor.propagate root s').registers reg).isPending = true) ∧
        ((∀ reg ∈ firstChild.registerIds, reg ∉ root.selectorRegisters) →
          (PropagatePendingVisitor.propagate root s').pendingCounts id =
            workIn (PropagatePendingVisitor.propagate root s') firstChild.registerIds) := by
  have hexact := countsExact_propagate hparents hconfigure
  exact ⟨hexact, fun id firstChild hparent => ⟨hexact.isPending_iff hparent, hexact.work_count hparent⟩⟩

/-- The segment whose selector register has been written but not scanned, with its path closed. -/
def openingSegment : SystemModel :=
  (segmentModel false).setRegister 0
    { Register.create "SIB" [false] false .downto with
      nextToSut := [true]
      nextToSut_length := fun _ => rfl }

/-- The configured segment: nothing is pending behind the selector register, which is given back its last value. -/
theorem openingSegment_configured :
    ∃ s', ConfigureVisitor.visit none none segmentChannel openingSegment = .ok s' ∧
      (PropagatePendingVisitor.propagate segmentChannel s').pendingCounts 0 = 1 ∧
      workIn (PropagatePendingVisitor.propagate segmentChannel s') [0, 1] = 0 := by
  refine ⟨_, rfl, ?_, ?_⟩
  · rfl
  · rfl

theorem pendingCounts_exact_segment :
    ∃ s', ConfigureVisitor.visit none none segmentChannel openingSegment = .ok s' ∧
      CountsExact segmentChannel (PropagatePendingVisitor.propagate segmentChannel s') := by
  obtain ⟨s', hconfigure, -⟩ := openingSegment_configured
  exact ⟨s', hconfigure, (pendingCounts_exact (by decide) hconfigure).1⟩

theorem pendingCounts_not_work :
    ¬∀ (algorithm : Option ConfigurationAlgorithm) (root : Nodes) (s s' : SystemModel),
      root.parentIds.Nodup → root.registerIds.Nodup →
      ConfigureVisitor.visit algorithm none root s = .ok s' →
      ∀ id firstChild, (id, firstChild) ∈ root.parents →
        (PropagatePendingVisitor.propagate root s').pendingCounts id =
          workIn (PropagatePendingVisitor.propagate root s') firstChild.registerIds := by
  intro hcounts
  obtain ⟨s', hconfigure, hcount, hwork⟩ := openingSegment_configured
  have hroot := hcounts none segmentChannel openingSegment s' (by decide) (by decide) hconfigure 0 _
    List.mem_cons_self
  rw [hcount] at hroot
  exact absurd (hroot.trans hwork) (by decide)

end Mast
