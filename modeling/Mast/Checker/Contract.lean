import Mast.Checker.Circles
import Mast.Checker.Structure

/-!
# The contract of the checker

`CheckTree` should end, with a structural error unless the graph is a tree, and with an error for each linker that has too many children. It does so for graphs that are `Checkable`, and not for others. The check of a linker is such that a child that has been appended to it twice makes it throw.
-/

namespace Mast.NodeGraph

open Relation SiblingLists Fuel

/-- What the checker promises. -/
def Meets (g : NodeGraph) : Prop :=
  ∃ findings, Ends g.checkTree (.ok findings) ∧
    ((∃ f ∈ findings, f.structural = true) ↔ ¬g.IsTree) ∧
    (g.IsTree → ∀ root, g.root = some root → ∀ n selector children, g.Reached root n →
      g.kind n = .linker (some selector) → Leads g.nextSibling (g.firstChild n) children none →
      selector.selectablePaths < children.length →
      .tooManyChildren n children.length selector.selectablePaths ∈ findings)

/-- When it keeps its promise. -/
def CanCheck (g : NodeGraph) : Prop :=
  match g.root with
  | none => ∀ n, ¬g.Managed n
  | some root => g.Checkable root

variable {g : NodeGraph} {root n : Nat} {start : Option Nat} {c c' : SystemModelChecker}

/-! ### The root -/

theorem exists_checkNumberOfChannels {protocol : Option InterfaceProtocol} :
    (∃ findings, g.checkNumberOfChannels n protocol = .ok findings) ↔
      (protocol.isSome = true → g.Counted n) := by
  cases protocol with
  | none => exact ⟨fun _ => nofun, fun _ => ⟨[], rfl⟩⟩
  | some protocol =>
    rw [← exists_directChildrenCount]
    constructor
    · intro ⟨findings, h⟩ _
      obtain ⟨count, hcount, -⟩ := Outcome.map_eq_ok.mp h
      exact ⟨count, hcount⟩
    · intro h
      obtain ⟨count, hcount⟩ := h rfl
      exact ⟨_, Outcome.map_eq_ok.mpr ⟨count, hcount, rfl⟩⟩

theorem exists_checkRootChild : (∃ result, g.checkRootChild n = .ok result) ↔
    ∀ protocol, g.kind n = .accessInterface (some protocol) → g.Counted n := by
  rw [checkRootChild]
  cases hkind : g.kind n with
  | accessInterface protocol =>
    dsimp only
    have hchannels : (∃ findings, g.checkNumberOfChannels n protocol = .ok findings) ↔
        (protocol.isSome = true → g.Counted n) := exists_checkNumberOfChannels
    constructor
    · rintro ⟨result, h⟩ protocol' hprotocol
      cases hprotocol
      obtain ⟨findings, hfindings, -⟩ := Outcome.map_eq_ok.mp h
      exact hchannels.mp ⟨findings, hfindings⟩ rfl
    · intro h
      obtain ⟨findings, hfindings⟩ := hchannels.mpr fun hsome => by
        obtain ⟨protocol', rfl⟩ := Option.isSome_iff_exists.mp hsome
        exact h protocol' rfl
      exact ⟨_, Outcome.map_eq_ok.mpr ⟨findings, hfindings, rfl⟩⟩
  | accessInterfaceTranslator | chain | linker | register | streamer =>
    refine ⟨fun _ protocol hprotocol => ?_, fun _ => ⟨_, rfl⟩⟩
    cases hprotocol

theorem leads_of_checkRootChildren {fuel : Nat} {result : List Finding × Bool}
    (h : g.checkRootChildren fuel start = some (.ok result)) :
    ∃ children, Leads g.nextSibling start children none ∧
      ∀ n ∈ children, ∃ result, g.checkRootChild n = .ok result := by
  induction fuel generalizing start result with
  | zero => cases h
  | succ fuel ih =>
    cases start with
    | none => exact ⟨[], rfl, nofun⟩
    | some child =>
      rw [checkRootChildren] at h
      cases hchild : g.checkRootChild child with
      | error e =>
        rw [hchild] at h
        cases h
      | ok found =>
        rw [hchild] at h
        obtain ⟨rest, hrest, hsame⟩ := Option.map_eq_some_iff.mp h
        obtain ⟨others, rfl, -⟩ := Outcome.map_eq_ok.mp hsame
        obtain ⟨children, hleads, hchildren⟩ := ih hrest
        exact ⟨child :: children, ⟨rfl, hleads⟩, List.forall_mem_cons.mpr ⟨⟨found, hchild⟩, hchildren⟩⟩

theorem checkRootChildren_ends {children : List Nat} (hleads : Leads g.nextSibling start children none)
    (hchildren : ∀ n ∈ children, ∃ result, g.checkRootChild n = .ok result) :
    ∃ result, Ends (fun fuel => g.checkRootChildren fuel start) (.ok result) := by
  induction children generalizing start with
  | nil =>
    cases hleads
    exact ⟨_, Ends.succ ⟨0, fun _ _ => rfl⟩⟩
  | cons child children ih =>
    obtain ⟨rfl, hleads⟩ := hleads
    obtain ⟨⟨⟨findings, isInterface⟩, hchild⟩, hchildren⟩ := List.forall_mem_cons.mp hchildren
    obtain ⟨⟨others, hasInterface⟩, enough, hrest⟩ := ih hleads hchildren
    refine ⟨(findings ++ others, isInterface || hasInterface), Ends.succ ⟨enough, fun fuel hfuel => ?_⟩⟩
    change g.checkRootChildren (fuel + 1) (some child) = _
    rw [checkRootChildren, hchild]
    have hothers : g.checkRootChildren fuel (g.nextSibling child) = _ := hrest fuel hfuel
    dsimp only
    rw [hothers]
    rfl

theorem checkAccessInterface_ok {fuel : Nat} {findings : List Finding}
    (h : g.checkAccessInterface fuel root = some (.ok findings)) :
    (∀ protocol, g.kind root = .accessInterface (some protocol) → g.Counted root) ∧
      (g.kind root = .chain →
        ∃ children, Leads g.nextSibling (g.firstChild root) children none ∧
          ∀ n ∈ children, ∀ protocol, g.kind n = .accessInterface (some protocol) → g.Counted n) := by
  rw [checkAccessInterface] at h
  cases hkind : g.kind root with
  | accessInterface protocol =>
    rw [hkind] at h
    refine ⟨fun protocol' hprotocol => ?_, fun hchain => ?_⟩
    · cases hprotocol
      exact exists_checkNumberOfChannels.mp ⟨findings, Option.some.inj h⟩ rfl
    · cases hchain
  | chain =>
    rw [hkind] at h
    refine ⟨fun protocol hprotocol => ?_, fun _ => ?_⟩
    · cases hprotocol
    obtain ⟨result, hchildren, hsame⟩ := Option.map_eq_some_iff.mp h
    obtain ⟨found, rfl, -⟩ := Outcome.map_eq_ok.mp hsame
    obtain ⟨children, hleads, hchildren⟩ := leads_of_checkRootChildren hchildren
    exact ⟨children, hleads, fun n hn => exists_checkRootChild.mp (hchildren n hn)⟩
  | accessInterfaceTranslator | linker | register | streamer =>
    refine ⟨fun protocol hprotocol => ?_, fun hchain => ?_⟩
    · cases hprotocol
    · cases hchain

theorem Checkable.checkAccessInterface_ends (h : g.Checkable root) :
    ∃ findings, Ends (fun fuel => g.checkAccessInterface fuel root) (.ok findings) := by
  cases hkind : g.kind root with
  | accessInterface protocol =>
    obtain ⟨findings, hfindings⟩ : ∃ findings, g.checkNumberOfChannels root protocol = .ok findings := by
      refine exists_checkNumberOfChannels.mpr fun hsome => ?_
      obtain ⟨protocol', rfl⟩ := Option.isSome_iff_exists.mp hsome
      exact h.rootInterface protocol' hkind
    refine ⟨findings, 0, fun fuel _ => ?_⟩
    simp only [checkAccessInterface, hkind]
    rw [hfindings]
  | chain =>
    obtain ⟨children, hleads, hchildren⟩ := h.rootChain hkind
    obtain ⟨⟨findings, hasInterface⟩, enough, hrest⟩ := checkRootChildren_ends hleads fun n hn =>
      exists_checkRootChild.mpr (hchildren n hn)
    refine ⟨findings ++ if hasInterface then [] else [.chainRootWithoutInterface root], enough,
      fun fuel hfuel => ?_⟩
    have hchildren : g.checkRootChildren fuel (g.firstChild root) = _ := hrest fuel hfuel
    simp only [checkAccessInterface, hkind]
    rw [hchildren]
    rfl
  | accessInterfaceTranslator =>
    refine ⟨[], 0, fun fuel _ => ?_⟩
    simp only [checkAccessInterface, hkind]
  | linker | register | streamer =>
    refine ⟨[.rootType root], 0, fun fuel _ => ?_⟩
    simp only [checkAccessInterface, hkind]

/-! ### The whole check -/

/-- The reports before the traversal. -/
def firstReports (g : NodeGraph) (findings others : List Finding) : SystemModelChecker :=
  SystemModelChecker.start.report
    ((if g.identifierMapping = [] then [Finding.noMapping] else []) ++ findings ++ others)

/-- The traversal from the root. -/
def WalksRoot (g : NodeGraph) (root : Nat) (findings others : List Finding)
    (c' : SystemModelChecker) : Prop :=
  g.Walks root (g.below root) ((g.firstReports findings others).report (g.childless root)) c'

theorem walks_of_checkRoot {fuel : Nat} {findings : List Finding} (hroot : g.root = some root)
    (h : g.checkRoot fuel root = some (.ok findings)) :
    ∃ accepted others c', g.accept root = .ok accepted ∧
      g.checkAccessInterface fuel root = some (.ok others) ∧
      g.WalksRoot root accepted others c' ∧ Collected c' ∧
      findings = c'.reports ++ g.unseen root c' := by
  rw [checkRoot] at h
  cases haccept : g.accept root with
  | error e =>
    rw [haccept] at h
    cases h
  | ok accepted =>
    rw [haccept] at h
    obtain ⟨result, hinterface, h⟩ := Option.bind_eq_some_iff.mp h
    cases result with
    | error e => cases h
    | ok others =>
      obtain ⟨result, hwalk, hsame⟩ := Option.map_eq_some_iff.mp h
      obtain ⟨c', rfl, rfl⟩ := Outcome.map_eq_ok.mp hsame
      have hbelow : CheckedBelow g fuel root (g.firstReports accepted others) c' := by
        rw [CheckedBelow, if_pos (g.root_isParent root hroot)]
        exact hwalk
      obtain ⟨hwalks, hcollected⟩ := walks_of_checkedBelow hbelow (collected_start.report _)
      exact ⟨accepted, others, c', rfl, hinterface, hwalks, hcollected, rfl⟩

theorem checkRoot_ends {accepted others : List Finding} (hroot : g.root = some root)
    (haccept : g.accept root = .ok accepted)
    (hinterface : Ends (fun fuel => g.checkAccessInterface fuel root) (.ok others))
    (hwalk : g.WalksRoot root accepted others c') :
    Ends (fun fuel => g.checkRoot fuel root) (.ok (c'.reports ++ g.unseen root c')) ∧
      Collected c' := by
  obtain ⟨hends, hcollected⟩ := hwalk.ends ((collected_start.report _).report _)
  obtain ⟨enough, hbelow⟩ := ends_checkedBelow hends
  obtain ⟨enough', hinterface⟩ := hinterface
  refine ⟨⟨max enough enough', fun fuel hfuel => ?_⟩, hcollected⟩
  have hwalk := hbelow fuel (Nat.le_trans (Nat.le_max_left _ _) hfuel)
  rw [CheckedBelow, if_pos (g.root_isParent root hroot)] at hwalk
  have hinterface : g.checkAccessInterface fuel root = _ :=
    hinterface fuel (Nat.le_trans (Nat.le_max_right _ _) hfuel)
  change g.checkRoot fuel root = _
  rw [checkRoot, haccept]
  dsimp only
  rw [hinterface, Option.bind_some]
  dsimp only
  rw [firstReports] at hwalk
  rw [hwalk]
  rfl

section

variable {accepted others : List Finding}

theorem WalksRoot.sound (hwalk : g.WalksRoot root accepted others c') : g.Sound root c' :=
  Walks.sound_root hwalk fun _ => rfl

theorem mem_unseen {f : Finding} (hc : Collected c') :
    f ∈ g.unseen root c' ↔
      ∃ n, g.Managed n ∧ n ≠ root ∧ g.parentOf c' n = none ∧ f = .notSeen n := by
  have hnode (id : Nat) : (c'.collectedNodeInfo id).node = none ↔
      (c'.collectedNodeInfo id).parent = none := by
    rw [← Option.isNone_iff_eq_none, ← Option.isNone_iff_eq_none, ← Option.not_isSome,
      ← Option.not_isSome, hc id]
  rw [unseen, List.mem_flatMap]
  constructor
  · rintro ⟨id, -, hf⟩
    cases hmapped : (g.identifierMapping[id]?).join with
    | none =>
      rw [hmapped] at hf
      cases hf
    | some n =>
      rw [hmapped] at hf
      have hmapped := Option.join_eq_some_iff.mp hmapped
      obtain rfl := g.registered id n hmapped
      dsimp only at hf
      split at hf
      · rename_i hunseen
        exact ⟨n, hmapped, hunseen.1, (hnode _).mp hunseen.2, List.mem_singleton.mp hf⟩
      · cases hf
  · rintro ⟨n, hmanaged, hne, hnone, rfl⟩
    refine ⟨g.identifier n, List.mem_range.mpr (List.getElem?_eq_some_iff.mp hmanaged).1, ?_⟩
    rw [Option.join_eq_some_iff.mpr hmanaged]
    dsimp only
    rw [if_pos ⟨hne, (hnode _).mpr hnone⟩]
    exact List.mem_singleton_self _

/-- What the walk has visited has been accepted. -/
theorem WalksRoot.accepts (hwalk : g.WalksRoot root accepted others c')
    (haccept : g.accept root = .ok accepted) (hn : g.Reached root n) : g.Accepted c' n := by
  obtain ⟨visited, hvisits, hroot⟩ := Walks.visits hwalk
  rcases (hvisits.reached_below (fun _ => rfl) hroot hn).2 with rfl | haccepted
  · refine ⟨accepted, haccept, fun f hf => (Walks.extends hwalk).reports ?_⟩
    simp [firstReports, hf]
  · exact haccepted

/-- Without structural errors exactly for a tree. -/
theorem WalksRoot.harmless_iff {fuel : Nat} (hwalk : g.WalksRoot root accepted others c')
    (hc : Collected c') (haccept : g.accept root = .ok accepted)
    (hinterface : g.checkAccessInterface fuel root = some (.ok others))
    (hparent : g.isParent root = true) :
    Harmless (c'.reports ++ g.unseen root c') ↔ g.FormsTree root := by
  constructor
  · intro hclean
    obtain ⟨hclean, hseen⟩ := harmless_append.mp hclean
    refine Walks.formsTree hwalk hclean (fun _ => rfl) hwalk.sound fun n hmanaged hne => ?_
    cases hfound : g.parentOf c' n with
    | some q => exact ⟨q, rfl⟩
    | none => cases hseen _ ((mem_unseen hc).mpr ⟨n, hmanaged, hne, hfound, rfl⟩)
  · intro htree
    have hreports : Harmless ((g.firstReports accepted others).report (g.childless root)).reports := by
      refine harmless_append.mpr ⟨harmless_append.mpr ⟨harmless_nil, harmless_append.mpr
        ⟨harmless_append.mpr ⟨?_, accept_harmless haccept⟩, checkAccessInterface_harmless hinterface⟩⟩,
        childless_harmless root⟩
      split <;> simp [Finding.structural]
    obtain ⟨children, hchildren⟩ := htree.ends root ReflTransGen.refl hparent
    have hlist : ∃ children, Leads g.nextSibling (g.below root) children none ∧
        ∀ n ∈ children, g.ChildOf root n ∧
          g.parentOf ((g.firstReports accepted others).report (g.childless root)) n = none := by
      refine ⟨children, ?_, fun n hn => ⟨(childOf_iff hparent hchildren).mpr hn, rfl⟩⟩
      rw [below, if_pos hparent]
      exact hchildren
    have hsound : g.Sound root ((g.firstReports accepted others).report (g.childless root)) := by
      intro n p hmanaged hfound
      cases hfound
    have hclean : Harmless c'.reports :=
      (htree.harmless hwalk ReflTransGen.refl (fun _ => .inl rfl) hlist hsound hreports).1
    refine harmless_append.mpr ⟨hclean, fun f hf => ?_⟩
    obtain ⟨n, hmanaged, hne, hnone, rfl⟩ := (mem_unseen hc).mp hf
    obtain ⟨p, hp, hpn⟩ := (ReflTransGen.cases_tail ((htree.managed n hne).mp hmanaged)).resolve_left hne
    cases hnone.symm.trans (Walks.found_child hwalk hclean (fun _ => rfl) hp hpn).2

end

/-! ### Linkers -/

theorem counted_of_accept {selector : Option LinkerSelector} {findings : List Finding}
    (hkind : g.kind n = .linker selector) (haccept : g.accept n = .ok findings) : g.Counted n := by
  simp only [accept, hkind] at haccept
  obtain ⟨count, hcount, -⟩ := Outcome.map_eq_ok.mp haccept
  exact exists_directChildrenCount.mp ⟨count, hcount⟩

/-- A linker with more children than paths is reported when it is accepted. -/
theorem tooManyChildren_mem {selector : LinkerSelector} {children : List Nat}
    {findings : List Finding} (hkind : g.kind n = .linker (some selector))
    (haccept : g.accept n = .ok findings)
    (hchildren : Leads g.nextSibling (g.firstChild n) children none)
    (hmany : selector.selectablePaths < children.length) :
    .tooManyChildren n children.length selector.selectablePaths ∈ findings := by
  simp only [accept, hkind] at haccept
  obtain ⟨count, hcount, rfl⟩ := Outcome.map_eq_ok.mp haccept
  obtain ⟨counted, hcounted, -, rfl⟩ := directChildrenCount_eq_ok.mp hcount
  obtain rfl := hcounted.unique hchildren
  refine List.mem_append_right _ ?_
  rw [checkChildrenCount, if_neg (by omega), if_neg (by omega), if_pos hmany]
  exact List.mem_singleton_self _

/-! ### The promise -/

theorem Meets.of_noRoot (hroot : g.root = none) : g.Meets ↔ ∀ n, ¬g.Managed n := by
  have htree : g.IsTree ↔ ∀ n, ¬g.Managed n := by rw [IsTree, hroot]
  have hends : Ends g.checkTree (.ok [.noRoot]) := by
    refine ⟨0, fun fuel _ => ?_⟩
    rw [checkTree, hroot]
  have hstructural : ¬∃ f ∈ [Finding.noRoot], f.structural = true := by
    simp [Finding.structural]
  constructor
  · rintro ⟨findings, hfindings, hreports, -⟩
    cases hends.unique hfindings
    exact htree.mp (not_not.mp fun hno => hstructural (hreports.mpr hno))
  · intro hnone
    refine ⟨[.noRoot], hends, ⟨fun h => absurd h hstructural, fun h => absurd (htree.mpr hnone) h⟩, ?_⟩
    intro _ root hsome
    cases hroot.symm.trans hsome

theorem Checkable.meets (h : g.Checkable root) (hroot : g.root = some root) : g.Meets := by
  have hparent := g.root_isParent root hroot
  obtain ⟨accepted, haccept⟩ := h.accept_ok ReflTransGen.refl
  obtain ⟨others, hinterface⟩ := h.checkAccessInterface_ends
  obtain ⟨c', hwalk⟩ : ∃ c', g.WalksRoot root accepted others c' := h.walks hroot fun _ => rfl
  obtain ⟨hends, hc⟩ := checkRoot_ends hroot haccept hinterface hwalk
  obtain ⟨enough, hinterface⟩ := hinterface
  have hclean := hwalk.harmless_iff hc haccept (hinterface enough (Nat.le_refl _)) hparent
  refine ⟨c'.reports ++ g.unseen root c', hends.congr fun fuel => ?_, ?_, ?_⟩
  · rw [checkTree, hroot]
  · have htree : g.IsTree ↔ g.FormsTree root := by rw [IsTree, hroot]
    rw [htree, ← hclean, Harmless]
    simp
  · intro _ root' hsome n selector children hn hkind hchildren hmany
    obtain rfl := Option.some.inj (hroot.symm.trans hsome)
    obtain ⟨findings, haccept, hreports⟩ := hwalk.accepts haccept hn
    exact List.mem_append_left _ (hreports (tooManyChildren_mem hkind haccept hchildren hmany))

theorem Meets.checkable (h : g.Meets) (hroot : g.root = some root) : g.Checkable root := by
  obtain ⟨findings, ⟨enough, hends⟩, -⟩ := h
  have hrun := hends enough (Nat.le_refl _)
  rw [checkTree, hroot] at hrun
  obtain ⟨accepted, others, c', haccept, hinterface, hwalk, -, -⟩ := walks_of_checkRoot hroot hrun
  obtain ⟨hrootInterface, hrootChain⟩ := checkAccessInterface_ok hinterface
  refine ⟨⟨fun n selector hn hkind => ?_, hrootInterface, hrootChain⟩, fun x hx => ?_⟩
  · obtain ⟨findings, haccepted, -⟩ := hwalk.accepts haccept hn
    exact counted_of_accept hkind haccepted
  · exact Walks.not_onCircle_of_arrives hwalk (fun _ => rfl) hx

/-- The checker keeps its promise exactly when it can find its way. -/
theorem checkTree_meets (g : NodeGraph) : g.Meets ↔ g.CanCheck := by
  cases hroot : g.root with
  | none =>
    rw [Meets.of_noRoot hroot, CanCheck, hroot]
  | some root =>
    rw [CanCheck, hroot]
    exact ⟨fun h => h.checkable hroot, fun h => h.meets hroot⟩

/-- The depth-first order matters only where a managed node has been appended into itself behind one that has two parents. -/
theorem checkable_iff (hroot : g.root = some root) (hshared : ¬g.SharedFront root) :
    g.Checkable root ↔ g.Counts root ∧ g.NoCircle root := by
  refine ⟨fun h => ⟨h.toCounts, ?_⟩, fun h => ⟨h.1, fun x => h.2.arrives⟩⟩
  obtain ⟨c', hwalk⟩ := h.walks hroot (c := .start) fun _ => rfl
  obtain ⟨visited, hvisits, hvisited⟩ := Walks.visits hwalk
  exact hvisits.noCircle (fun _ => rfl) hvisited (hwalk.sound_root fun _ => rfl) hshared

/-! ### A child that is appended twice -/

def emptyLinker : ModelTree where
  root := some 0
  name := fun n => if n = 0 then "tap" else if n = 1 then "mux" else "reg"
  isParent := fun n => n != 2
  firstChild := fun n => if n = 0 then some 1 else none
  nextSibling := fun _ => none
  optionalChildAppender := fun _ => none

/-- The linker with a register appended twice. -/
def appendedTwiceLinks : ModelTree :=
  (emptyLinker.setFirstChild 1 (some 2)).setNextSibling 2 (some 2)

def appendedTwiceGraph : NodeGraph where
  toModelTree := appendedTwiceLinks
  kind := fun n =>
    if n = 0 then .accessInterface (some ⟨3, none⟩)
    else if n = 1 then .linker (some ⟨2, true⟩)
    else if n = 2 then .register
    else .chain
  identifier := id
  identifierMapping := [some 0, some 1, some 2]
  nodesCount := 3
  parents n := by
    match n with
    | 0 | 1 | 2 => rfl
    | n + 3 => simp [appendedTwiceLinks, emptyLinker, ModelTree.setFirstChild,
        ModelTree.setNextSibling, NodeKind.isParent]
  root_isParent n hn := by
    obtain rfl := Option.some.inj hn
    rfl
  registered id n hmapped := by
    match id with
    | 0 | 1 | 2 =>
      simp only [List.getElem?_cons_zero, List.getElem?_cons_succ, Option.some.injEq] at hmapped
      exact hmapped.symm
    | id + 3 => cases hmapped
  root_lt n hn := by
    obtain rfl := Option.some.inj hn
    decide
  firstChild_lt p n hn := by
    simp only [appendedTwiceLinks, emptyLinker, ModelTree.setFirstChild, ModelTree.setNextSibling,
      Function.update_apply] at hn
    grind
  nextSibling_lt m n hn := by
    simp only [appendedTwiceLinks, emptyLinker, ModelTree.setFirstChild, ModelTree.setNextSibling,
      Function.update_apply] at hn
    grind

theorem appendedTwice_not_counted : ¬appendedTwiceGraph.Counted 1 := by
  rintro ⟨children, hleads, -⟩
  cases children with
  | nil => cases hleads
  | cons a children =>
    obtain ⟨hstart, hrest⟩ := hleads
    obtain rfl := Option.some.inj hstart
    have hagain : Leads appendedTwiceGraph.nextSibling (some 2) (2 :: children) none := ⟨rfl, hrest⟩
    have hsame := congrArg List.length (Leads.unique hagain hrest)
    rw [List.length_cons] at hsame
    omega

/-- The check of the linker throws before the second append is noticed. -/
theorem appendedTwice_not_meets :
    ((emptyLinker.appendChild 2 1 2).bind fun t => t.appendChild 2 1 2) =
        some appendedTwiceGraph.toModelTree ∧
      ¬appendedTwiceGraph.Meets := by
  refine ⟨rfl, fun ⟨findings, ⟨enough, hends⟩, _⟩ => ?_⟩
  obtain ⟨accepted, others, c', haccept, -, hwalk, -, -⟩ :=
    walks_of_checkRoot (rfl : appendedTwiceGraph.root = some 0) (hends enough (Nat.le_refl _))
  have hlinker : appendedTwiceGraph.Reached 0 1 := ReflTransGen.single ⟨rfl, [], rfl⟩
  obtain ⟨findings, haccepted, -⟩ := hwalk.accepts haccept hlinker
  exact appendedTwice_not_counted (counted_of_accept rfl haccepted)

end Mast.NodeGraph
