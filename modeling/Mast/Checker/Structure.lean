import Mast.Checker.Visits
import Mast.Lib.Outcome

/-!
# Structural errors

On a tree, no child that a walk comes to has been found before: a parent is opened once, and its children have no other. In the other direction, a walk without structural errors has found every child below it just once, and so what it found is a tree.
-/

namespace Mast.NodeGraph

open Relation SiblingLists

variable {g : NodeGraph} {root p q n m : Nat} {start : Option Nat} {c c₀ c₁ c' : SystemModelChecker}

/-- Reports without a structural error. -/
def Harmless (findings : List Finding) : Prop :=
  ∀ f ∈ findings, f.structural = false

@[simp] theorem harmless_nil : Harmless [] := nofun

@[simp] theorem harmless_cons {f : Finding} {findings : List Finding} :
    Harmless (f :: findings) ↔ f.structural = false ∧ Harmless findings :=
  List.forall_mem_cons

@[simp] theorem harmless_append {findings others : List Finding} :
    Harmless (findings ++ others) ↔ Harmless findings ∧ Harmless others :=
  List.forall_mem_append

theorem Harmless.of_extends (h : Harmless c'.reports) (hextends : Extends g c c') :
    Harmless c.reports :=
  fun f hf => h f (hextends.reports hf)

theorem unmanaged_structural (n : Nat) : (g.unmanaged n).structural = true := by
  rw [unmanaged]
  split <;> rfl

theorem secondParent_structural (p n q : Nat) : (g.secondParent p n q).structural = true := by
  rw [secondParent]
  split
  · rfl
  · split <;> rfl

/-! ### Reports that are not about the structure -/

theorem childless_harmless (n : Nat) : Harmless (g.childless n) := by
  rw [childless]
  split <;> simp [Finding.structural]

theorem checkSelectablePaths_harmless (selector : LinkerSelector) :
    Harmless (checkSelectablePaths n selector) := by
  rw [checkSelectablePaths]
  split_ifs <;> simp [Finding.structural]

theorem checkChildrenCount_harmless (count paths : Nat) :
    Harmless (checkChildrenCount n count paths) := by
  rw [checkChildrenCount]
  split_ifs <;> simp [Finding.structural]

theorem visitAccessInterface_harmless (protocol : Option InterfaceProtocol) :
    Harmless (visitAccessInterface n protocol) := by
  cases protocol with
  | none => simp [visitAccessInterface, Finding.structural]
  | some protocol =>
    simp only [visitAccessInterface]
    split <;> simp [Finding.structural]

theorem visitAccessInterfaceTranslator_harmless (n : Nat) :
    Harmless (g.visitAccessInterfaceTranslator n) := by
  rw [visitAccessInterfaceTranslator]
  cases g.firstChild n with
  | none => simp [Finding.structural]
  | some child =>
    cases hkind : g.kind child <;> simp only [hkind] <;> (try split) <;> simp [Finding.structural]

theorem visitLinker_harmless {selector : Option LinkerSelector} {findings : List Finding}
    (h : g.visitLinker n selector = .ok findings) : Harmless findings := by
  obtain ⟨count, -, rfl⟩ := Outcome.map_eq_ok.mp h
  cases selector with
  | none => simp [Finding.structural]
  | some selector =>
    exact harmless_append.mpr ⟨checkSelectablePaths_harmless _, checkChildrenCount_harmless _ _⟩

theorem accept_harmless {findings : List Finding} (haccept : g.accept n = .ok findings) :
    Harmless findings := by
  rw [accept] at haccept
  cases hkind : g.kind n with
  | accessInterface protocol =>
    rw [hkind] at haccept
    cases haccept
    exact visitAccessInterface_harmless protocol
  | accessInterfaceTranslator protocolIsT2T =>
    rw [hkind] at haccept
    cases haccept
    exact visitAccessInterfaceTranslator_harmless n
  | linker selector =>
    rw [hkind] at haccept
    exact visitLinker_harmless haccept
  | chain | register | streamer =>
    rw [hkind] at haccept
    cases haccept
    exact harmless_nil

theorem checkNumberOfChannels_harmless {protocol : Option InterfaceProtocol}
    {findings : List Finding} (h : g.checkNumberOfChannels n protocol = .ok findings) :
    Harmless findings := by
  cases protocol with
  | none =>
    cases h
    exact harmless_nil
  | some protocol =>
    obtain ⟨count, -, rfl⟩ := Outcome.map_eq_ok.mp h
    dsimp only
    split_ifs <;> simp [Finding.structural]

theorem checkRootChild_harmless {findings : List Finding} {isInterface : Bool}
    (h : g.checkRootChild n = .ok (findings, isInterface)) : Harmless findings := by
  rw [checkRootChild] at h
  cases hkind : g.kind n with
  | accessInterface protocol =>
    rw [hkind] at h
    obtain ⟨found, hfound, hsame⟩ := Outcome.map_eq_ok.mp h
    cases hsame
    exact checkNumberOfChannels_harmless hfound
  | accessInterfaceTranslator protocolIsT2T =>
    rw [hkind] at h
    cases h
    exact harmless_nil
  | chain | linker | register | streamer =>
    rw [hkind] at h
    cases h
    simp [Finding.structural]

theorem checkRootChildren_harmless {fuel : Nat} {findings : List Finding} {hasInterface : Bool}
    (h : g.checkRootChildren fuel start = some (.ok (findings, hasInterface))) :
    Harmless findings := by
  induction fuel generalizing start findings hasInterface with
  | zero => cases h
  | succ fuel ih =>
    cases start with
    | none =>
      cases h
      exact harmless_nil
    | some child =>
      rw [checkRootChildren] at h
      cases hchild : g.checkRootChild child with
      | error e =>
        rw [hchild] at h
        cases h
      | ok found =>
        rw [hchild] at h
        obtain ⟨result, hrest, hsame⟩ := Option.map_eq_some_iff.mp h
        obtain ⟨others, rfl, hsame⟩ := Outcome.map_eq_ok.mp hsame
        cases hsame
        exact harmless_append.mpr ⟨checkRootChild_harmless hchild, ih hrest⟩

theorem checkAccessInterface_harmless {fuel : Nat} {findings : List Finding}
    (h : g.checkAccessInterface fuel root = some (.ok findings)) : Harmless findings := by
  rw [checkAccessInterface] at h
  cases hkind : g.kind root with
  | accessInterface protocol =>
    rw [hkind] at h
    exact checkNumberOfChannels_harmless (Option.some.inj h)
  | accessInterfaceTranslator protocolIsT2T =>
    rw [hkind] at h
    cases h
    exact harmless_nil
  | chain =>
    rw [hkind] at h
    obtain ⟨result, hchildren, hsame⟩ := Option.map_eq_some_iff.mp h
    obtain ⟨⟨others, hasInterface⟩, rfl, rfl⟩ := Outcome.map_eq_ok.mp hsame
    refine harmless_append.mpr ⟨checkRootChildren_harmless hchildren, ?_⟩
    split <;> simp [Finding.structural]
  | linker | register | streamer =>
    rw [hkind] at h
    cases h
    simp [Finding.structural]

/-! ### From a tree -/

theorem FormsTree.managed_child (htree : g.FormsTree root) (hp : g.Reached root p)
    (hchild : g.ChildOf p n) : g.Managed n := by
  refine (htree.managed n ?_).mpr (hp.child hchild)
  rintro rfl
  exact htree.top p hp hchild

/-- The children of a node that is opened have not been found. -/
theorem FormsTree.below_unfound (htree : g.FormsTree root) (hsound : g.Sound root c)
    (hp : g.Reached root p) (hchild : g.ChildOf p n) (hparent : g.parentOf c n = none) :
    ∃ children, Leads g.nextSibling (g.below n) children none ∧
      ∀ m ∈ children, g.ChildOf n m ∧ g.parentOf (g.adopt p n c) m = none := by
  have hn := hp.child hchild
  by_cases hopens : g.isParent n = true
  · obtain ⟨children, hchildren⟩ := htree.ends n hn hopens
    refine ⟨children, by rw [below, if_pos hopens]; exact hchildren, fun m hm => ?_⟩
    have hm : g.ChildOf n m := (childOf_iff hopens hchildren).mpr hm
    have hmanaged : g.Managed n := htree.managed_child hp hchild
    have hne : m ≠ n := by
      rintro rfl
      exact htree.not_childOf_self hn hm
    refine ⟨hm, (parentOf_adopt hmanaged (htree.managed_child hn hm) hne).trans ?_⟩
    cases hfound : g.parentOf c m with
    | none => rfl
    | some q =>
      obtain ⟨hq, hqm, hopened⟩ := hsound m q (htree.managed_child hn hm) hfound
      obtain rfl := htree.oneParent q n m hq hn hqm hm
      rcases hopened hmanaged with rfl | ⟨o, ho⟩
      · exact absurd hchild (htree.top p hp)
      · cases ho.symm.trans hparent
  · refine ⟨[], ?_, fun m hm => absurd hm List.not_mem_nil⟩
    rw [below, if_neg hopens]
    rfl

/-- On a tree, a walk finds each child once, and does not go back to a parent that is open. -/
theorem FormsTree.harmless (htree : g.FormsTree root) (hwalk : g.Walks p start c c')
    (hp : g.Reached root p) (hopened : g.Opened root c p)
    (hlist : ∃ children, Leads g.nextSibling start children none ∧
      ∀ n ∈ children, g.ChildOf p n ∧ g.parentOf c n = none)
    (hsound : g.Sound root c) (hclean : Harmless c.reports) :
    Harmless c'.reports ∧ ∀ q ≠ p, g.Opened root c q → ∀ m, g.Managed m →
      g.parentOf c' m = some q → g.parentOf c m = some q := by
  induction hwalk with
  | stop p c => exact ⟨hclean, fun _ _ _ _ _ h => h⟩
  | itself hrest ih =>
    obtain ⟨children, hleads, hchildren⟩ := hlist
    cases children with
    | nil => cases hleads
    | cons a children =>
      obtain rfl := Option.some.inj hleads.1
      exact absurd (hchildren _ List.mem_cons_self).1 (htree.not_childOf_self hp)
  | again hne hmanaged hparent =>
    obtain ⟨children, hleads, hchildren⟩ := hlist
    cases children with
    | nil => cases hleads
    | cons a children =>
      obtain rfl := Option.some.inj hleads.1
      cases hparent.symm.trans (hchildren _ List.mem_cons_self).2
  | unmanaged hne hmanaged haccept hbelow hrest ihbelow ihrest =>
    obtain ⟨children, hleads, hchildren⟩ := hlist
    cases children with
    | nil => cases hleads
    | cons a children =>
      obtain rfl := Option.some.inj hleads.1
      exact absurd (htree.managed_child hp (hchildren _ List.mem_cons_self).1) hmanaged
  | @first p n c c₁ c' findings hne hmanaged hparent haccept hbelow hrest ihbelow ihrest =>
    obtain ⟨children, hleads, hchildren⟩ := hlist
    cases children with
    | nil => cases hleads
    | cons a children =>
      obtain rfl := Option.some.inj hleads.1
      have hchild := (hchildren n List.mem_cons_self).1
      have hn := hp.child hchild
      have hclosed : ¬g.Opened root c n := by
        intro hopen
        rcases hopen hmanaged with rfl | ⟨o, ho⟩
        · exact htree.top p hp hchild
        · cases ho.symm.trans hparent
      have hadopt : Extends g c ((g.adopt p n c).report (findings ++ g.childless n)) :=
        (extends_adopt hmanaged hparent).trans (extends_report _)
      have hsound₀ : g.Sound root (g.adopt p n c) :=
        hsound.adopt hp hopened hchild hmanaged hparent
      have hopened₀ : g.Opened root (g.adopt p n c) n := fun _ => .inr ⟨p, parentOf_adopt_self⟩
      obtain ⟨hclean₁, hframe₁⟩ := ihbelow hn hopened₀
        (htree.below_unfound hsound hp hchild hparent) hsound₀
        (harmless_append.mpr ⟨hclean, harmless_append.mpr
          ⟨accept_harmless haccept, childless_harmless n⟩⟩)
      have hsound₁ : g.Sound root c₁ := by
        refine hbelow.sound hn (fun m hm => ?_) hopened₀ hsound₀
        exact childOf_first (below_eq_some.mp hm).1 (below_eq_some.mp hm).2
      have hunfound (m : Nat) (hm : m ∈ children) : g.parentOf c₁ m = none := by
        obtain ⟨hpm, hnone⟩ := hchildren m (List.mem_cons_of_mem _ hm)
        cases hfound : g.parentOf c₁ m with
        | none => rfl
        | some q =>
          have hmanagedm := htree.managed_child hp hpm
          obtain ⟨hq, hqm, -⟩ := hsound₁ m q hmanagedm hfound
          obtain rfl := htree.oneParent q p m hq hp hqm hpm
          have hbefore := hframe₁ q hne.symm (hopened.extends hadopt) m hmanagedm hfound
          have hmn : m ≠ n := by
            rintro rfl
            exact (List.nodup_cons.mp hleads.nodup).1 hm
          rw [parentOf_report, parentOf_adopt hmanaged hmanagedm hmn, hnone] at hbefore
          cases hbefore
      obtain ⟨hclean', hframe'⟩ := ihrest hp (hopened.extends (hadopt.trans hbelow.extends))
        ⟨children, hleads.2, fun m hm =>
          ⟨(hchildren m (List.mem_cons_of_mem _ hm)).1, hunfound m hm⟩⟩ hsound₁ hclean₁
      refine ⟨hclean', fun q hqp hqopened m hm hfound => ?_⟩
      have hqn : q ≠ n := by
        rintro rfl
        exact hclosed hqopened
      have hmiddle := hframe' q hqp (hqopened.extends (hadopt.trans hbelow.extends)) m hm hfound
      have hbefore := hframe₁ q hqn (hqopened.extends hadopt) m hm hmiddle
      by_cases hmn : m = n
      · subst hmn
        rw [parentOf_report, parentOf_adopt_self] at hbefore
        exact absurd (Option.some.inj hbefore).symm hqp
      · rwa [parentOf_report, parentOf_adopt hmanaged hm hmn] at hbefore

/-! ### To a tree -/

theorem not_harmless_itself : ¬Harmless (c.report [.appendedIntoItself p]).reports := by
  simp [Finding.structural]

theorem not_harmless_again : ¬Harmless (g.findAgain p n q c).reports := by
  simp [findAgain, secondParent_structural]

theorem not_harmless_unmanaged {findings : List Finding} :
    ¬Harmless (c.report (g.unmanaged n :: findings)).reports := by
  simp [unmanaged_structural]

/-- A list of children that have been found first, and once, below `p`. -/
def Found (g : NodeGraph) (p : Nat) (start : Option Nat) (c c' : SystemModelChecker) : Prop :=
  ∃ children, Leads g.nextSibling start children none ∧
    ∀ n ∈ children, g.Managed n ∧ g.parentOf c n = none ∧ g.parentOf c' n = some p

theorem Found.mono (h : g.Found p start c₀ c₁) (hbefore : Extends g c c₀) (hafter : Extends g c₁ c') :
    g.Found p start c c' := by
  obtain ⟨children, hleads, hchildren⟩ := h
  refine ⟨children, hleads, fun n hn => ?_⟩
  obtain ⟨hmanaged, hnone, hsome⟩ := hchildren n hn
  exact ⟨hmanaged, hbefore.none hmanaged hnone, hafter.parentOf hmanaged hsome⟩

/-- Without a structural error, a walk finds a whole list, and one below each node that it finds. -/
theorem Walks.found (hwalk : g.Walks p start c c') (hclean : Harmless c'.reports) :
    g.Found p start c c' ∧ ∀ m, g.Managed m → g.parentOf c m = none →
      (∃ q, g.parentOf c' m = some q) → g.Found m (g.below m) c c' := by
  induction hwalk with
  | stop p c =>
    refine ⟨⟨[], rfl, nofun⟩, fun m hm hnone ⟨q, hq⟩ => ?_⟩
    cases hnone.symm.trans hq
  | itself hrest ih => exact absurd (hclean.of_extends hrest.extends) not_harmless_itself
  | again hne hmanaged hparent => exact absurd hclean not_harmless_again
  | unmanaged hne hmanaged haccept hbelow hrest ihbelow ihrest =>
    exact absurd (hclean.of_extends (hbelow.extends.trans hrest.extends)) not_harmless_unmanaged
  | @first p n c c₁ c' findings hne hmanaged hparent haccept hbelow hrest ihbelow ihrest =>
    have hadopt : Extends g c ((g.adopt p n c).report (findings ++ g.childless n)) :=
      (extends_adopt hmanaged hparent).trans (extends_report _)
    obtain ⟨hlist₁, hothers₁⟩ := ihbelow (hclean.of_extends hrest.extends)
    obtain ⟨⟨children, hleads, hchildren⟩, hothers⟩ := ihrest hclean
    have hfound : g.parentOf c' n = some p :=
      (hbelow.extends.trans hrest.extends).parentOf hmanaged parentOf_adopt_self
    refine ⟨⟨n :: children, ⟨rfl, hleads⟩, fun m hm => ?_⟩, fun m hm hnone hsome => ?_⟩
    · rcases List.mem_cons.mp hm with rfl | hm
      · exact ⟨hmanaged, hparent, hfound⟩
      · obtain ⟨hmanagedm, hnone, hsome⟩ := hchildren m hm
        exact ⟨hmanagedm, (hadopt.trans hbelow.extends).none hmanagedm hnone, hsome⟩
    · by_cases hmn : m = n
      · subst hmn
        exact hlist₁.mono hadopt hrest.extends
      have hnone₀ : g.parentOf ((g.adopt p n c).report (findings ++ g.childless n)) m = none :=
        (parentOf_adopt hmanaged hm hmn).trans hnone
      cases hmiddle : g.parentOf c₁ m with
      | none => exact (hothers m hm hmiddle hsome).mono (hadopt.trans hbelow.extends) (Extends.refl _)
      | some q => exact (hothers₁ m hm hnone₀ ⟨q, hmiddle⟩).mono hadopt hrest.extends

/-- The root is not found below itself. -/
theorem Walks.root_unfound (hwalk : g.Walks root (g.below root) c c')
    (hclean : Harmless c'.reports) (hroot : g.Managed root) (hnone : g.parentOf c root = none) :
    g.parentOf c' root = none := by
  generalize hstart : g.below root = start at hwalk
  cases hwalk with
  | stop => exact hnone
  | itself hrest => exact absurd (hclean.of_extends hrest.extends) not_harmless_itself
  | again hne hmanaged hparent => exact absurd hclean not_harmless_again
  | unmanaged hne hmanaged haccept hbelow hrest =>
    exact absurd (hclean.of_extends (hbelow.extends.trans hrest.extends)) not_harmless_unmanaged
  | @first _ n _ c₁ _ findings hne hmanaged hparent haccept hbelow hrest =>
    have hfirst {c₀ c₁ : SystemModelChecker} (hlist : g.Found root (g.below root) c₀ c₁) :
        g.parentOf c₀ n = none := by
      obtain ⟨children, hleads, hchildren⟩ := hlist
      rw [hstart] at hleads
      cases children with
      | nil => cases hleads
      | cons a children =>
        obtain rfl := Option.some.inj hleads.1
        exact (hchildren _ List.mem_cons_self).2.1
    have hadopted : g.parentOf ((g.adopt root n c).report (findings ++ g.childless n)) root = none :=
      (parentOf_adopt hmanaged hroot hne.symm).trans hnone
    have hn := hbelow.extends.parentOf hmanaged parentOf_adopt_self
    have hmiddle : g.parentOf c₁ root = none := by
      cases hsome : g.parentOf c₁ root with
      | none => rfl
      | some q =>
        have hlist := (hbelow.found (hclean.of_extends hrest.extends)).2 root hroot hadopted ⟨q, hsome⟩
        cases (hfirst hlist).symm.trans parentOf_adopt_self
    cases hsome : g.parentOf c' root with
    | none => rfl
    | some q =>
      have hlist := (hrest.found hclean).2 root hroot hmiddle ⟨q, hsome⟩
      cases (hfirst hlist).symm.trans hn

theorem Walks.found_below (hwalk : g.Walks root (g.below root) c c') (hclean : Harmless c'.reports)
    (hnone : ∀ m, g.parentOf c m = none) (hp : g.Reached root p) :
    g.Found p (g.below p) c c' := by
  obtain ⟨hlist, hothers⟩ := hwalk.found hclean
  induction hp with
  | refl => exact hlist
  | @tail p n hp hchild ih =>
    obtain ⟨children, hleads, hchildren⟩ := ih
    rw [NodeGraph.below, if_pos hchild.1] at hleads
    obtain ⟨hmanaged, -, hsome⟩ := hchildren n ((childOf_iff hchild.1 hleads).mp hchild)
    exact hothers n hmanaged (hnone n) ⟨p, hsome⟩

theorem Walks.found_child (hwalk : g.Walks root (g.below root) c c') (hclean : Harmless c'.reports)
    (hnone : ∀ m, g.parentOf c m = none) (hp : g.Reached root p) (hn : g.ChildOf p n) :
    g.Managed n ∧ g.parentOf c' n = some p := by
  obtain ⟨children, hleads, hchildren⟩ := hwalk.found_below hclean hnone hp
  rw [NodeGraph.below, if_pos hn.1] at hleads
  obtain ⟨hmanaged, -, hsome⟩ := hchildren n ((childOf_iff hn.1 hleads).mp hn)
  exact ⟨hmanaged, hsome⟩

/-- A walk from the root without structural errors walks a tree. -/
theorem Walks.formsTree (hwalk : g.Walks root (g.below root) c c') (hclean : Harmless c'.reports)
    (hnone : ∀ m, g.parentOf c m = none) (hsound : g.Sound root c')
    (hseen : ∀ n, g.Managed n → n ≠ root → ∃ q, g.parentOf c' n = some q) : g.FormsTree root := by
  have hchild {p n : Nat} (hp : g.Reached root p) (hn : g.ChildOf p n) :
      g.Managed n ∧ g.parentOf c' n = some p := hwalk.found_child hclean hnone hp hn
  constructor
  case ends =>
    intro p hp hparent
    obtain ⟨children, hleads, -⟩ := hwalk.found_below hclean hnone hp
    rw [NodeGraph.below, if_pos hparent] at hleads
    exact ⟨children, hleads⟩
  case oneParent =>
    intro p q n hp hq hpn hqn
    exact Option.some.inj ((hchild hp hpn).2.symm.trans (hchild hq hqn).2)
  case top =>
    intro p hp hroot
    obtain ⟨hmanaged, hsome⟩ := hchild hp hroot
    cases (hwalk.root_unfound hclean hmanaged (hnone root)).symm.trans hsome
  case managed =>
    intro n hne
    constructor
    · intro hmanaged
      obtain ⟨q, hq⟩ := hseen n hmanaged hne
      obtain ⟨hreached, hchildq, -⟩ := hsound n q hmanaged hq
      exact hreached.child hchildq
    · intro hn
      obtain ⟨p, hp, hpn⟩ := (ReflTransGen.cases_tail hn).resolve_left hne
      exact (hchild hp hpn).1

end Mast.NodeGraph
