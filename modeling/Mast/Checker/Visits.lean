import Mast.Checker.Walk

/-!
# What a walk visits

A walk that comes to an end has visited every node it can reach, and has accepted it. `Visits` collects the pairs of a parent and a link that the walk has been at; it is closed under the links, because a managed node that is found again was visited when it was found first.
-/

namespace Mast.NodeGraph

open Relation SiblingLists

variable {g : NodeGraph} {root p q n m : Nat} {start : Option Nat} {c c₀ c₁ c' : SystemModelChecker}

/-! ### What is found stays found -/

/-- The parents and the reports that a walk keeps. -/
structure Extends (g : NodeGraph) (c c' : SystemModelChecker) : Prop where
  parentOf : ∀ {n q}, g.Managed n → g.parentOf c n = some q → g.parentOf c' n = some q
  reports : c.reports ⊆ c'.reports

theorem Extends.refl (c : SystemModelChecker) : Extends g c c :=
  ⟨fun _ h => h, fun _ h => h⟩

theorem Extends.trans (h : Extends g c c₁) (h' : Extends g c₁ c') : Extends g c c' :=
  ⟨fun hn hq => h'.parentOf hn (h.parentOf hn hq), fun _ hf => h'.reports (h.reports hf)⟩

theorem Extends.none (h : Extends g c c') (hn : g.Managed n) (hnone : g.parentOf c' n = none) :
    g.parentOf c n = none := by
  cases hq : g.parentOf c n with
  | none => rfl
  | some q => cases hnone.symm.trans (h.parentOf hn hq)

theorem extends_report (findings : List Finding) : Extends g c (c.report findings) :=
  ⟨fun _ h => h, List.subset_append_left _ _⟩

theorem extends_adopt (hn : g.Managed n) (hparent : g.parentOf c n = none) :
    Extends g c (g.adopt p n c) := by
  refine ⟨fun {m q} hm hq => ?_, fun _ hf => hf⟩
  rw [parentOf_adopt hn hm]
  · exact hq
  · rintro rfl
    cases hparent.symm.trans hq

theorem extends_findAgain (hn : g.Managed n) (hq : g.parentOf c n = some q) :
    Extends g c (g.findAgain p n q c) := by
  refine ⟨fun {m q'} hm hq' => ?_, List.subset_append_left _ _⟩
  rw [parentOf_findAgain hn hm hq]
  exact hq'

theorem Walks.extends (hwalk : g.Walks p start c c') : Extends g c c' := by
  induction hwalk with
  | stop p c => exact Extends.refl c
  | itself hrest ih => exact (extends_report _).trans ih
  | again hne hmanaged hparent => exact extends_findAgain hmanaged hparent
  | unmanaged hne hmanaged haccept hbelow hrest ihbelow ihrest =>
    exact (extends_report _).trans (ihbelow.trans ihrest)
  | first hne hmanaged hparent haccept hbelow hrest ihbelow ihrest =>
    exact (extends_adopt hmanaged hparent).trans
      ((extends_report _).trans (ihbelow.trans ihrest))

/-! ### What is found is there -/

/-- A parent whose children are being visited, or have been. -/
def Opened (g : NodeGraph) (root : Nat) (c : SystemModelChecker) (q : Nat) : Prop :=
  g.Managed q → q = root ∨ ∃ o, g.parentOf c q = some o

/-- The parents that are found are parents. -/
def Sound (g : NodeGraph) (root : Nat) (c : SystemModelChecker) : Prop :=
  ∀ n q, g.Managed n → g.parentOf c n = some q →
    g.Reached root q ∧ g.ChildOf q n ∧ g.Opened root c q

theorem Opened.extends (hopened : g.Opened root c q) (h : Extends g c c') :
    g.Opened root c' q := by
  intro hmanaged
  rcases hopened hmanaged with hroot | ⟨o, ho⟩
  · exact .inl hroot
  · exact .inr ⟨o, h.parentOf hmanaged ho⟩

theorem Sound.adopt (hsound : g.Sound root c) (hp : g.Reached root p) (hopened : g.Opened root c p)
    (hchild : g.ChildOf p n) (hn : g.Managed n) (hparent : g.parentOf c n = none) :
    g.Sound root (g.adopt p n c) := by
  have hextends : Extends g c (g.adopt p n c) := extends_adopt hn hparent
  intro m q hm hq
  by_cases hne : m = n
  · subst hne
    rw [parentOf_adopt_self] at hq
    obtain rfl := Option.some.inj hq
    exact ⟨hp, hchild, hopened.extends hextends⟩
  · rw [parentOf_adopt hn hm hne] at hq
    obtain ⟨hreached, hchild, hopened⟩ := hsound m q hm hq
    exact ⟨hreached, hchild, hopened.extends hextends⟩

theorem Sound.findAgain (hsound : g.Sound root c) (hn : g.Managed n)
    (hparent : g.parentOf c n = some q) : g.Sound root (g.findAgain p n q c) := by
  intro m q' hm hq'
  rw [parentOf_findAgain hn hm hparent] at hq'
  obtain ⟨hreached, hchild, hopened⟩ := hsound m q' hm hq'
  exact ⟨hreached, hchild, hopened.extends (extends_findAgain hn hparent)⟩

theorem Walks.sound (hwalk : g.Walks p start c c') (hp : g.Reached root p)
    (hstart : ∀ n, start = some n → g.ChildOf p n) (hopened : g.Opened root c p)
    (hsound : g.Sound root c) : g.Sound root c' := by
  induction hwalk with
  | stop p c => exact hsound
  | itself hrest ih =>
    have hchild := hstart _ rfl
    exact ih hp (fun m hm => hchild.next hm) hopened hsound
  | again hne hmanaged hparent => exact hsound.findAgain hmanaged hparent
  | unmanaged hne hmanaged haccept hbelow hrest ihbelow ihrest =>
    have hchild := hstart _ rfl
    have hsound₁ := ihbelow (hp.child hchild)
      (fun m hm => childOf_first (below_eq_some.mp hm).1 (below_eq_some.mp hm).2)
      (fun h => absurd h hmanaged) hsound
    exact ihrest hp (fun m hm => hchild.next hm)
      (hopened.extends ((extends_report _).trans hbelow.extends)) hsound₁
  | first hne hmanaged hparent haccept hbelow hrest ihbelow ihrest =>
    have hchild := hstart _ rfl
    have hadopted := hsound.adopt hp hopened hchild hmanaged hparent
    have hsound₁ := ihbelow (hp.child hchild)
      (fun m hm => childOf_first (below_eq_some.mp hm).1 (below_eq_some.mp hm).2)
      (fun _ => .inr ⟨_, parentOf_adopt_self⟩) hadopted
    exact ihrest hp (fun m hm => hchild.next hm)
      (hopened.extends ((extends_adopt hmanaged hparent).trans
        ((extends_report _).trans hbelow.extends))) hsound₁

theorem Walks.sound_root (hwalk : g.Walks root (g.below root) c c')
    (hnone : ∀ n, g.parentOf c n = none) : g.Sound root c' := by
  refine hwalk.sound ReflTransGen.refl (fun n hn => ?_) (fun _ => .inl rfl) fun n q _ hq => ?_
  · exact childOf_first (below_eq_some.mp hn).1 (below_eq_some.mp hn).2
  · cases (hnone n).symm.trans hq

/-! ### What is visited -/

/-- A node that has been accepted, with its reports. -/
def Accepted (g : NodeGraph) (c : SystemModelChecker) (n : Nat) : Prop :=
  ∃ findings, g.accept n = .ok findings ∧ findings ⊆ c.reports

theorem Accepted.extends (hn : g.Accepted c n) (h : Extends g c c') : g.Accepted c' n := by
  obtain ⟨findings, haccept, hreports⟩ := hn
  exact ⟨findings, haccept, fun _ hf => h.reports (hreports hf)⟩

/-- The places at which a walk has been that starts at the children of `p`. -/
structure Visits (g : NodeGraph) (p : Nat) (c c' : SystemModelChecker)
    (visited : Nat → Option Nat → Prop) : Prop where
  walks : ∀ {q link}, visited q link → ∃ d d', g.Walks q link d d'
  opened : ∀ {q link}, visited q link → q = p ∨ visited q (g.below q) ∧ g.Accepted c' q
  itself : ∀ {q}, visited q (some q) → visited q (g.nextSibling q)
  unmanaged : ∀ {q n}, visited q (some n) → n ≠ q → ¬g.Managed n →
    g.Accepted c' n ∧ visited n (g.below n) ∧ visited q (g.nextSibling n)
  managed : ∀ {q n}, visited q (some n) → n ≠ q → g.Managed n → ∃ o, g.parentOf c' n = some o
  adopted : ∀ {q n}, g.Managed n → g.parentOf c n = none → g.parentOf c' n = some q →
    g.Accepted c' n ∧ visited n (g.below n) ∧ visited q (some n) ∧ visited q (g.nextSibling n)

variable {visited visited₁ visited₂ : Nat → Option Nat → Prop}

theorem Visits.cons (h : g.Visits p c₀ c' visited) (hwalk : g.Walks p start c c')
    (hsame : ∀ m, g.Managed m → g.parentOf c₀ m = g.parentOf c m)
    (hitself : start = some p → visited p (g.nextSibling p))
    (hmanaged : ∀ n, start = some n → n ≠ p → g.Managed n ∧ ∃ o, g.parentOf c' n = some o) :
    g.Visits p c c' fun q link => (q = p ∧ link = start) ∨ visited q link where
  walks hq := by
    rcases hq with ⟨rfl, rfl⟩ | hq
    · exact ⟨c, c', hwalk⟩
    · exact h.walks hq
  opened hq := by
    rcases hq with ⟨rfl, -⟩ | hq
    · exact .inl rfl
    · rcases h.opened hq with hp | ⟨hbelow, haccepted⟩
      · exact .inl hp
      · exact .inr ⟨.inr hbelow, haccepted⟩
  itself hq := by
    rcases hq with ⟨rfl, hstart⟩ | hq
    · exact .inr (hitself hstart.symm)
    · exact .inr (h.itself hq)
  unmanaged hq hne hn := by
    rcases hq with ⟨rfl, hstart⟩ | hq
    · exact absurd (hmanaged _ hstart.symm hne).1 hn
    · obtain ⟨haccepted, hbelow, hnext⟩ := h.unmanaged hq hne hn
      exact ⟨haccepted, .inr hbelow, .inr hnext⟩
  managed hq hne hn := by
    rcases hq with ⟨rfl, hstart⟩ | hq
    · exact (hmanaged _ hstart.symm hne).2
    · exact h.managed hq hne hn
  adopted hn hnone hsome := by
    rw [← hsame _ hn] at hnone
    obtain ⟨haccepted, hbelow, hself, hnext⟩ := h.adopted hn hnone hsome
    exact ⟨haccepted, .inr hbelow, .inr hself, .inr hnext⟩

theorem Visits.visit (h₁ : g.Visits n c₀ c₁ visited₁) (h₂ : g.Visits p c₁ c' visited₂)
    (hbelow : visited₁ n (g.below n)) (hnext : visited₂ p (g.nextSibling n))
    (hwalk : g.Walks p (some n) c c') (hne : n ≠ p) (haccepted : g.Accepted c' n)
    (hextends : Extends g c₁ c') (hmanaged : g.Managed n → ∃ o, g.parentOf c' n = some o)
    (hfound : ∀ m, g.Managed m → g.parentOf c m = none → g.parentOf c₀ m = none ∨
      m = n ∧ g.parentOf c' m = some p) :
    g.Visits p c c' fun q link => (q = p ∧ link = some n) ∨ visited₁ q link ∨ visited₂ q link where
  walks hq := by
    rcases hq with ⟨rfl, rfl⟩ | hq | hq
    · exact ⟨c, c', hwalk⟩
    · exact h₁.walks hq
    · exact h₂.walks hq
  opened hq := by
    rcases hq with ⟨rfl, -⟩ | hq | hq
    · exact .inl rfl
    · rcases h₁.opened hq with rfl | ⟨hq, haccepted⟩
      · exact .inr ⟨.inr (.inl hbelow), haccepted⟩
      · exact .inr ⟨.inr (.inl hq), haccepted.extends hextends⟩
    · rcases h₂.opened hq with hp | ⟨hq, haccepted⟩
      · exact .inl hp
      · exact .inr ⟨.inr (.inr hq), haccepted⟩
  itself hq := by
    rcases hq with ⟨rfl, hstart⟩ | hq | hq
    · exact absurd (Option.some.inj hstart).symm hne
    · exact .inr (.inl (h₁.itself hq))
    · exact .inr (.inr (h₂.itself hq))
  unmanaged hq hne' hm := by
    rcases hq with ⟨rfl, hstart⟩ | hq | hq
    · obtain rfl := Option.some.inj hstart
      exact ⟨haccepted, .inr (.inl hbelow), .inr (.inr hnext)⟩
    · obtain ⟨haccepted, hbelow, hnext⟩ := h₁.unmanaged hq hne' hm
      exact ⟨haccepted.extends hextends, .inr (.inl hbelow), .inr (.inl hnext)⟩
    · obtain ⟨haccepted, hbelow, hnext⟩ := h₂.unmanaged hq hne' hm
      exact ⟨haccepted, .inr (.inr hbelow), .inr (.inr hnext)⟩
  managed hq hne' hm := by
    rcases hq with ⟨rfl, hstart⟩ | hq | hq
    · obtain rfl := Option.some.inj hstart
      exact hmanaged hm
    · obtain ⟨o, ho⟩ := h₁.managed hq hne' hm
      exact ⟨o, hextends.parentOf hm ho⟩
    · exact h₂.managed hq hne' hm
  adopted {q m} hm hnone hsome := by
    rcases hfound m hm hnone with hnone | ⟨rfl, hp⟩
    · cases h₁some : g.parentOf c₁ m with
      | none =>
        obtain ⟨haccepted, hbelow, hself, hnext⟩ := h₂.adopted hm h₁some hsome
        exact ⟨haccepted, .inr (.inr hbelow), .inr (.inr hself), .inr (.inr hnext)⟩
      | some o =>
        obtain rfl := Option.some.inj ((hextends.parentOf hm h₁some).symm.trans hsome)
        obtain ⟨haccepted, hbelow, hself, hnext⟩ := h₁.adopted hm hnone h₁some
        exact ⟨haccepted.extends hextends, .inr (.inl hbelow), .inr (.inl hself), .inr (.inl hnext)⟩
    · obtain rfl := Option.some.inj (hp.symm.trans hsome)
      exact ⟨haccepted, .inr (.inl hbelow), .inl ⟨rfl, rfl⟩, .inr (.inr hnext)⟩

/-- A walk that adopts nothing has nothing to account for. -/
theorem visits_nothing (hsame : ∀ m, g.Managed m → g.parentOf c' m = g.parentOf c m) :
    g.Visits p c c' fun _ _ => False where
  walks := False.elim
  opened := False.elim
  itself := False.elim
  unmanaged := False.elim
  managed := False.elim
  adopted hn hnone hsome := by
    rw [hsame _ hn, hnone] at hsome
    cases hsome

theorem Walks.visits (hwalk : g.Walks p start c c') :
    ∃ visited, g.Visits p c c' visited ∧ visited p start := by
  induction hwalk with
  | stop p c =>
    exact ⟨_, (visits_nothing fun _ _ => rfl).cons (.stop p c) (fun _ _ => rfl) nofun nofun,
      .inl ⟨rfl, rfl⟩⟩
  | itself hrest ih =>
    obtain ⟨visited, hvisits, hnext⟩ := ih
    refine ⟨_, hvisits.cons (.itself hrest) (fun _ _ => rfl) (fun _ => hnext) ?_, .inl ⟨rfl, rfl⟩⟩
    intro n hn hne
    exact absurd (Option.some.inj hn).symm hne
  | @again p n q c hne hmanaged hparent =>
    have hsame (m : Nat) (hm : g.Managed m) :
        g.parentOf (g.findAgain p n q c) m = g.parentOf c m :=
      parentOf_findAgain hmanaged hm hparent
    refine ⟨_, (visits_nothing hsame).cons (.again hne hmanaged hparent) (fun _ _ => rfl)
      (fun h => absurd (Option.some.inj h) hne) ?_, .inl ⟨rfl, rfl⟩⟩
    intro m hm _
    obtain rfl := Option.some.inj hm
    exact ⟨hmanaged, q, (hsame _ hmanaged).trans hparent⟩
  | @unmanaged p n c c₁ c' findings hne hmanaged haccept hbelow hrest ihbelow ihrest =>
    obtain ⟨visited₁, hvisits₁, hbelow'⟩ := ihbelow
    obtain ⟨visited₂, hvisits₂, hnext⟩ := ihrest
    have haccepted : g.Accepted c' n := by
      refine ⟨findings, haccept, fun f hf => hrest.extends.reports (hbelow.extends.reports ?_)⟩
      simp [hf]
    refine ⟨_, hvisits₁.visit hvisits₂ hbelow' hnext
      (.unmanaged hne hmanaged haccept hbelow hrest) hne haccepted hrest.extends
      (fun h => absurd h hmanaged) (fun m hm hnone => .inl hnone), .inl ⟨rfl, rfl⟩⟩
  | @first p n c c₁ c' findings hne hmanaged hparent haccept hbelow hrest ihbelow ihrest =>
    obtain ⟨visited₁, hvisits₁, hbelow'⟩ := ihbelow
    obtain ⟨visited₂, hvisits₂, hnext⟩ := ihrest
    have haccepted : g.Accepted c' n := by
      refine ⟨findings, haccept, fun f hf => hrest.extends.reports (hbelow.extends.reports ?_)⟩
      simp [hf]
    have hfound : g.parentOf c' n = some p :=
      (hbelow.extends.trans hrest.extends).parentOf hmanaged parentOf_adopt_self
    refine ⟨_, hvisits₁.visit hvisits₂ hbelow' hnext
      (.first hne hmanaged hparent haccept hbelow hrest) hne haccepted hrest.extends
      (fun _ => ⟨p, hfound⟩) (fun m hm hnone => ?_), .inl ⟨rfl, rfl⟩⟩
    by_cases hsame : m = n
    · subst hsame
      exact .inr ⟨rfl, hfound⟩
    · exact .inl ((parentOf_adopt hmanaged hm hsame).trans hnone)

/-! ### The whole walk -/

theorem Visits.next (h : g.Visits p c c' visited) (hnone : ∀ m, g.parentOf c m = none)
    (hq : visited q (some n)) : ∃ q', visited q' (g.nextSibling n) := by
  by_cases hne : n = q
  · subst hne
    exact ⟨n, h.itself hq⟩
  by_cases hmanaged : g.Managed n
  · obtain ⟨o, ho⟩ := h.managed hq hne hmanaged
    exact ⟨o, (h.adopted hmanaged (hnone n) ho).2.2.2⟩
  · exact ⟨q, (h.unmanaged hq hne hmanaged).2.2⟩

/-- A node that is visited is opened, unless the walk started below it. -/
theorem Visits.below (h : g.Visits p c c' visited) (hnone : ∀ m, g.parentOf c m = none)
    (hq : visited q (some n)) : n = p ∨ visited n (g.below n) ∧ g.Accepted c' n := by
  by_cases hne : n = q
  · subst hne
    exact h.opened hq
  by_cases hmanaged : g.Managed n
  · obtain ⟨o, ho⟩ := h.managed hq hne hmanaged
    obtain ⟨haccepted, hbelow, -, -⟩ := h.adopted hmanaged (hnone n) ho
    exact .inr ⟨hbelow, haccepted⟩
  · obtain ⟨haccepted, hbelow, -⟩ := h.unmanaged hq hne hmanaged
    exact .inr ⟨hbelow, haccepted⟩

theorem Visits.leads (h : g.Visits p c c' visited) (hnone : ∀ m, g.parentOf c m = none)
    {front : List Nat} {link stop : Option Nat} (hleads : Leads g.nextSibling link front stop)
    (hlink : ∃ q, visited q link) : ∃ q, visited q stop := by
  induction front generalizing link with
  | nil =>
    cases hleads
    exact hlink
  | cons a front ih =>
    obtain ⟨rfl, hrest⟩ := hleads
    obtain ⟨q, hq⟩ := hlink
    exact ih hrest (h.next hnone hq)

/-- A walk from the root visits whatever can be reached. -/
theorem Visits.reached (h : g.Visits root c c' visited) (hnone : ∀ m, g.parentOf c m = none)
    (hroot : visited root (g.below root)) (hn : g.Reached root n) :
    n = root ∨ ∃ q, visited q (some n) := by
  induction hn with
  | refl => exact .inl rfl
  | @tail p n hp hchild ih =>
    have hbelow : visited p (g.below p) := by
      rcases ih with rfl | ⟨q, hq⟩
      · exact hroot
      · rcases h.below hnone hq with rfl | ⟨hbelow, -⟩
        · exact hroot
        · exact hbelow
    obtain ⟨hparent, front, hfront⟩ := hchild
    rw [NodeGraph.below, if_pos hparent] at hbelow
    exact .inr (h.leads hnone hfront ⟨p, hbelow⟩)

/-- A walk from the root opens every node that it reaches. -/
theorem Visits.reached_below (h : g.Visits root c c' visited) (hnone : ∀ m, g.parentOf c m = none)
    (hroot : visited root (g.below root)) (hn : g.Reached root n) :
    visited n (g.below n) ∧ (n = root ∨ g.Accepted c' n) := by
  rcases h.reached hnone hroot hn with rfl | ⟨q, hq⟩
  · exact ⟨hroot, .inl rfl⟩
  · rcases h.below hnone hq with rfl | ⟨hbelow, haccepted⟩
    · exact ⟨hroot, .inl rfl⟩
    · exact ⟨hbelow, .inr haccepted⟩

/-- Whatever leads on to `n` and does not go beyond it has been passed by the same parent. -/
theorem Visits.leads_same (h : g.Visits root c c' visited) (hnone : ∀ m, g.parentOf c m = none)
    {front : List Nat} {link stop : Option Nat} (hleads : Leads g.nextSibling link front stop)
    (hlink : visited p link)
    (howner : ∀ m ∈ front, m ≠ p → g.Managed m → ∀ o, g.parentOf c' m = some o → o = p) :
    visited p stop := by
  induction front generalizing link with
  | nil =>
    cases hleads
    exact hlink
  | cons a front ih =>
    obtain ⟨rfl, hrest⟩ := hleads
    refine ih hrest ?_ fun m hm => howner m (List.mem_cons_of_mem _ hm)
    by_cases hne : a = p
    · subst hne
      exact h.itself hlink
    by_cases hmanaged : g.Managed a
    · obtain ⟨o, ho⟩ := h.managed hlink hne hmanaged
      obtain rfl := howner a List.mem_cons_self hne hmanaged o ho
      exact (h.adopted hmanaged (hnone a) ho).2.2.2
    · exact (h.unmanaged hlink hne hmanaged).2.2

end Mast.NodeGraph
