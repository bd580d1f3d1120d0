import Mast.Checker.Shape

/-!
# The walk of the checker

`Walks` is a traversal by `CheckParentNode` that comes to its end: from a child of a parent, over the children below and the siblings after it, with what is collected before and afterwards. The fuel of the loops and the failures are gone.
-/

namespace Mast

open Relation SiblingLists Fuel

namespace NodeGraph

variable (g : NodeGraph)

/-- The report of `CheckParentNode` about a parent without children. -/
def childless (n : Nat) : List Finding :=
  if g.isParent n = true ∧ g.firstChild n = none then [.noChild n] else []

def unmanaged (n : Nat) : Finding :=
  match (g.identifierMapping[g.identifier n]?).join with
  | none => .notManaged n
  | some mapped => .sameIdentifier n mapped

def parentOf (c : SystemModelChecker) (n : Nat) : Option Nat :=
  (c.collectedNodeInfo (g.identifier n)).parent

def adopt (p n : Nat) (c : SystemModelChecker) : SystemModelChecker :=
  c.collect (g.identifier n) ⟨some p, some n⟩

/-- A child that has the parent `q` already. -/
def findAgain (p n q : Nat) (c : SystemModelChecker) : SystemModelChecker :=
  (c.report [g.secondParent p n q]).collect (g.identifier n) ⟨some q, some n⟩

inductive Walks : Nat → Option Nat → SystemModelChecker → SystemModelChecker → Prop
  | stop (p : Nat) (c : SystemModelChecker) : Walks p none c c
  | itself {p : Nat} {c c' : SystemModelChecker}
      (hrest : Walks p (g.nextSibling p) (c.report [.appendedIntoItself p]) c') :
      Walks p (some p) c c'
  | again {p n q : Nat} {c : SystemModelChecker} (hne : n ≠ p) (hmanaged : g.Managed n)
      (hparent : g.parentOf c n = some q) : Walks p (some n) c (g.findAgain p n q c)
  | unmanaged {p n : Nat} {c c₁ c' : SystemModelChecker} {findings : List Finding} (hne : n ≠ p)
      (hmanaged : ¬g.Managed n) (haccept : g.accept n = .ok findings)
      (hbelow : Walks n (g.below n) (c.report (g.unmanaged n :: (findings ++ g.childless n))) c₁)
      (hrest : Walks p (g.nextSibling n) c₁ c') : Walks p (some n) c c'
  | first {p n : Nat} {c c₁ c' : SystemModelChecker} {findings : List Finding} (hne : n ≠ p)
      (hmanaged : g.Managed n) (hparent : g.parentOf c n = none)
      (haccept : g.accept n = .ok findings)
      (hbelow : Walks n (g.below n) ((g.adopt p n c).report (findings ++ g.childless n)) c₁)
      (hrest : Walks p (g.nextSibling n) c₁ c') : Walks p (some n) c c'

def Collected (c : SystemModelChecker) : Prop :=
  ∀ id, (c.collectedNodeInfo id).parent.isSome = (c.collectedNodeInfo id).node.isSome

variable {g} {p q n m : Nat} {c c₁ c' : SystemModelChecker}

theorem collected_start : Collected .start :=
  fun _ => rfl

theorem Collected.report (hc : Collected c) (findings : List Finding) :
    Collected (c.report findings) :=
  hc

theorem Collected.collect (hc : Collected c) (id a b : Nat) :
    Collected (c.collect id ⟨some a, some b⟩) := by
  intro id'
  rw [SystemModelChecker.collect_collectedNodeInfo]
  by_cases hid : id' = id
  · subst hid
    rw [Function.update_self]
    rfl
  · rw [Function.update_of_ne hid]
    exact hc id'

@[simp] theorem parentOf_report (findings : List Finding) :
    g.parentOf (c.report findings) n = g.parentOf c n :=
  rfl

theorem parentOf_adopt_self : g.parentOf (g.adopt p n c) n = some p := by
  rw [parentOf, adopt, SystemModelChecker.collect_collectedNodeInfo, Function.update_self]

theorem parentOf_adopt (hn : g.Managed n) (hm : g.Managed m) (hne : m ≠ n) :
    g.parentOf (g.adopt p n c) m = g.parentOf c m := by
  rw [parentOf, adopt, SystemModelChecker.collect_collectedNodeInfo, Function.update_of_ne]
  · rfl
  · exact fun hid => hne (hm.inj hn hid)

theorem parentOf_findAgain (hn : g.Managed n) (hm : g.Managed m) (hq : g.parentOf c n = some q) :
    g.parentOf (g.findAgain p n q c) m = g.parentOf c m := by
  rw [parentOf, findAgain, SystemModelChecker.collect_collectedNodeInfo]
  by_cases hne : m = n
  · subst hne
    rw [Function.update_self, hq]
  · rw [Function.update_of_ne]
    · rfl
    · exact fun hid => hne (hm.inj hn hid)

/-! ### The code walks -/

theorem checkChildNode_unmanaged (hmanaged : ¬g.Managed n) :
    g.checkChildNode p n c = (true, c.report [g.unmanaged n]) := by
  rw [checkChildNode, NodeGraph.unmanaged]
  cases hmapped : (g.identifierMapping[g.identifier n]?).join with
  | none => rfl
  | some mapped =>
    have hne : n ≠ mapped := by
      rintro rfl
      exact hmanaged (Option.join_eq_some_iff.mp hmapped)
    simp only [if_pos hne]

theorem checkChildNode_managed (hmanaged : g.Managed n) :
    g.checkChildNode p n c =
      match g.parentOf c n with
      | some q =>
        (false, (c.report [g.secondParent p n q]).collect (g.identifier n)
          { c.collectedNodeInfo (g.identifier n) with node := some n })
      | none => ((c.collectedNodeInfo (g.identifier n)).node.isNone, g.adopt p n c) := by
  have hmapped : (g.identifierMapping[g.identifier n]?).join = some n :=
    Option.join_eq_some_iff.mpr hmanaged
  rw [checkChildNode, hmapped]
  simp only [ne_eq, not_true_eq_false, if_false]
  rfl

theorem checkChildNode_again (hmanaged : g.Managed n) (hparent : g.parentOf c n = some q) :
    g.checkChildNode p n c = (false, g.findAgain p n q c) := by
  have hinfo : (c.collectedNodeInfo (g.identifier n)).parent = some q := hparent
  rw [checkChildNode_managed hmanaged, hparent]
  simp only [findAgain, hinfo]

theorem checkChildNode_first (hc : Collected c) (hmanaged : g.Managed n)
    (hparent : g.parentOf c n = none) :
    g.checkChildNode p n c = (true, g.adopt p n c) := by
  have hnode : (c.collectedNodeInfo (g.identifier n)).node = none := by
    have hsame := hc (g.identifier n)
    rw [show (c.collectedNodeInfo (g.identifier n)).parent = none from hparent] at hsame
    exact Option.isNone_iff_eq_none.mp (by simpa using hsame.symm)
  rw [checkChildNode_managed hmanaged, hparent, hnode]
  rfl

theorem childless_eq_nil {child : Nat} (hbelow : g.below n = some child) : g.childless n = [] := by
  rw [below] at hbelow
  split at hbelow
  · rw [childless, hbelow, if_neg]
    simp
  · cases hbelow

/-- The traversal below a node, with the fuel that is left. -/
def CheckedBelow (g : NodeGraph) (fuel n : Nat) (c c₁ : SystemModelChecker) : Prop :=
  (if g.isParent n then g.checkParentNode fuel n c else some (.ok c)) = some (.ok c₁)

theorem checkedBelow_of_none {fuel : Nat} (hbelow : g.below n = none) :
    CheckedBelow g (fuel + 1) n c (c.report (g.childless n)) := by
  rw [CheckedBelow, childless]
  rw [below] at hbelow
  split at hbelow
  · rename_i hparent
    rw [if_pos hparent, checkParentNode, hbelow, if_pos ⟨hparent, rfl⟩]
  · rename_i hparent
    rw [if_neg hparent, if_neg (fun h => hparent h.1), SystemModelChecker.report_nil]

theorem checkedBelow_of_some {fuel child : Nat} (hbelow : g.below n = some child)
    (hrun : g.checkChildren fuel n (some child) c = some (.ok c₁)) :
    CheckedBelow g (fuel + 1) n c c₁ := by
  rw [CheckedBelow]
  rw [below] at hbelow
  split at hbelow
  · rename_i hparent
    rw [if_pos hparent, checkParentNode, hbelow]
    exact hrun
  · cases hbelow

theorem CheckedBelow.cases {fuel : Nat} (hrun : CheckedBelow g fuel n c c₁) :
    (g.below n = none ∧ c₁ = c.report (g.childless n)) ∨
      ∃ child rest, g.below n = some child ∧ rest < fuel ∧
        g.checkChildren rest n (some child) c = some (.ok c₁) := by
  rw [CheckedBelow] at hrun
  rw [below, childless]
  split at hrun
  · rename_i hparent
    rw [if_pos hparent]
    cases fuel with
    | zero => cases hrun
    | succ fuel =>
      rw [checkParentNode] at hrun
      cases hfirst : g.firstChild n with
      | none =>
        rw [hfirst] at hrun
        cases hrun
        exact .inl ⟨rfl, by rw [if_pos ⟨hparent, rfl⟩]⟩
      | some child =>
        rw [hfirst] at hrun
        exact .inr ⟨child, fuel, rfl, Nat.lt_succ_self fuel, hrun⟩
  · rename_i hparent
    cases hrun
    rw [if_neg hparent, if_neg (fun h => hparent h.1), SystemModelChecker.report_nil]
    exact .inl ⟨rfl, rfl⟩

/-- What the loop does with a child other than the parent. -/
theorem checkChildren_eq_ok {fuel : Nat} (hne : n ≠ p) :
    g.checkChildren (fuel + 1) p (some n) c = some (.ok c') ↔
      (∃ c₀, g.checkChildNode p n c = (false, c₀) ∧ c' = c₀) ∨
        ∃ c₀ findings c₁, g.checkChildNode p n c = (true, c₀) ∧ g.accept n = .ok findings ∧
          CheckedBelow g fuel n (c₀.report findings) c₁ ∧
            g.checkChildren fuel p (g.nextSibling n) c₁ = some (.ok c') := by
  rw [checkChildren, if_neg hne]
  obtain ⟨checkedOnce, c₀⟩ := g.checkChildNode p n c
  cases checkedOnce with
  | false => simp [eq_comm]
  | true =>
    cases haccept : g.accept n with
    | error e => simp
    | ok findings =>
      simp only [Bool.true_eq_false, if_false, Prod.mk.injEq, true_and, false_and, exists_false,
        false_or, Except.ok.injEq, exists_and_left, exists_eq_left', Option.bind_eq_some_iff]
      constructor
      · rintro ⟨e | c₁, hbelow, hrest⟩
        · cases hrest
        · exact ⟨c₁, hbelow, hrest⟩
      · rintro ⟨c₁, hbelow, hrest⟩
        exact ⟨.ok c₁, hbelow, hrest⟩

theorem walks_of_checkChildren {fuel : Nat} {start : Option Nat} (hc : Collected c)
    (hrun : g.checkChildren fuel p start c = some (.ok c')) :
    g.Walks p start c c' ∧ Collected c' := by
  induction fuel using Nat.strongRecOn generalizing p start c c' with
  | ind fuel ih =>
    have hdown {rest n : Nat} {c c₁ : SystemModelChecker} (hrest : rest < fuel) (hc : Collected c)
        (hbelow : CheckedBelow g rest n c c₁) :
        g.Walks n (g.below n) (c.report (g.childless n)) c₁ ∧ Collected c₁ := by
      rcases hbelow.cases with ⟨hlink, rfl⟩ | ⟨child, rest', hlink, hless, hbelow⟩
      · rw [hlink]
        exact ⟨.stop n _, hc.report _⟩
      · rw [childless_eq_nil hlink, SystemModelChecker.report_nil, hlink]
        exact ih rest' (Nat.lt_trans hless hrest) hc hbelow
    cases fuel with
    | zero => cases hrun
    | succ fuel =>
      have hless := Nat.lt_succ_self fuel
      cases start with
      | none =>
        cases hrun
        exact ⟨.stop p c, hc⟩
      | some n =>
        by_cases hne : n = p
        · subst hne
          rw [checkChildren, if_pos rfl] at hrun
          obtain ⟨hwalk, hc'⟩ := ih fuel hless (hc.report _) hrun
          exact ⟨.itself hwalk, hc'⟩
        rw [checkChildren_eq_ok hne] at hrun
        by_cases hmanaged : g.Managed n
        · cases hparent : g.parentOf c n with
          | some q =>
            rw [checkChildNode_again hmanaged hparent] at hrun
            rcases hrun with ⟨c₀, hnode, rfl⟩ | ⟨c₀, _, _, hnode, _⟩
            · cases hnode
              exact ⟨.again hne hmanaged hparent, (hc.report _).collect _ _ _⟩
            · cases hnode
          | none =>
            rw [checkChildNode_first hc hmanaged hparent] at hrun
            rcases hrun with ⟨c₀, hnode, _⟩ | ⟨c₀, findings, c₁, hnode, haccept, hbelow, hrest⟩
            · cases hnode
            · cases hnode
              obtain ⟨hbelow, hc₁⟩ := hdown hless ((hc.collect _ _ _).report _) hbelow
              obtain ⟨hrest, hc'⟩ := ih fuel hless hc₁ hrest
              rw [SystemModelChecker.report_report] at hbelow
              exact ⟨.first hne hmanaged hparent haccept hbelow hrest, hc'⟩
        · rw [checkChildNode_unmanaged hmanaged] at hrun
          rcases hrun with ⟨c₀, hnode, _⟩ | ⟨c₀, findings, c₁, hnode, haccept, hbelow, hrest⟩
          · cases hnode
          · cases hnode
            obtain ⟨hbelow, hc₁⟩ := hdown hless ((hc.report _).report _) hbelow
            obtain ⟨hrest, hc'⟩ := ih fuel hless hc₁ hrest
            rw [SystemModelChecker.report_report, SystemModelChecker.report_report] at hbelow
            exact ⟨.unmanaged hne hmanaged haccept hbelow hrest, hc'⟩

theorem walks_of_checkedBelow {fuel : Nat} (hbelow : CheckedBelow g fuel n c c₁)
    (hc : Collected c) : g.Walks n (g.below n) (c.report (g.childless n)) c₁ ∧ Collected c₁ := by
  rcases hbelow.cases with ⟨hlink, rfl⟩ | ⟨child, rest, hlink, -, hbelow⟩
  · rw [hlink]
    exact ⟨.stop n _, hc.report _⟩
  · rw [childless_eq_nil hlink, SystemModelChecker.report_nil, hlink]
    exact walks_of_checkChildren hc hbelow

theorem ends_checkedBelow
    (hends : Ends (fun fuel => g.checkChildren fuel n (g.below n) (c.report (g.childless n)))
      (.ok c₁)) :
    ∃ enough, ∀ fuel, enough ≤ fuel → CheckedBelow g fuel n c c₁ := by
  cases hlink : g.below n with
  | none =>
    rw [hlink] at hends
    have hstop : Ends (fun fuel => g.checkChildren fuel n none (c.report (g.childless n)))
        (.ok (c.report (g.childless n))) :=
      Ends.succ ⟨0, fun _ _ => rfl⟩
    obtain rfl := Except.ok.inj (hends.unique hstop)
    refine ⟨1, fun fuel hfuel => ?_⟩
    obtain ⟨rest, rfl⟩ := Nat.exists_eq_add_of_le' hfuel
    exact checkedBelow_of_none hlink
  | some child =>
    rw [hlink, childless_eq_nil hlink, SystemModelChecker.report_nil] at hends
    obtain ⟨enough, henough⟩ := hends
    refine ⟨enough + 1, fun fuel hfuel => ?_⟩
    obtain ⟨rest, rfl⟩ := Nat.exists_eq_add_of_le' hfuel
    exact checkedBelow_of_some hlink (henough (rest + enough) (Nat.le_add_left _ _))

theorem ends_visit {c₀ : SystemModelChecker} {findings : List Finding} (hne : n ≠ p)
    (hnode : g.checkChildNode p n c = (true, c₀)) (haccept : g.accept n = .ok findings)
    (hbelow : Ends (fun fuel => g.checkChildren fuel n (g.below n)
      (c₀.report (findings ++ g.childless n))) (.ok c₁))
    (hrest : Ends (fun fuel => g.checkChildren fuel p (g.nextSibling n) c₁) (.ok c')) :
    Ends (fun fuel => g.checkChildren fuel p (some n) c) (.ok c') := by
  rw [← SystemModelChecker.report_report] at hbelow
  obtain ⟨enough, hbelow⟩ := ends_checkedBelow hbelow
  obtain ⟨enough', hrest⟩ := hrest
  refine Ends.succ ⟨max enough enough', fun fuel hfuel => ?_⟩
  refine (checkChildren_eq_ok hne).mpr (.inr ⟨c₀, findings, c₁, hnode, haccept, ?_, ?_⟩)
  · exact hbelow fuel (Nat.le_trans (Nat.le_max_left _ _) hfuel)
  · exact hrest fuel (Nat.le_trans (Nat.le_max_right _ _) hfuel)

theorem Walks.ends {start : Option Nat} (hwalk : g.Walks p start c c') (hc : Collected c) :
    Ends (fun fuel => g.checkChildren fuel p start c) (.ok c') ∧ Collected c' := by
  induction hwalk with
  | stop p c => exact ⟨Ends.succ ⟨0, fun _ _ => rfl⟩, hc⟩
  | itself hrest ih =>
    obtain ⟨hends, hc'⟩ := ih (hc.report _)
    refine ⟨Ends.succ (hends.congr fun fuel => ?_), hc'⟩
    rw [checkChildren, if_pos rfl]
  | again hne hmanaged hparent =>
    refine ⟨Ends.succ ⟨0, fun fuel _ => ?_⟩, (hc.report _).collect _ _ _⟩
    exact (checkChildren_eq_ok hne).mpr (.inl ⟨_, checkChildNode_again hmanaged hparent, rfl⟩)
  | unmanaged hne hmanaged haccept hbelow hrest ihbelow ihrest =>
    obtain ⟨hbelow, hc₁⟩ := ihbelow (hc.report _)
    obtain ⟨hrest, hc'⟩ := ihrest hc₁
    refine ⟨ends_visit hne (checkChildNode_unmanaged hmanaged) haccept ?_ hrest, hc'⟩
    rw [SystemModelChecker.report_report]
    exact hbelow
  | first hne hmanaged hparent haccept hbelow hrest ihbelow ihrest =>
    obtain ⟨hbelow, hc₁⟩ := ihbelow ((hc.collect _ _ _).report _)
    obtain ⟨hrest, hc'⟩ := ihrest hc₁
    exact ⟨ends_visit hne (checkChildNode_first hc hmanaged hparent) haccept hbelow hrest, hc'⟩

end NodeGraph

end Mast
