import Mast.Checker.Search

/-!
# Circles

A walk that starts at the root enters every circle it can reach, with one exception: a managed node in its own list is not passed there when the list is left at a node that another parent has passed before. So without such a node no circle at all may be reached.
-/

namespace Mast.NodeGraph

open Relation SiblingLists DepthFirst

variable {g : NodeGraph} {root p q n m a b : Nat} {c c₁ c' : SystemModelChecker}
  {visited : Nat → Option Nat → Prop} {x y : Nat × Nat}

/-! ### Kinds of circles -/

/-- Steps go down to children, or stay among the children of one parent. -/
theorem passes_cases (hpasses : TransGen g.search.Passes x y) :
    (∃ p n m, ReflTransGen g.search.Passes x (p, n) ∧ g.search.Passes (p, n) (n, m) ∧
      g.below n = some m ∧ ReflTransGen g.search.Passes (n, m) y) ∨
    (y.1 = x.1 ∧ TransGen (g.SiblingStep x.1) x.2 y.2) := by
  induction hpasses with
  | @single y hpass =>
    obtain ⟨p, n⟩ := x
    obtain ⟨q, m⟩ := y
    rcases passes_iff.mp hpass with ⟨hsame, hsibling⟩ | ⟨hsame, -, -, hbelow⟩
    · exact .inr ⟨hsame, .single hsibling⟩
    · obtain rfl : q = n := hsame
      exact .inl ⟨p, q, m, .refl, hpass, hbelow, .refl⟩
  | @tail y z hpasses hpass ih =>
    rcases ih with ⟨p, n, m, hto, hdown, hbelow, hfrom⟩ | ⟨hparent, hsiblings⟩
    · exact .inl ⟨p, n, m, hto, hdown, hbelow, hfrom.tail hpass⟩
    · obtain ⟨p, n⟩ := y
      obtain ⟨q, m⟩ := z
      rcases passes_iff.mp hpass with ⟨hsame, hsibling⟩ | ⟨hsame, -, -, hbelow⟩
      · obtain rfl : p = x.1 := hparent
        exact .inr ⟨hsame, hsiblings.tail hsibling⟩
      · obtain rfl : q = n := hsame
        exact .inl ⟨p, q, m, hpasses.to_reflTransGen, hpass, hbelow, .refl⟩

/-- Among the children of one parent, either no managed node is passed or the parent itself. -/
theorem siblings_cases (hsiblings : TransGen (g.SiblingStep p) n m) :
    TransGen (fun a b => ¬g.Managed a ∧ g.nextSibling a = some b) n m ∨
      (g.Managed p ∧ ReflTransGen (g.SiblingStep p) n p ∧ TransGen (g.SiblingStep p) p m) := by
  induction hsiblings with
  | single hstep =>
    by_cases hmanaged : g.Managed n
    · rcases hstep.1 with rfl | hunmanaged
      · exact .inr ⟨hmanaged, .refl, .single hstep⟩
      · exact absurd hmanaged hunmanaged
    · exact .inl (.single ⟨hmanaged, hstep.2⟩)
  | @tail a b hto hstep ih =>
    rcases ih with hunmanaged | ⟨hmanaged, hback, hfrom⟩
    · by_cases hmanaged : g.Managed a
      · rcases hstep.1 with rfl | hnot
        · exact .inr ⟨hmanaged, hto.to_reflTransGen, .single hstep⟩
        · exact absurd hmanaged hnot
      · exact .inl (hunmanaged.tail ⟨hmanaged, hstep.2⟩)
    · exact .inr ⟨hmanaged, hback, hfrom.tail hstep⟩

theorem passes_isPlace (hpasses : ReflTransGen g.search.Passes x y) (hx : g.IsPlace root x) :
    g.IsPlace root y := by
  induction hpasses with
  | refl => exact hx
  | tail _ hpass ih => exact ih.next hpass.2

theorem siblings_childOf (hsiblings : ReflTransGen (g.SiblingStep p) n m) (hn : g.ChildOf p n) :
    g.ChildOf p m := by
  induction hsiblings with
  | refl => exact hn
  | tail _ hstep ih => exact ih.next hstep.2

theorem siblings_passes (hsiblings : TransGen (g.SiblingStep p) n m) :
    TransGen g.search.Passes (p, n) (p, m) := by
  induction hsiblings with
  | single hstep => exact .single (passes_iff.mpr (.inl ⟨rfl, hstep⟩))
  | tail _ hstep ih => exact ih.tail (passes_iff.mpr (.inl ⟨rfl, hstep⟩))

theorem unmanaged_passes (p : Nat)
    (hsiblings : TransGen (fun a b => ¬g.Managed a ∧ g.nextSibling a = some b) n m) :
    TransGen g.search.Passes (p, n) (p, m) :=
  siblings_passes (TransGen.mono (fun _ _ h => ⟨.inr h.1, h.2⟩) _ _ hsiblings)

/-! ### Reachable circles -/

theorem Visits.not_onCircle (h : g.Visits p c c' visited) (hvisited : visited q (some n)) :
    ¬g.search.OnCircle (q, n) := by
  obtain ⟨d, d', hwalk⟩ := h.walks hvisited
  exact hwalk.not_onCircle

/-- A whole walk has met no circle, but for those it was led around. -/
theorem Visits.noCircle (h : g.Visits root c c' visited) (hnone : ∀ m, g.parentOf c m = none)
    (hroot : visited root (g.below root)) (hsound : g.Sound root c')
    (hshared : ¬g.SharedFront root) : g.NoCircle root := by
  intro p n hp hn hcircle
  have hplace : g.IsPlace root (p, n) := ⟨hp, hn⟩
  rcases passes_cases hcircle with ⟨q, a, m, hto, hdown, hbelow, hfrom⟩ | ⟨-, hsiblings⟩
  · have hplace := passes_isPlace hto hplace
    have hvisited := (h.reached_below hnone hroot (hplace.1.child hplace.2)).1
    rw [hbelow] at hvisited
    exact h.not_onCircle hvisited (TransGen.tail' (hfrom.trans hto) hdown)
  · rcases siblings_cases hsiblings with hunmanaged | ⟨hmanaged, hto, hfrom⟩
    · obtain ⟨q, hq⟩ : ∃ q, visited q (some n) := by
        obtain ⟨hparent, front, hfront⟩ := hn
        have hbelow := (h.reached_below hnone hroot hp).1
        rw [NodeGraph.below, if_pos hparent] at hbelow
        exact h.leads hnone hfront ⟨p, hbelow⟩
      exact h.not_onCircle hq (unmanaged_passes q hunmanaged)
    · obtain ⟨hparent, front, hfront⟩ := siblings_childOf hto hn
      have hbelow := (h.reached_below hnone hroot hp).1
      rw [NodeGraph.below, if_pos hparent] at hbelow
      have hvisited : visited p (some p) := by
        refine h.leads_same hnone hfront hbelow fun m hm hne hmanaged' o ho => ?_
        obtain ⟨hreached, hchild, -⟩ := hsound m o hmanaged' ho
        by_contra hother
        exact hshared ⟨p, o, m, front, hp, hparent, hmanaged, hfront, hm, hne, hmanaged', hother,
          hreached, hchild⟩
      exact h.not_onCircle hvisited (siblings_passes (TransGen.trans_left hfrom hto))

/-- The search arrives at places only. -/
theorem arrives_isPlace {s : DepthFirst.Search (Nat × Nat) Nat} (harrives : g.search.Arrives s x)
    (hs : ∀ y ∈ s.pending, g.IsPlace root y) : g.IsPlace root x := by
  induction harrives with
  | here x rest marked => exact hs x List.mem_cons_self
  | @later s x _ ih =>
    refine ih fun y hy => ?_
    obtain ⟨pending, marked⟩ := s
    cases pending with
    | nil => exact hs y hy
    | cons z rest =>
      obtain ⟨hz, hrest⟩ := List.forall_mem_cons.mp hs
      rcases Graph.mem_advance hy with hy | hy
      · exact hz.next hy
      · exact hrest y hy

/-- Without circles the search meets none. -/
theorem NoCircle.arrives (h : g.NoCircle root) (hx : g.Arrives root x) : ¬g.search.OnCircle x := by
  obtain ⟨hp, hn⟩ := arrives_isPlace hx fun y => isPlace_root
  exact h x.1 x.2 hp hn

end Mast.NodeGraph
