import Mathlib.Data.List.Basic
import Mathlib.Data.Option.Basic
import Mathlib.Logic.Relation
import Mathlib.Tactic.Common

/-!
# Paths in a labelled graph

A labelled graph gives for each node and label at most one successor. A path is a list of labels, and walking along it ends in a node unless a successor is missing. Two graphs mirror each other from two nodes when the same paths can be walked in both and end in related nodes. A graph with a circle has paths of any length; one whose edges ascend in the numbers below a bound has not.
-/

namespace LabelledPaths

variable {α β ι : Type*} (next : α → ι → Option α)

def walk (a : α) : (path : List ι) → Option α
  | [] => some a
  | i :: path => (next a i).bind fun b => walk b path

def Edge (a b : α) : Prop := ∃ i, next a i = some b

/-- A circle, and a way to it. -/
def LeadsToCircle (a : α) : Prop :=
  ∃ b, Relation.ReflTransGen (Edge next) a b ∧ Relation.TransGen (Edge next) b b

variable {next}

theorem walk_append (a : α) (path path' : List ι) :
    walk next a (path ++ path') = (walk next a path).bind fun b => walk next b path' := by
  induction path generalizing a with
  | nil => rfl
  | cons i path ih =>
    rw [List.cons_append, walk, walk, Option.bind_assoc]
    congr 1
    funext b
    exact ih b

theorem walk_concat {a c : α} {path : List ι} {i : ι} (hwalk : walk next a (path ++ [i]) = some c) :
    ∃ b, walk next a path = some b ∧ next b i = some c := by
  rw [walk_append] at hwalk
  obtain ⟨b, hpath, hlast⟩ := Option.bind_eq_some_iff.mp hwalk
  obtain ⟨c', hnext, hend⟩ := Option.bind_eq_some_iff.mp hlast
  cases hend
  exact ⟨b, hpath, hnext⟩

theorem reaches_of_walk {a b : α} {path : List ι} (hwalk : walk next a path = some b) :
    Relation.ReflTransGen (Edge next) a b := by
  induction path generalizing a with
  | nil =>
    cases hwalk
    exact .refl
  | cons i path ih =>
    obtain ⟨c, hnext, hrest⟩ := Option.bind_eq_some_iff.mp hwalk
    exact .head ⟨i, hnext⟩ (ih hrest)

/-! ### Circles -/

theorem LeadsToCircle.of_reaches {a b : α} (hreaches : Relation.ReflTransGen (Edge next) a b)
    (hcircle : LeadsToCircle next b) : LeadsToCircle next a := by
  obtain ⟨c, hc, hcycle⟩ := hcircle
  exact ⟨c, hreaches.trans hc, hcycle⟩

theorem LeadsToCircle.successor {a : α} (hcircle : LeadsToCircle next a) :
    ∃ b, Edge next a b ∧ LeadsToCircle next b := by
  obtain ⟨c, hreaches, hcycle⟩ := hcircle
  rcases Relation.ReflTransGen.cases_head hreaches with rfl | ⟨b, hedge, hrest⟩
  · obtain ⟨b, hedge, hrest⟩ := Relation.TransGen.head'_iff.mp hcycle
    exact ⟨b, hedge, a, hrest, hcycle⟩
  · exact ⟨b, hedge, c, hrest, hcycle⟩

/-- A circle can be walked along for any time. -/
theorem LeadsToCircle.exists_walk {a : α} (hcircle : LeadsToCircle next a) (n : Nat) :
    ∃ path b, path.length = n ∧ walk next a path = some b := by
  induction n generalizing a with
  | zero => exact ⟨[], a, rfl, rfl⟩
  | succ n ih =>
    obtain ⟨b, ⟨i, hnext⟩, hrest⟩ := hcircle.successor
    obtain ⟨path, c, hlength, hwalk⟩ := ih hrest
    refine ⟨i :: path, c, by rw [List.length_cons, hlength], ?_⟩
    rw [walk, hnext]
    exact hwalk

/-- In a graph whose edges ascend, no path is longer than the numbers it passes. -/
theorem walk_ascends {next : Nat → ι → Option Nat} {a b : Nat} {path : List ι}
    (hascends : ∀ c, a ≤ c → ∀ i d, next c i = some d → c < d)
    (hwalk : walk next a path = some b) : a + path.length ≤ b := by
  induction path generalizing a with
  | nil =>
    cases hwalk
    exact Nat.le_refl _
  | cons i path ih =>
    obtain ⟨c, hnext, hrest⟩ := Option.bind_eq_some_iff.mp hwalk
    have hlt := hascends a (Nat.le_refl a) i c hnext
    have hle := ih (fun d hd => hascends d (by omega)) hrest
    rw [List.length_cons]
    omega

/-! ### Graphs that agree -/

theorem walk_congr {next' : α → ι → Option α} {a : α}
    (hsame : ∀ b, Relation.ReflTransGen (Edge next) a b → ∀ i, next' b i = next b i)
    (path : List ι) : walk next' a path = walk next a path := by
  induction path generalizing a with
  | nil => rfl
  | cons i path ih =>
    rw [walk, walk, hsame a .refl i]
    cases hnext : next a i with
    | none => rfl
    | some b =>
      exact ih fun c hc => hsame c (.head ⟨i, hnext⟩ hc)

/-- The same paths, to related ends. -/
def Mirrors (R : α → β → Prop) (next : α → ι → Option α) (next' : β → ι → Option β) (a : α) (b : β) :
    Prop :=
  ∀ path, Option.Rel R (walk next a path) (walk next' b path)

section Mirrors

variable {R : α → β → Prop} {next' : β → ι → Option β} {a : α} {b : β}

/-- Nodes mirror each other when their successors do. -/
theorem Mirrors.of_step (hrelated : R a b)
    (hstep : ∀ i, Option.Rel (Mirrors R next next') (next a i) (next' b i)) :
    Mirrors R next next' a b := by
  intro path
  cases path with
  | nil => exact .some hrelated
  | cons i path =>
    rw [walk, walk]
    have hnext := hstep i
    generalize next a i = c, next' b i = d at hnext
    cases hnext with
    | none => exact .none
    | some hmirrors => exact hmirrors path

theorem Mirrors.congr {next₁ : α → ι → Option α} {next₁' : β → ι → Option β} {R' : α → β → Prop}
    (hmirrors : Mirrors R next next' a b) (hleft : ∀ path, walk next₁ a path = walk next a path)
    (hright : ∀ path, walk next₁' b path = walk next' b path)
    (himp : ∀ c d, Relation.ReflTransGen (Edge next) a c → Relation.ReflTransGen (Edge next') b d →
      R c d → R' c d) :
    Mirrors R' next₁ next₁' a b := by
  intro path
  rw [hleft, hright]
  have hpath := hmirrors path
  have hreaches (c : α) (hwalk : walk next a path = some c) := reaches_of_walk hwalk
  have hreaches' (d : β) (hwalk : walk next' b path = some d) := reaches_of_walk hwalk
  generalize walk next a path = c, walk next' b path = d at hpath hreaches hreaches'
  cases hpath with
  | none => exact .none
  | some h => exact .some (himp _ _ (hreaches _ rfl) (hreaches' _ rfl) h)

theorem Mirrors.walk_isSome {c : β} {path : List ι} (hmirrors : Mirrors R next next' a b)
    (hwalk : walk next' b path = some c) : ∃ d, walk next a path = some d ∧ R d c := by
  have hpath := hmirrors path
  rw [hwalk] at hpath
  generalize walk next a path = d at hpath
  cases hpath with
  | some h => exact ⟨_, rfl, h⟩

/-- What mirrors an ascending graph has no circle. -/
theorem Mirrors.not_leadsToCircle {R : Nat → β → Prop} {next : Nat → ι → Option Nat} {a bound : Nat}
    (hmirrors : Mirrors R next next' a b) (hascends : ∀ c, a ≤ c → ∀ i d, next c i = some d → c < d ∧ d < bound)
    (hbound : a < bound) : ¬LeadsToCircle next' b := by
  intro hcircle
  obtain ⟨path, c, hlength, hwalk⟩ := hcircle.exists_walk bound
  obtain ⟨d, hwalk', -⟩ := hmirrors.walk_isSome hwalk
  have hle := walk_ascends (fun c hc i d hnext => (hascends c hc i d hnext).1) hwalk'
  have hlt : d < bound := by
    rcases List.eq_nil_or_concat' path with rfl | ⟨before, i, rfl⟩
    · cases hwalk'
      exact hbound
    · obtain ⟨c', hbefore, hlast⟩ := walk_concat hwalk'
      have hfrom := walk_ascends (fun c hc i d hnext => (hascends c hc i d hnext).1) hbefore
      exact (hascends c' (by omega) i d hlast).2
  omega

end Mirrors

end LabelledPaths
