import Mathlib.Data.Finset.Card
import Mathlib.Logic.Hydra
import Mathlib.Order.WellFoundedSet

/-!
# Depth-first search with marks

A search with a stack, in a graph whose successors are ordered. It leaves a mark at some of the nodes and turns back where it finds its mark; the nodes without a mark it passes each time it comes to them. In a finite graph the search finishes exactly when it arrives at no node on a circle of nodes without marks: every mark is left once, and in between the stack is a hydra that loses a head and grows lower ones.
-/

namespace DepthFirst

open Relation

structure Graph (σ κ : Type*) where
  next : σ → List σ
  mark : σ → Option κ

/-- The nodes that the search has still to come to, and the marks that it has left. -/
structure Search (σ κ : Type*) where
  pending : List σ
  marked : List κ

variable {σ κ : Type*} [DecidableEq κ] (g : Graph σ κ)

namespace Graph

def advance : Search σ κ → Search σ κ
  | ⟨[], marked⟩ => ⟨[], marked⟩
  | ⟨x :: rest, marked⟩ =>
    match g.mark x with
    | none => ⟨g.next x ++ rest, marked⟩
    | some k => if k ∈ marked then ⟨rest, marked⟩ else ⟨g.next x ++ rest, k :: marked⟩

inductive Finishes : Search σ κ → List κ → Prop
  | done (marked : List κ) : Finishes ⟨[], marked⟩ marked
  | advance {x : σ} {rest : List σ} {marked marked' : List κ}
      (hrest : Finishes (g.advance ⟨x :: rest, marked⟩) marked') : Finishes ⟨x :: rest, marked⟩ marked'

inductive Arrives : Search σ κ → σ → Prop
  | here (x : σ) (rest : List σ) (marked : List κ) : Arrives ⟨x :: rest, marked⟩ x
  | later {s : Search σ κ} {x : σ} (hrest : Arrives (g.advance s) x) : Arrives s x

omit [DecidableEq κ] in
def Passes (x y : σ) : Prop :=
  g.mark x = none ∧ y ∈ g.next x

def OnCircle (x : σ) : Prop :=
  TransGen g.Passes x x

variable {g} {x y : σ} {s : Search σ κ} {rest : List σ} {marked marked' : List κ} {k : κ}

theorem advance_unmarked (hmark : g.mark x = none) :
    g.advance ⟨x :: rest, marked⟩ = ⟨g.next x ++ rest, marked⟩ := by
  rw [advance, hmark]

theorem advance_again (hmark : g.mark x = some k) (hk : k ∈ marked) :
    g.advance ⟨x :: rest, marked⟩ = ⟨rest, marked⟩ := by
  rw [advance, hmark]
  exact if_pos hk

theorem advance_first (hmark : g.mark x = some k) (hk : k ∉ marked) :
    g.advance ⟨x :: rest, marked⟩ = ⟨g.next x ++ rest, k :: marked⟩ := by
  rw [advance, hmark]
  exact if_neg hk

theorem mem_advance (hy : y ∈ (g.advance ⟨x :: rest, marked⟩).pending) :
    y ∈ g.next x ∨ y ∈ rest := by
  cases hmark : g.mark x with
  | none =>
    rw [advance_unmarked hmark] at hy
    exact List.mem_append.mp hy
  | some k =>
    by_cases hk : k ∈ marked
    · rw [advance_again hmark hk] at hy
      exact .inr hy
    · rw [advance_first hmark hk] at hy
      exact List.mem_append.mp hy

theorem mem_advance_of_mem_rest (hy : y ∈ rest) :
    y ∈ (g.advance ⟨x :: rest, marked⟩).pending := by
  cases hmark : g.mark x with
  | none =>
    rw [advance_unmarked hmark]
    exact List.mem_append_right _ hy
  | some k =>
    by_cases hk : k ∈ marked
    · rw [advance_again hmark hk]
      exact hy
    · rw [advance_first hmark hk]
      exact List.mem_append_right _ hy

/-! ### Circles -/

omit [DecidableEq κ] in
theorem OnCircle.passes (hx : g.OnCircle x) : g.mark x = none ∧ ∃ y ∈ g.next x, g.OnCircle y := by
  obtain ⟨y, hpasses, hback⟩ := TransGen.head'_iff.mp hx
  exact ⟨hpasses.1, y, hpasses.2, TransGen.tail' hback hpasses⟩

/-- A search that finishes has nothing on a circle to come to. -/
theorem Finishes.not_onCircle (hfinishes : g.Finishes s marked') (hx : x ∈ s.pending) :
    ¬g.OnCircle x := by
  induction hfinishes generalizing x with
  | done marked => cases hx
  | @advance a rest marked marked' hrest ih =>
    intro hcircle
    rcases List.mem_cons.mp hx with rfl | hx
    · obtain ⟨hmark, y, hy, hcircle⟩ := hcircle.passes
      refine ih ?_ hcircle
      rw [advance_unmarked hmark]
      exact List.mem_append_left _ hy
    · exact ih (mem_advance_of_mem_rest hx) hcircle

theorem Finishes.not_onCircle_of_arrives (hfinishes : g.Finishes s marked') (hx : g.Arrives s x) :
    ¬g.OnCircle x := by
  induction hx generalizing marked' with
  | here x rest marked => exact hfinishes.not_onCircle List.mem_cons_self
  | later hlater ih =>
    cases hfinishes with
    | done => exact ih (.done _)
    | advance hrest => exact ih hrest

/-! ### Finite graphs -/

def unmarked (g : Graph σ κ) (nodes : Finset σ) (marked : List κ) : Finset σ :=
  nodes.filter fun x => (g.mark x).any (· ∉ marked)

theorem mem_unmarked {nodes : Finset σ} :
    x ∈ g.unmarked nodes marked ↔ x ∈ nodes ∧ ∃ k, g.mark x = some k ∧ k ∉ marked := by
  rw [unmarked, Finset.mem_filter, Option.any_eq_true]
  simp

theorem card_unmarked_lt {nodes : Finset σ} (hx : x ∈ nodes) (hmark : g.mark x = some k)
    (hk : k ∉ marked) : (g.unmarked nodes (k :: marked)).card < (g.unmarked nodes marked).card := by
  refine Finset.card_lt_card ⟨fun y hy => ?_, fun hsubset => ?_⟩
  · obtain ⟨hy, k', hmark', hk'⟩ := mem_unmarked.mp hy
    exact mem_unmarked.mpr ⟨hy, k', hmark', fun h => hk' (List.mem_cons_of_mem _ h)⟩
  · have hleft := hsubset (mem_unmarked.mpr ⟨hx, k, hmark, hk⟩)
    obtain ⟨-, k', hmark', hk'⟩ := mem_unmarked.mp hleft
    obtain rfl := Option.some.inj (hmark.symm.trans hmark')
    exact hk' List.mem_cons_self

omit [DecidableEq κ] in
/-- Lower than a node that is on no circle. -/
def Lower (g : Graph σ κ) (y x : σ) : Prop :=
  TransGen g.Passes x y ∧ ¬g.OnCircle x

omit [DecidableEq κ] in
theorem wellFounded_lower (g : Graph σ κ) (nodes : Finset σ) :
    WellFounded fun y x => g.Lower y x ∧ y ∈ (nodes : Set σ) ∧ x ∈ (nodes : Set σ) := by
  have hirrefl : Std.Irrefl g.Lower := ⟨fun x h => h.2 h.1⟩
  have htrans : IsTrans σ g.Lower := ⟨fun z y x hzy hyx => ⟨hyx.1.trans hzy.1, hyx.2⟩⟩
  have horder : IsStrictOrder σ g.Lower := {}
  exact Set.wellFoundedOn_iff.mp nodes.wellFoundedOn

/-- Marks are left once, and between two of them the stack gets lower. -/
theorem finishes_of_not_onCircle (nodes : Finset σ)
    (hclosed : ∀ x ∈ nodes, ∀ y ∈ g.next x, y ∈ nodes) (hpending : ∀ x ∈ s.pending, x ∈ nodes)
    (hclear : ∀ x, g.Arrives s x → ¬g.OnCircle x) : ∃ marked', g.Finishes s marked' := by
  have hwf := (Nat.lt_wfRel.wf.prod_lex (wellFounded_lower g nodes).cutExpand)
  have hwf := InvImage.wf
    (fun s : Search σ κ => ((g.unmarked nodes s.marked).card, (s.pending : Multiset σ))) hwf
  induction s using hwf.induction with
  | _ s ih =>
    obtain ⟨pending, marked⟩ := s
    cases pending with
    | nil => exact ⟨marked, .done marked⟩
    | cons x rest =>
      obtain ⟨hx, hrest⟩ := List.forall_mem_cons.mp hpending
      have hcircle : ¬g.OnCircle x := hclear x (.here x rest marked)
      have hlower (t : List σ) (ht : ∀ y ∈ t, y ∈ nodes ∧ g.Passes x y) :
          CutExpand (fun y x => g.Lower y x ∧ y ∈ (nodes : Set σ) ∧ x ∈ (nodes : Set σ))
            ((t ++ rest : List σ) : Multiset σ) ((x :: rest : List σ) : Multiset σ) := by
        refine ⟨t, x, fun y hy => ⟨⟨.single (ht y hy).2, hcircle⟩, (ht y hy).1, hx⟩, ?_⟩
        rw [← Multiset.coe_add, ← Multiset.cons_coe, ← Multiset.singleton_add,
          add_comm (_ + _) ({x} : Multiset σ), ← add_assoc, add_right_comm]
      obtain ⟨marked', hfinishes⟩ : ∃ marked', g.Finishes (g.advance ⟨x :: rest, marked⟩) marked' := by
        refine ih _ ?_ (fun y hy => ?_) fun y hy => hclear y (.later hy)
        · cases hmark : g.mark x with
          | none =>
            rw [advance_unmarked hmark]
            exact .right _ (hlower _ fun y hy => ⟨hclosed x hx y hy, hmark, hy⟩)
          | some k =>
            by_cases hk : k ∈ marked
            · rw [advance_again hmark hk]
              exact .right _ (hlower [] nofun)
            · rw [advance_first hmark hk]
              exact .left _ _ (card_unmarked_lt hx hmark hk)
        · rcases mem_advance hy with hy | hy
          · exact hclosed x hx y hy
          · exact hrest y hy
      exact ⟨marked', .advance hfinishes⟩

end Graph

end DepthFirst
