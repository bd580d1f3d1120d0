import Mathlib.Data.List.Induction
import Mathlib.Tactic.TypeStar

/-!
# Runs of a labelled step relation

A run performs the steps of a list of labels in order. What every step preserves, a whole run preserves; the rules below also let a step rely on a condition on its label, and let an invariant say something about every label of a run.
-/

namespace Runs

variable {σ ℓ : Type*} {step : σ → ℓ → σ → Prop}

inductive Run (step : σ → ℓ → σ → Prop) : σ → List ℓ → σ → Prop
  | nil (s : σ) : Run step s [] s
  | cons {s s' s'' : σ} {l : ℓ} {ls : List ℓ} (hstep : step s l s') (hrun : Run step s' ls s'') :
      Run step s (l :: ls) s''

theorem Run.append {s s' s'' : σ} {ls ls' : List ℓ} (h : Run step s ls s')
    (h' : Run step s' ls' s'') : Run step s (ls ++ ls') s'' := by
  induction h with
  | nil => exact h'
  | cons hstep _ ih => exact .cons hstep (ih h')

theorem Run.of_foldlM {next : σ → ℓ → Option σ} {s s' : σ} {ls : List ℓ}
    (h : ls.foldlM next s = some s') : Run (fun s l s' => next s l = some s') s ls s' := by
  induction ls generalizing s with
  | nil =>
    obtain rfl := Option.some.inj h
    exact .nil _
  | cons l ls ih =>
    obtain ⟨s'', hstep, hrest⟩ := Option.bind_eq_some_iff.mp h
    exact .cons hstep (ih hrest)

/-- An invariant that is preserved by the steps whose labels meet a condition. -/
theorem Run.invariant {I : σ → Prop} {C : ℓ → Prop}
    (hpreserved : ∀ s l s', I s → C l → step s l s' → I s') {s s' : σ} {ls : List ℓ}
    (hrun : Run step s ls s') (hs : I s) (hlabels : ∀ l ∈ ls, C l) : I s' := by
  induction hrun with
  | nil => exact hs
  | cons hstep _ ih =>
    have hfirst := hpreserved _ _ _ hs (hlabels _ List.mem_cons_self) hstep
    exact ih hfirst fun l hl => hlabels l (List.mem_cons_of_mem _ hl)

/-- What an invariant implies for the label of the next step holds of every label of a run. -/
theorem Run.forall_labels {I : σ → Prop} {P : ℓ → Prop}
    (hpreserved : ∀ s l s', I s → step s l s' → I s') (hlabel : ∀ s l s', I s → step s l s' → P l)
    {s s' : σ} {ls : List ℓ} (hrun : Run step s ls s') (hs : I s) : ∀ l ∈ ls, P l := by
  induction hrun with
  | nil => intro l hl; cases hl
  | cons hstep _ ih =>
    intro l hl
    rcases List.mem_cons.mp hl with rfl | hl
    · exact hlabel _ _ _ hs hstep
    · exact ih (hpreserved _ _ _ hs hstep) l hl

/-! ### Runs of a function -/

/-- When a step of a function keeps an invariant exactly if it meets a condition, the invariant holds all along a run exactly if every step of the run meets the condition. -/
theorem forall_foldl_iff {f : σ → ℓ → σ} {I : σ → Prop} {C : σ → ℓ → Prop}
    (hstep : ∀ s l, I s → (I (f s l) ↔ C s l)) {s : σ} (hs : I s) (labels : List ℓ) :
    (∀ ls, ls <+: labels → I (ls.foldl f s)) ↔
      ∀ ls l, ls ++ [l] <+: labels → C (ls.foldl f s) l := by
  constructor
  · intro hall ls l hls
    have hbefore := hall ls ((List.prefix_append ls [l]).trans hls)
    have hafter := hall (ls ++ [l]) hls
    rw [List.foldl_append] at hafter
    exact (hstep _ l hbefore).mp hafter
  · intro hsteps ls
    induction ls using List.reverseRecOn with
    | nil => exact fun _ => hs
    | append_singleton ls l ih =>
      intro hls
      have hbefore := ih ((List.prefix_append ls [l]).trans hls)
      rw [List.foldl_append]
      exact (hstep _ l hbefore).mpr (hsteps ls l hls)

end Runs
