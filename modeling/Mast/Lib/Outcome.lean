import Mathlib.Order.Defs.Unbundled

/-!
# Outcomes of computations that may fail

A computation that changes a state and may fail is a function to `Except`. `Keeps R s x` says that when `x` succeeds, the state it ends in is related to `s`. For a reflexive and transitive relation the rules below follow the shape of the computation, so that what a step can do to the state is proved once for each step and composed for the whole.
-/

namespace Outcome

universe u

variable {ε : Type*} {α β σ : Type u} {R : σ → σ → Prop}

theorem bind_eq_ok {x : Except ε α} {f : α → Except ε β} {b : β} :
    x >>= f = .ok b ↔ ∃ a, x = .ok a ∧ f a = .ok b := by
  cases x with
  | error e => simp [bind, Except.bind]
  | ok a => simp [bind, Except.bind]

theorem map_eq_ok {x : Except ε α} {f : α → β} {b : β} :
    x.map f = .ok b ↔ ∃ a, x = .ok a ∧ f a = b := by
  cases x with
  | error e => simp [Except.map]
  | ok a => simp [Except.map]

/-- If the computation succeeds, it ends in a state related to the given one. -/
def Keeps (R : σ → σ → Prop) (s : σ) (x : Except ε σ) : Prop := ∀ s', x = .ok s' → R s s'

theorem Keeps.ok {s s' : σ} (hrel : R s s') : Keeps R s (.ok s' : Except ε σ) := by
  intro t ht
  rwa [← Except.ok.inj ht]

theorem Keeps.error {s : σ} (e : ε) : Keeps R s (.error e) := by
  intro t ht
  cases ht

theorem Keeps.read {s : σ} {x : Except ε α} {f : α → Except ε σ}
    (hrest : ∀ a, x = .ok a → Keeps R s (f a)) : Keeps R s (x >>= f) := by
  intro t ht
  obtain ⟨a, ha, hf⟩ := bind_eq_ok.mp ht
  exact hrest a ha t hf

theorem Keeps.bind [IsTrans σ R] {s : σ} {x : Except ε σ} {f : σ → Except ε σ} (hx : Keeps R s x)
    (hrest : ∀ s', x = .ok s' → Keeps R s' (f s')) : Keeps R s (x >>= f) := by
  intro t ht
  obtain ⟨s', hs', hf⟩ := bind_eq_ok.mp ht
  exact IsTrans.trans _ _ _ (hx s' hs') (hrest s' hs' t hf)

theorem Keeps.foldlM [IsTrans σ R] (hrefl : ∀ s, R s s) {f : σ → α → Except ε σ}
    (hstep : ∀ s a, Keeps R s (f s a)) (values : List α) (s : σ) :
    Keeps R s (values.foldlM f s) := by
  induction values generalizing s with
  | nil => exact Keeps.ok (hrefl s)
  | cons a rest ih => exact Keeps.bind (hstep s a) fun s' _ => ih s'

theorem Keeps.ite {s : σ} {c : Prop} [Decidable c] {x y : Except ε σ} (hx : c → Keeps R s x)
    (hy : ¬c → Keeps R s y) : Keeps R s (if c then x else y) := by
  by_cases h : c
  · rw [if_pos h]
    exact hx h
  · rw [if_neg h]
    exact hy h

end Outcome
