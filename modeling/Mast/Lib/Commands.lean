import Mathlib.Tactic.TypeStar

/-!
# Commands that keep what they did when they throw

A command of `EStateM` ends with a value or an exception, and in both cases with a state. `Yields x s post` says how the command `x` ends from the state `s`; the rules follow the shape of the command.
-/

namespace Commands

universe u

variable {ε σ α β : Type u}

/-- What the command ends with, value or exception, and the state it leaves satisfy `post`. -/
def Yields (x : EStateM ε σ α) (s : σ) (post : Except ε α → σ → Prop) : Prop :=
  match x.run s with
  | .ok a s' => post (.ok a) s'
  | .error e s' => post (.error e) s'

variable {x : EStateM ε σ α} {f : α → EStateM ε σ β} {s : σ}

theorem Yields.of_ok {a : α} {s' : σ} {post : Except ε α → σ → Prop} (hx : Yields x s post)
    (hrun : x.run s = .ok a s') : post (.ok a) s' := by
  unfold Yields at hx
  rwa [hrun] at hx

theorem Yields.of_error {e : ε} {s' : σ} {post : Except ε α → σ → Prop} (hx : Yields x s post)
    (hrun : x.run s = .error e s') : post (.error e) s' := by
  unfold Yields at hx
  rwa [hrun] at hx

theorem Yields.mono {post post' : Except ε α → σ → Prop} (hx : Yields x s post)
    (himp : ∀ result s', post result s' → post' result s') : Yields x s post' := by
  unfold Yields at hx ⊢
  split at hx
  · exact himp _ _ hx
  · exact himp _ _ hx

theorem Yields.pure {a : α} {post : Except ε α → σ → Prop} (hpost : post (.ok a) s) :
    Yields (pure a) s post := hpost

theorem Yields.throw {e : ε} {post : Except ε α → σ → Prop} (hpost : post (.error e) s) :
    Yields (throw e) s post := hpost

theorem Yields.get {post : Except ε σ → σ → Prop} (hpost : post (.ok s) s) :
    Yields (MonadState.get : EStateM ε σ σ) s post := hpost

theorem Yields.set {s' : σ} {post : Except ε PUnit → σ → Prop} (hpost : post (.ok ⟨⟩) s') :
    Yields (MonadStateOf.set s' : EStateM ε σ PUnit) s post := hpost

theorem Yields.bind {post : Except ε β → σ → Prop}
    (hx : Yields x s fun result s' =>
      match result with
      | .ok a => Yields (f a) s' post
      | .error e => post (.error e) s') :
    Yields (x >>= f) s post := by
  unfold Yields at hx ⊢
  rw [EStateM.run_bind]
  cases hrun : x.run s with
  | ok a s' =>
    rw [hrun] at hx
    exact hx
  | error e s' =>
    rw [hrun] at hx
    exact hx

theorem Yields.ite {c : Prop} [Decidable c] {y : EStateM ε σ α} {post : Except ε α → σ → Prop}
    (hx : c → Yields x s post) (hy : ¬c → Yields y s post) :
    Yields (if c then x else y) s post := by
  by_cases h : c
  · rw [if_pos h]
    exact hx h
  · rw [if_neg h]
    exact hy h

end Commands
