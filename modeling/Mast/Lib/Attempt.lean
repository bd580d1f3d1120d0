import Mast.Lib.Outcome

/-!
# Loops that stop halfway

A loop of updates that throws leaves the updates before the throwing one done. `attempt` keeps the state together with the fault; dropping the state of a loop that throws gives back the fold in `Except`.
-/

universe u

/-- The state that a computation leaves, and the fault that has stopped it. -/
structure Attempt (ε σ : Type u) where
  state : σ
  fault : Option ε

namespace Attempt

variable {ε σ τ : Type u} {α : Type*}

/-- What is known of the computation when a fault takes its state away. -/
def toExcept (x : Attempt ε σ) : Except ε σ := x.fault.elim (.ok x.state) .error

def map (f : σ → τ) (x : Attempt ε σ) : Attempt ε τ := ⟨f x.state, x.fault⟩

@[simp] theorem map_state (f : σ → τ) (x : Attempt ε σ) : (x.map f).state = f x.state := rfl

@[simp] theorem map_fault (f : σ → τ) (x : Attempt ε σ) : (x.map f).fault = x.fault := rfl

theorem toExcept_map (f : σ → τ) (x : Attempt ε σ) : (x.map f).toExcept = x.toExcept.map f := by
  unfold toExcept map
  cases x.fault with
  | none => rfl
  | some fault => rfl

/-- Updates are made one after the other until one throws, which leaves the state alone. -/
def attempt (update : α → σ → Except ε σ) : List α → σ → Attempt ε σ
  | [], s => ⟨s, none⟩
  | a :: rest, s =>
    match update a s with
    | .ok s' => attempt update rest s'
    | .error fault => ⟨s, some fault⟩

variable {update : α → σ → Except ε σ} {a : α} {rest : List α} {s s' : σ}

theorem attempt_ok (hupdate : update a s = .ok s') :
    attempt update (a :: rest) s = attempt update rest s' := by
  rw [attempt, hupdate]

theorem attempt_error {fault : ε} (hupdate : update a s = .error fault) :
    attempt update (a :: rest) s = ⟨s, some fault⟩ := by
  rw [attempt, hupdate]

theorem attempt_toExcept (update : α → σ → Except ε σ) (as : List α) (s : σ) :
    (attempt update as s).toExcept = as.foldlM (fun s a => update a s) s := by
  induction as generalizing s with
  | nil => rfl
  | cons a rest ih =>
    rw [List.foldlM_cons]
    cases hupdate : update a s with
    | ok s' =>
      rw [attempt_ok hupdate]
      exact ih s'
    | error fault =>
      rw [attempt_error hupdate]
      rfl

theorem attempt_keeps {as : List α} {P : σ → Prop}
    (hkeeps : ∀ a ∈ as, ∀ {s s'}, update a s = .ok s' → P s → P s') (hs : P s) :
    P (attempt update as s).state := by
  induction as generalizing s with
  | nil => exact hs
  | cons a rest ih =>
    cases hupdate : update a s with
    | ok s' =>
      rw [attempt_ok hupdate]
      exact ih (fun a ha => hkeeps a (List.mem_cons_of_mem _ ha))
        (hkeeps a List.mem_cons_self hupdate hs)
    | error fault =>
      rw [attempt_error hupdate]
      exact hs

end Attempt
