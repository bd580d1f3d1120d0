import Mathlib.Data.List.Nodup
import Mathlib.Data.Option.Basic

/-!
# Paths that end

The paths of a deterministic step relation, some of whose steps have a label. Where a path that ends can go on in one way only, its labels are determined by its start; and where a label determines what follows it, no label is passed twice.
-/

namespace EndingPaths

variable {α β : Type*} {step : α → Option β → α → Prop} {stop : α → Prop} {a : α} {L L' : List β}

/-- A path from a state to one where paths stop, with the labels it passes. -/
inductive Path (step : α → Option β → α → Prop) (stop : α → Prop) : α → List β → Prop
  | stop {a : α} (hstop : stop a) : Path step stop a []
  | step {a b : α} {label : Option β} {L : List β} (hstep : step a label b)
      (hrest : Path step stop b L) : Path step stop a (label.toList ++ L)

/-- There is one way to go on, and none where paths stop. -/
structure Deterministic (step : α → Option β → α → Prop) (stop : α → Prop) : Prop where
  unique : ∀ {a b b' : α} {label label' : Option β}, step a label b → step a label' b' →
    label = label' ∧ b = b'
  stops : ∀ {a b : α} {label : Option β}, stop a → ¬step a label b

theorem Path.unique (hdet : Deterministic step stop) (hpath : Path step stop a L)
    (hpath' : Path step stop a L') : L = L' := by
  induction hpath generalizing L' with
  | stop hstop =>
    cases hpath' with
    | stop _ => rfl
    | step hstep _ => exact absurd hstep (hdet.stops hstop)
  | step hstep _ ih =>
    cases hpath' with
    | stop hstop => exact absurd hstep (hdet.stops hstop)
    | step hstep' hrest' =>
      obtain ⟨rfl, rfl⟩ := hdet.unique hstep hstep'
      rw [ih hrest']

theorem Path.suffix {x : β} {before after : List β} (hpath : Path step stop a L)
    (hlabels : L = before ++ x :: after) : ∃ b c, step b (some x) c ∧ Path step stop c after := by
  induction hpath generalizing before with
  | stop _ => simp at hlabels
  | @step b c label rest hstep hrest ih =>
    cases label with
    | none => exact ih hlabels
    | some y =>
      cases before with
      | nil =>
        obtain ⟨rfl, rfl⟩ := List.cons.inj hlabels
        exact ⟨b, c, hstep, hrest⟩
      | cons z before => exact ih (List.cons.inj hlabels).2

theorem Path.nodup (hdet : Deterministic step stop)
    (hlabel : ∀ {a a' b b' : α} {x : β}, step a (some x) b → step a' (some x) b' → b = b')
    (hpath : Path step stop a L) : L.Nodup := by
  induction hpath with
  | stop _ => exact List.nodup_nil
  | @step b c label rest hstep hrest ih =>
    cases label with
    | none => exact ih
    | some x =>
      refine List.nodup_cons.mpr ⟨fun hmem => ?_, ih⟩
      -- the path would go on after the second passage as after the first
      obtain ⟨before, after, rfl⟩ := List.append_of_mem hmem
      obtain ⟨b', c', hstep', hagain⟩ := hrest.suffix rfl
      obtain rfl := hlabel hstep hstep'
      have hlength := congrArg List.length (hrest.unique hdet hagain)
      simp only [List.length_append, List.length_cons] at hlength
      omega

end EndingPaths
