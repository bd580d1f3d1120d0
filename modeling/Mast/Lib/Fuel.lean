import Mathlib.Order.Defs.PartialOrder

/-!
# Computations with fuel

A loop or a recursion that need not end is a function of its fuel, which gives `none` when the fuel runs out. `Ends run result` says that it ends: with enough fuel, and with any more, it gives the result. With `Eventually run none` no fuel is enough.
-/

namespace Fuel

variable {α β : Type*} {run : Nat → Option α} {a a' : α} {b : β}

def Ends (run : Nat → Option α) (result : α) : Prop :=
  ∃ enough, ∀ fuel, enough ≤ fuel → run fuel = some result

theorem ends_some (a : α) : Ends (fun _ => some a) a :=
  ⟨0, fun _ _ => rfl⟩

/-- With enough fuel, and with any more, the outcome is the same: a result, or none at all. -/
def Eventually (run : Nat → Option α) (outcome : Option α) : Prop :=
  ∃ enough, ∀ fuel, enough ≤ fuel → run fuel = outcome

theorem Eventually.unique {outcome outcome' : Option α} (hrun : Eventually run outcome)
    (hrun' : Eventually run outcome') : outcome = outcome' := by
  obtain ⟨enough, hrun⟩ := hrun
  obtain ⟨enough', hrun'⟩ := hrun'
  exact (hrun (max enough enough') (Nat.le_max_left _ _)).symm.trans (hrun' _ (Nat.le_max_right _ _))

theorem Ends.unique (ha : Ends run a) (ha' : Ends run a') : a = a' :=
  Option.some.inj (Eventually.unique ha ha')

theorem Eventually.congr {run' : Nat → Option α} {outcome : Option α} (hrun : Eventually run outcome)
    (hsame : ∀ fuel, run' fuel = run fuel) : Eventually run' outcome := by
  obtain ⟨enough, hrun⟩ := hrun
  exact ⟨enough, fun fuel hfuel => (hsame fuel).trans (hrun fuel hfuel)⟩

theorem Eventually.bind {g : α → Nat → Option β} {outcome : Option β} (hrun : Ends run a)
    (hnext : Eventually (g a) outcome) :
    Eventually (fun fuel => (run fuel).bind fun a => g a fuel) outcome := by
  obtain ⟨enough, hrun⟩ := hrun
  obtain ⟨enough', hnext⟩ := hnext
  refine ⟨max enough enough', fun fuel hfuel => ?_⟩
  change (run fuel).bind _ = _
  rw [hrun fuel (Nat.le_trans (Nat.le_max_left _ _) hfuel)]
  exact hnext fuel (Nat.le_trans (Nat.le_max_right _ _) hfuel)

/-- What follows a computation that never ends is not reached. -/
theorem Eventually.bind_none {g : α → Nat → Option β} (hrun : Eventually run none) :
    Eventually (fun fuel => (run fuel).bind fun a => g a fuel) none := by
  obtain ⟨enough, hrun⟩ := hrun
  refine ⟨enough, fun fuel hfuel => ?_⟩
  change (run fuel).bind _ = _
  rw [hrun fuel hfuel]
  rfl

theorem Eventually.succ {outcome : Option α} (hrest : Eventually (fun fuel => run (fuel + 1)) outcome) :
    Eventually run outcome := by
  obtain ⟨enough, hrest⟩ := hrest
  refine ⟨enough + 1, fun fuel hfuel => ?_⟩
  obtain ⟨rest, rfl⟩ := Nat.exists_eq_add_of_le' hfuel
  exact hrest (rest + enough) (Nat.le_add_left _ _)

theorem Ends.succ (hrest : Ends (fun fuel => run (fuel + 1)) a) : Ends run a :=
  Eventually.succ hrest

theorem Ends.bind {g : α → Nat → Option β} (hrun : Ends run a) (hnext : Ends (g a) b) :
    Ends (fun fuel => (run fuel).bind fun a => g a fuel) b :=
  Eventually.bind hrun hnext

theorem Ends.congr {run' : Nat → Option α} (hrun : Ends run a)
    (hsame : ∀ fuel, run' fuel = run fuel) : Ends run' a :=
  Eventually.congr hrun hsame

/-! ### Failures -/

theorem run_bind_eq_some_iff {ε α β : Type} {x : ExceptT ε Option α} {f : α → ExceptT ε Option β}
    {result : Except ε β} :
    (x >>= f).run = some result ↔
      (∃ e, x.run = some (.error e) ∧ result = .error e) ∨
        ∃ a, x.run = some (.ok a) ∧ (f a).run = some result := by
  change ExceptT.run (ExceptT.bind x f) = _ ↔ _
  rcases hx : x.run with _ | ⟨e | a⟩
  · have hx : x = none := hx
    subst hx
    simp [ExceptT.bind, ExceptT.mk, ExceptT.run]
  · have hx : x = some (.error e) := hx
    subst hx
    change some (Except.error e) = some result ↔ _
    simp [eq_comm]
  · have hx : x = some (.ok a) := hx
    subst hx
    change (f a).run = some result ↔ _
    simp

theorem exists_run_bind {ε α β : Type} {x : ExceptT ε Option α} {f : α → ExceptT ε Option β}
    {result : Except ε α} (hx : x.run = some result)
    (hf : ∀ a, result = .ok a → ∃ result', (f a).run = some result') :
    ∃ result', (x >>= f).run = some result' := by
  cases result with
  | error e => exact ⟨.error e, run_bind_eq_some_iff.mpr (.inl ⟨e, hx, rfl⟩)⟩
  | ok a =>
    obtain ⟨result', hresult⟩ := hf a rfl
    exact ⟨result', run_bind_eq_some_iff.mpr (.inr ⟨a, hx, hresult⟩)⟩

theorem isSome_run_bind {ε α β : Type} {x : ExceptT ε Option α} {f : α → ExceptT ε Option β}
    (hx : x.run.isSome = true) (hf : ∀ a, (f a).run.isSome = true) :
    (x >>= f).run.isSome = true := by
  obtain ⟨result, hresult⟩ := Option.isSome_iff_exists.mp hx
  exact Option.isSome_iff_exists.mpr
    (exists_run_bind hresult fun a _ => Option.isSome_iff_exists.mp (hf a))

/-- The computation ends. It gives the value under the condition, and otherwise it fails as it may. -/
structure Delivers {ε α : Type} (mayFail : ε → Prop) (x : Nat → ExceptT ε Option α) (p : Prop)
    (a : α) : Prop where
  gives : p → Ends (fun fuel => (x fuel).run) (.ok a)
  fails : ¬p → ∃ e, mayFail e ∧ Ends (fun fuel => (x fuel).run) (.error e)

section Delivers

variable {ε α β : Type} {mayFail : ε → Prop} {x : Nat → ExceptT ε Option α} {a : α} {b : β}
  {p q : Prop}

theorem delivers_pure (a : α) :
    Delivers mayFail (fun _ => (pure a : ExceptT ε Option α)) True a :=
  ⟨fun _ => ends_some _, fun hnot => absurd trivial hnot⟩

theorem delivers_throw {e : ε} (hfault : mayFail e) (a : α) :
    Delivers mayFail (fun _ => (throw e : ExceptT ε Option α)) False a :=
  ⟨False.elim, fun _ => ⟨e, hfault, ends_some _⟩⟩

theorem Delivers.bind {g : α → Nat → ExceptT ε Option β} (hx : Delivers mayFail x p a)
    (hnext : p → Delivers mayFail (g a) q b) :
    Delivers mayFail (fun fuel => x fuel >>= fun a => g a fuel) (p ∧ q) b := by
  have hends {result : Except ε β} (hp : p) (hresult : Ends (fun fuel => (g a fuel).run) result) :
      Ends (fun fuel => (x fuel >>= fun a => g a fuel).run) result := by
    obtain ⟨enough, hx⟩ := hx.gives hp
    obtain ⟨enough', hresult⟩ := hresult
    refine ⟨max enough enough', fun fuel hfuel => run_bind_eq_some_iff.mpr (.inr ⟨a, ?_, ?_⟩)⟩
    · exact hx fuel (Nat.le_trans (Nat.le_max_left _ _) hfuel)
    · exact hresult fuel (Nat.le_trans (Nat.le_max_right _ _) hfuel)
  constructor
  · intro hboth
    exact hends hboth.1 ((hnext hboth.1).gives hboth.2)
  · intro hnot
    by_cases hp : p
    · obtain ⟨e, hfault, hresult⟩ := (hnext hp).fails fun hq => hnot ⟨hp, hq⟩
      exact ⟨e, hfault, hends hp hresult⟩
    · obtain ⟨e, hfault, enough, hx⟩ := hx.fails hp
      exact ⟨e, hfault, enough, fun fuel hfuel =>
        run_bind_eq_some_iff.mpr (.inl ⟨e, hx fuel hfuel, rfl⟩)⟩

theorem Delivers.of_iff (hx : Delivers mayFail x p a) (hiff : p ↔ q) :
    Delivers mayFail x q a := by
  rwa [← propext hiff]

theorem Delivers.congr {x' : Nat → ExceptT ε Option α} (hx : Delivers mayFail x p a)
    (hsame : ∀ fuel, x' fuel = x fuel) : Delivers mayFail x' p a := by
  have heq : x' = x := funext hsame
  rwa [heq]

theorem Delivers.ends (hx : Delivers mayFail x p a) :
    ∃ result, Ends (fun fuel => (x fuel).run) result ∧
      (p ∧ result = .ok a ∨ ¬p ∧ ∃ e, mayFail e ∧ result = .error e) := by
  by_cases hp : p
  · exact ⟨.ok a, hx.gives hp, .inl ⟨hp, rfl⟩⟩
  · obtain ⟨e, hfault, hends⟩ := hx.fails hp
    exact ⟨.error e, hends, .inr ⟨hp, e, hfault, rfl⟩⟩

end Delivers

end Fuel
