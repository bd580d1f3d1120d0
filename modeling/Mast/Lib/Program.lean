import Mast.Lib.Fuel
import Mathlib.Data.List.Forall2
import Mathlib.Order.Defs.Unbundled

/-!
# Programs with a state, failures and fuel

A program reads and changes a state, may fail, and may need any amount of fuel, or never end. `Yields x s post failed` says of the program `x` from the state `s` that what it returns and leaves satisfies `post`, unless it fails with an error, or never ends, as `failed` allows. A program `Meets` a postcondition when it ends, and it is decided by a condition when it ends exactly under this condition, or fails. The rules follow the shape of the program; those for lists carry what holds after the first elements.
-/

namespace Program

open Fuel

variable {σ ε α β : Type}

/-- What a program is for one amount of fuel; `none` is for too little of it. -/
abbrev Step (σ ε α : Type) := StateT σ (ExceptT ε Option) α

def run (x : Nat → Step σ ε α) (s : σ) (fuel : Nat) : Option (Except ε (α × σ)) :=
  x fuel s

/-- What may come of a program: a result, an error, or nothing when it never ends. -/
def Allowed (post : α → σ → Prop) (failed : Option ε → Prop) :
    Option (Except ε (α × σ)) → Prop
  | none => failed none
  | some (.error e) => failed (some e)
  | some (.ok (a, s)) => post a s

def Yields (x : Nat → Step σ ε α) (s : σ) (post : α → σ → Prop) (failed : Option ε → Prop) : Prop :=
  ∃ outcome, Eventually (run x s) outcome ∧ Allowed post failed outcome

/-- The program ends, and unless it fails it satisfies `post`. -/
abbrev Meets (x : Nat → Step σ ε α) (s : σ) (post : α → σ → Prop) : Prop :=
  Yields x s post fun outcome => outcome ≠ none

/-- Unless it fails, the program ends exactly under the condition, and then it satisfies `post`. -/
def Decides (x : Nat → Step σ ε α) (s : σ) (condition : Prop) (post : α → σ → Prop) : Prop :=
  Yields x s (fun a s' => condition ∧ post a s') fun outcome => outcome = none → ¬condition

variable {x : Nat → Step σ ε α} {f : Nat → α → Step σ ε β} {s : σ}

/-! ### What it yields -/

private def following (f : Nat → α → Step σ ε β) (result : Except ε (α × σ)) (fuel : Nat) :
    Option (Except ε (β × σ)) :=
  match result with
  | .error e => some (.error e)
  | .ok (a, s) => run (fun fuel => f fuel a) s fuel

private theorem run_bind (fuel : Nat) : run (fun fuel => x fuel >>= f fuel) s fuel =
    (run x s fuel).bind fun result => following f result fuel := by
  change ExceptT.bind (x fuel s) (fun p => f fuel p.1 p.2) = Option.bind (x fuel s) _
  cases (x fuel s : Option (Except ε (α × σ))) with
  | none => rfl
  | some result =>
    cases result with
    | error e => rfl
    | ok p => rfl

section Failures

variable {post : α → σ → Prop} {failed : Option ε → Prop}

theorem Yields.mono {post' : α → σ → Prop} {failed' : Option ε → Prop} (hx : Yields x s post failed)
    (himp : ∀ a s', post a s' → post' a s') (hfailed : ∀ e, failed e → failed' e) :
    Yields x s post' failed' := by
  obtain ⟨outcome, hrun, hallowed⟩ := hx
  refine ⟨outcome, hrun, ?_⟩
  match outcome, hallowed with
  | none, hallowed => exact hfailed none hallowed
  | some (.error e), hallowed => exact hfailed (some e) hallowed
  | some (.ok (a, s')), hallowed => exact himp a s' hallowed

theorem Yields.pure {a : α} (hpost : post a s) :
    Yields (fun _ => (Pure.pure a : Step σ ε α)) s post failed :=
  ⟨some (.ok (a, s)), ends_some _, hpost⟩

theorem Yields.throw {e : ε} (hfailed : failed (some e)) :
    Yields (fun _ => (throw e : Step σ ε α)) s post failed :=
  ⟨some (.error e), ends_some _, hfailed⟩

theorem Yields.never (hfailed : failed none) :
    Yields (fun _ => ((fun _ => (none : Option _)) : Step σ ε α)) s post failed :=
  ⟨none, ⟨0, fun _ _ => rfl⟩, hfailed⟩

theorem Yields.bind {Q : α → σ → Prop} {post : β → σ → Prop} (hx : Yields x s Q failed)
    (hf : ∀ a s', Q a s' → Yields (fun fuel => f fuel a) s' post failed) :
    Yields (fun fuel => x fuel >>= f fuel) s post failed := by
  obtain ⟨outcome, hrun, hallowed⟩ := hx
  match outcome, hallowed with
  | none, hallowed =>
    exact ⟨none, (Eventually.bind_none (g := following f) hrun).congr run_bind, hallowed⟩
  | some (.error e), hallowed =>
    have hrest : Eventually (following f (.error e)) (some (.error e)) := ends_some _
    exact ⟨some (.error e), (Eventually.bind (g := following f) hrun hrest).congr run_bind, hallowed⟩
  | some (.ok (a, s')), hallowed =>
    obtain ⟨outcome, hrest, hpost⟩ := hf a s' hallowed
    exact ⟨outcome, (Eventually.bind (g := following f) hrun hrest).congr run_bind, hpost⟩

theorem Yields.next {post : β → σ → Prop} {a : α} {s' : σ}
    (hx : Yields x s (fun a' s'' => a' = a ∧ s'' = s') failed)
    (hf : Yields (fun fuel => f fuel a) s' post failed) :
    Yields (fun fuel => x fuel >>= f fuel) s post failed := by
  refine Yields.bind hx ?_
  rintro a' s'' ⟨ha, hs⟩
  rw [ha, hs]
  exact hf

theorem Yields.succ (hx : Yields (fun fuel => x (fuel + 1)) s post failed) :
    Yields x s post failed := by
  obtain ⟨outcome, hrun, hallowed⟩ := hx
  exact ⟨outcome, Eventually.succ hrun, hallowed⟩

theorem Yields.get {g : Nat → σ → Step σ ε α} (hrest : Yields (fun fuel => g fuel s) s post failed) :
    Yields (fun fuel => (MonadState.get : Step σ ε σ) >>= g fuel) s post failed := by
  obtain ⟨outcome, hrun, hallowed⟩ := hrest
  exact ⟨outcome, hrun, hallowed⟩

theorem Yields.set {post : PUnit → σ → Prop} {s' : σ} (hpost : post ⟨⟩ s') :
    Yields (fun _ => (MonadStateOf.set s' : Step σ ε PUnit)) s post failed :=
  Yields.pure (s := s') hpost

theorem Yields.modifies {post : PUnit → σ → Prop} {f : σ → σ} (hpost : post ⟨⟩ (f s)) :
    Yields (fun _ => (modify f : Step σ ε PUnit)) s post failed :=
  Yields.pure (s := f s) hpost

/-- A loop over the numbers below a bound, by an invariant. -/
theorem Yields.forM_range {g : Nat → Nat → Step σ ε PUnit} {n : Nat} (inv : Nat → σ → Prop)
    (hstart : inv 0 s) (hround : ∀ i < n, ∀ s', inv i s' →
      Yields (fun fuel => g fuel i) s' (fun _ s'' => inv (i + 1) s'') failed) :
    Yields (fun fuel => (List.range n).forM (g fuel)) s (fun _ s' => inv n s') failed := by
  suffices hfrom : ∀ count i, i + count = n → ∀ s', inv i s' →
      Yields (fun fuel => (List.range' i count).forM (g fuel)) s' (fun _ s'' => inv n s'') failed by
    rw [List.range_eq_range']
    exact hfrom n 0 (Nat.zero_add n) s hstart
  intro count
  induction count with
  | zero =>
    intro i hi s' hs'
    rw [Nat.add_zero] at hi
    exact Yields.pure (hi ▸ hs')
  | succ count ih =>
    intro i hi s' hs'
    simp only [List.range'_succ]
    change Yields (fun fuel => g fuel i >>= fun _ => (List.range' (i + 1) count).forM (g fuel)) s' _ _
    exact Yields.bind (hround i (by omega) s' hs') fun _ s'' hs'' => ih (i + 1) (by omega) s'' hs''

end Failures

/-! ### What decides whether it ends -/

section Conditions

variable {p q : Prop} {post : α → σ → Prop}

theorem Decides.mono {post' : α → σ → Prop} (hx : Decides x s p post)
    (himp : ∀ a s', post a s' → post' a s') : Decides x s p post' :=
  Yields.mono hx (fun a s' h => ⟨h.1, himp a s' h.2⟩) fun _ h => h

theorem Decides.of_iff (hx : Decides x s p post) (hiff : p ↔ q) : Decides x s q post := by
  rwa [← propext hiff]

theorem Meets.decides (hx : Meets x s post) (hp : p) : Decides x s p post :=
  Yields.mono hx (fun _ _ h => ⟨hp, h⟩) fun _ h hnone => absurd hnone h

theorem Decides.pure {a : α} (hp : p) (hpost : post a s) :
    Decides (fun _ => (Pure.pure a : Step σ ε α)) s p post :=
  Yields.pure ⟨hp, hpost⟩

theorem Decides.throw {e : ε} : Decides (fun _ => (throw e : Step σ ε α)) s p post :=
  Yields.throw fun h => nomatch h

theorem Decides.bind {Q : α → σ → Prop} {post : β → σ → Prop} (hx : Decides x s p Q)
    (hf : ∀ a s', Q a s' → Decides (fun fuel => f fuel a) s' q post) :
    Decides (fun fuel => x fuel >>= f fuel) s (p ∧ q) post := by
  refine Yields.bind (Q := fun a s' => p ∧ Q a s') ?_ fun a s' h => ?_
  · exact Yields.mono hx (fun _ _ h => h) fun _ h hnone hboth => h hnone hboth.1
  · refine Yields.mono (hf a s' h.2) (fun _ _ h' => ⟨⟨h.1, h'.1⟩, h'.2⟩) fun _ h' hnone hboth => ?_
    exact h' hnone hboth.2

theorem Meets.before {Q : α → σ → Prop} {post : β → σ → Prop} (hx : Meets x s Q)
    (hf : ∀ a s', Q a s' → Decides (fun fuel => f fuel a) s' q post) :
    Decides (fun fuel => x fuel >>= f fuel) s q post :=
  ((hx.decides trivial).bind hf).of_iff (iff_of_eq (true_and q))

theorem Decides.next {post : β → σ → Prop} {a : α} {s' : σ}
    (hx : Meets x s fun a' s'' => a' = a ∧ s'' = s')
    (hf : Decides (fun fuel => f fuel a) s' q post) :
    Decides (fun fuel => x fuel >>= f fuel) s q post := by
  refine hx.before ?_
  rintro a' s'' ⟨ha, hs⟩
  rw [ha, hs]
  exact hf

theorem Decides.succ (hx : Decides (fun fuel => x (fuel + 1)) s p post) : Decides x s p post :=
  Yields.succ hx

theorem Decides.get {g : Nat → σ → Step σ ε α} (hrest : Decides (fun fuel => g fuel s) s p post) :
    Decides (fun fuel => (MonadState.get : Step σ ε σ) >>= g fuel) s p post :=
  Yields.get hrest

theorem Decides.set {post : PUnit → σ → Prop} {s' : σ} (hp : p) (hpost : post ⟨⟩ s') :
    Decides (fun _ => (MonadStateOf.set s' : Step σ ε PUnit)) s p post :=
  Yields.set ⟨hp, hpost⟩

theorem Decides.lift {y : Nat → ExceptT ε Option α} {outcome : Option (Except ε α)}
    (hrun : Eventually (fun fuel => (y fuel).run) outcome)
    (hok : ∀ a, outcome = some (.ok a) → p ∧ post a s) (hnever : outcome = none → ¬p) :
    Decides (fun fuel => (liftM (y fuel) : Step σ ε α)) s p post := by
  have hlift : ∀ fuel, run (fun fuel => (liftM (y fuel) : Step σ ε α)) s fuel =
      ((y fuel).run).map fun result => result.map fun a => (a, s) := by
    intro fuel
    change ExceptT.bind (y fuel) (fun a => ExceptT.pure (a, s)) = Option.map _ (y fuel).run
    change Option.bind (y fuel).run _ = _
    cases (y fuel).run with
    | none => rfl
    | some result =>
      cases result with
      | error e => rfl
      | ok a => rfl
  obtain ⟨enough, hrun⟩ := hrun
  refine ⟨outcome.map fun result => result.map fun a => (a, s), ⟨enough, fun fuel hfuel => ?_⟩, ?_⟩
  · have hresult : (y fuel).run = outcome := hrun fuel hfuel
    rw [hlift, hresult]
  · match outcome, hok, hnever with
    | none, _, hnever => exact fun _ => hnever rfl
    | some (.error e), _, _ => exact fun h => nomatch h
    | some (.ok a), hok, _ => exact hok a rfl

/-- What comes of the program: it fails, or it ends exactly under the condition. -/
theorem Decides.outcome (hx : Decides x s p post) :
    (∃ e, Ends (run x s) (.error e)) ∨
      (p ∧ ∃ a s', Ends (run x s) (.ok (a, s')) ∧ post a s') ∨
        (¬p ∧ ∀ result, ¬Ends (run x s) result) := by
  obtain ⟨outcome, hrun, hallowed⟩ := hx
  match outcome, hallowed with
  | none, hallowed =>
    refine .inr (.inr ⟨hallowed rfl, fun result hends => ?_⟩)
    cases hrun.unique hends
  | some (.error e), _ => exact .inl ⟨e, hrun⟩
  | some (.ok (a, s')), hallowed => exact .inr (.inl ⟨hallowed.1, a, s', hrun, hallowed.2⟩)

/-! ### Lists -/

/-- A program for each element of a list, each of which may need a condition: every one of them moves along the order, and what it establishes lasts. -/
theorem Decides.mapM {R : σ → σ → Prop} [IsPreorder σ R] {g : Nat → α → Step σ ε β}
    {P : α → β → σ → Prop} {condition : α → Prop} {as : List α}
    (hstep : ∀ a ∈ as, ∀ s', R s s' →
      Decides (fun fuel => g fuel a) s' (condition a) fun b s'' => R s' s'' ∧ P a b s'')
    (hlasts : ∀ a b s' s'', R s s' → R s' s'' → P a b s' → P a b s'') :
    Decides (fun fuel => as.mapM (g fuel)) s (∀ a ∈ as, condition a)
      fun bs s' => R s s' ∧ List.Forall₂ (P · · s') as bs := by
  suffices hfrom : ∀ s', R s s' → Decides (fun fuel => as.mapM (g fuel)) s' (∀ a ∈ as, condition a)
      fun bs s'' => R s' s'' ∧ List.Forall₂ (P · · s'') as bs from hfrom s (refl s)
  induction as with
  | nil =>
    intro s' _
    exact Decides.pure (fun _ ha => absurd ha List.not_mem_nil) ⟨refl s', .nil⟩
  | cons a as ih =>
    intro s' hs'
    simp only [List.mapM_cons]
    refine (Decides.bind (hstep a List.mem_cons_self s' hs') fun b s₁ hb => ?_).of_iff
      List.forall_mem_cons.symm
    have hs₁ := IsTrans.trans _ _ _ hs' hb.1
    refine ((ih (fun a' ha' => hstep a' (List.mem_cons_of_mem _ ha')) s₁ hs₁).bind
      fun bs s₂ hbs => ?_).of_iff (iff_of_eq (and_true _))
    have hlast := hlasts a b s₁ s₂ hs₁ hbs.1 hb.2
    exact Decides.pure trivial ⟨IsTrans.trans _ _ _ hb.1 hbs.1, .cons hlast hbs.2⟩

end Conditions

/-! ### Runs -/

theorem bind_run_none {x : Step σ ε α} {f : α → Step σ ε β} (hx : x s = none) :
    (x >>= f) s = none := by
  change ExceptT.bind (x s) (fun p => f p.1 p.2) = none
  rw [hx]
  rfl

theorem bind_run_ok {x : Step σ ε α} {f : α → Step σ ε β} {a : α} {s' : σ}
    (hx : x s = some (.ok (a, s'))) : (x >>= f) s = f a s' := by
  change ExceptT.bind (x s) (fun p => f p.1 p.2) = f a s'
  rw [hx]
  rfl

/-! ### More fuel -/

/-- The second program gives the results of the first one, and perhaps more. -/
def Below (x y : Step σ ε α) : Prop :=
  ∀ s (result : Except ε (α × σ)), x s = some result → y s = some result

theorem Below.refl (x : Step σ ε α) : Below x x := fun _ _ h => h

theorem Below.bind {x y : Step σ ε α} {f g : α → Step σ ε β} (hfirst : Below x y)
    (hnext : ∀ a, Below (f a) (g a)) : Below (x >>= f) (y >>= g) := by
  intro s result hrun
  replace hrun := (run_bind (x := fun _ => x) (f := fun _ => f) 0).symm.trans hrun
  obtain ⟨first, hx, hrest⟩ := Option.bind_eq_some_iff.mp hrun
  refine (run_bind (x := fun _ => y) (f := fun _ => g) 0).trans
    (Option.bind_eq_some_iff.mpr ⟨first, hfirst s first hx, ?_⟩)
  cases first with
  | error e => exact hrest
  | ok p => exact hnext p.1 p.2 result hrest

theorem Below.forM {f g : α → Step σ ε PUnit} (hall : ∀ a, Below (f a) (g a)) (as : List α) :
    Below (as.forM f) (as.forM g) := by
  induction as with
  | nil => exact Below.refl _
  | cons a as ih => exact Below.bind (hall a) fun _ => ih

/-- A program that keeps its results with more fuel ends when it gives one. -/
theorem ends_of_below (hbelow : ∀ fuel, Below (x fuel) (x (fuel + 1))) {fuel : Nat}
    {result : Except ε (α × σ)} (hrun : run x s fuel = some result) : Ends (run x s) result := by
  refine ⟨fuel, fun more hle => ?_⟩
  induction hle with
  | refl => exact hrun
  | step _ ih => exact hbelow _ s result ih

end Program
