import Mathlib.Tactic.TypeStar

/-!
# Terms that refer to one another

A graph of terms is given by what each node looks like: a value, a failure, a link to another node, or an operation on two nodes. Definitions that name one another form such a graph, and so do expressions in memory that point at one another. A node denotes the value that unfolding gives, if it gives one; it settles when unfolding comes to an end, with a value or with a failure, operands being read from left to right. It unfolds when that comes to an end with every operand read, as it is when the term is printed.

All of this depends only on the shape of what is reached, so two graphs that can be matched node by node agree on it.
-/

namespace TermGraph

variable {κ κ' ν : Type*}

inductive Shape (κ ν : Type*)
  | value (v : ν)
  | fails
  | link (target : κ)
  | apply (operation : ν → ν → Option ν) (left right : κ)

variable (view : κ → Shape κ ν)

inductive Denotes : κ → ν → Prop
  | value {k : κ} {v : ν} (hview : view k = .value v) : Denotes k v
  | link {k k' : κ} {v : ν} (hview : view k = .link k') (htarget : Denotes k' v) : Denotes k v
  | apply {k l r : κ} {operation : ν → ν → Option ν} {v w u : ν}
      (hview : view k = .apply operation l r) (hleft : Denotes l v) (hright : Denotes r w)
      (hresult : operation v w = some u) : Denotes k u

/-- Unfolding ends. The right operand is only read when the left one has a value. -/
inductive Settles : κ → Prop
  | value {k : κ} {v : ν} (hview : view k = .value v) : Settles k
  | fails {k : κ} (hview : view k = .fails) : Settles k
  | link {k k' : κ} (hview : view k = .link k') (htarget : Settles k') : Settles k
  | apply {k l r : κ} {operation : ν → ν → Option ν} (hview : view k = .apply operation l r)
      (hleft : Settles l) (hright : ∀ v, Denotes view l v → Settles r) : Settles k

/-- Unfolding ends with every operand read. -/
inductive Unfolds : κ → Prop
  | value {k : κ} {v : ν} (hview : view k = .value v) : Unfolds k
  | fails {k : κ} (hview : view k = .fails) : Unfolds k
  | link {k k' : κ} (hview : view k = .link k') (htarget : Unfolds k') : Unfolds k
  | apply {k l r : κ} {operation : ν → ν → Option ν} (hview : view k = .apply operation l r)
      (hleft : Unfolds l) (hright : Unfolds r) : Unfolds k

variable {view} {view' : κ' → Shape κ' ν}

theorem Denotes.unique {k : κ} {v w : ν} (hv : Denotes view k v) (hw : Denotes view k w) :
    v = w := by
  induction hv generalizing w with
  | value hview =>
    cases hw with
    | value hview' => exact Shape.value.inj (hview.symm.trans hview')
    | link hview' => cases hview.symm.trans hview'
    | apply hview' => cases hview.symm.trans hview'
  | link hview _ ih =>
    cases hw with
    | value hview' => cases hview.symm.trans hview'
    | link hview' htarget =>
      cases Shape.link.inj (hview.symm.trans hview')
      exact ih htarget
    | apply hview' => cases hview.symm.trans hview'
  | apply hview _ _ hresult ihleft ihright =>
    cases hw with
    | value hview' => cases hview.symm.trans hview'
    | link hview' => cases hview.symm.trans hview'
    | apply hview' hleft hright hresult' =>
      obtain ⟨rfl, rfl, rfl⟩ := Shape.apply.inj (hview.symm.trans hview')
      cases ihleft hleft
      cases ihright hright
      exact Option.some.inj (hresult.symm.trans hresult')

theorem denotes_value_iff {k : κ} {v w : ν} (hview : view k = .value v) :
    Denotes view k w ↔ w = v := by
  constructor
  · intro hk
    exact hk.unique (.value hview)
  · rintro rfl
    exact .value hview

theorem denotes_link_iff {k k' : κ} {v : ν} (hview : view k = .link k') :
    Denotes view k v ↔ Denotes view k' v := by
  constructor
  · intro hk
    cases hk with
    | value hview' => cases hview.symm.trans hview'
    | link hview' htarget =>
      cases Shape.link.inj (hview.symm.trans hview')
      exact htarget
    | apply hview' => cases hview.symm.trans hview'
  · exact Denotes.link hview

theorem denotes_apply_iff {k l r : κ} {operation : ν → ν → Option ν} {u : ν}
    (hview : view k = .apply operation l r) :
    Denotes view k u ↔
      ∃ v w, Denotes view l v ∧ Denotes view r w ∧ operation v w = some u := by
  constructor
  · intro hk
    cases hk with
    | value hview' => cases hview.symm.trans hview'
    | link hview' => cases hview.symm.trans hview'
    | apply hview' hleft hright hresult =>
      obtain ⟨rfl, rfl, rfl⟩ := Shape.apply.inj (hview.symm.trans hview')
      exact ⟨_, _, hleft, hright, hresult⟩
  · rintro ⟨v, w, hleft, hright, hresult⟩
    exact .apply hview hleft hright hresult

theorem settles_apply_iff {k l r : κ} {operation : ν → ν → Option ν}
    (hview : view k = .apply operation l r) :
    Settles view k ↔ Settles view l ∧ ∀ v, Denotes view l v → Settles view r := by
  constructor
  · intro hk
    cases hk with
    | value hview' => cases hview.symm.trans hview'
    | fails hview' => cases hview.symm.trans hview'
    | link hview' => cases hview.symm.trans hview'
    | apply hview' hleft hright =>
      obtain ⟨rfl, rfl, rfl⟩ := Shape.apply.inj (hview.symm.trans hview')
      exact ⟨hleft, hright⟩
  · rintro ⟨hleft, hright⟩
    exact .apply hview hleft hright

theorem not_denotes_of_fails {k : κ} {v : ν} (hview : view k = .fails) : ¬ Denotes view k v := by
  intro hk
  cases hk with
  | value hview' => cases hview.symm.trans hview'
  | link hview' => cases hview.symm.trans hview'
  | apply hview' => cases hview.symm.trans hview'

/-! ### Nodes that agree -/

/-- Two nodes denote the same value, if any, and both settle or neither does. -/
structure Agree (view : κ → Shape κ ν) (view' : κ' → Shape κ' ν) (k : κ) (k' : κ') : Prop where
  denotes_iff : ∀ v, Denotes view k v ↔ Denotes view' k' v
  settles_iff : Settles view k ↔ Settles view' k'

theorem Agree.refl (k : κ) : Agree view view k k :=
  ⟨fun _ => Iff.rfl, Iff.rfl⟩

theorem Agree.symm {k : κ} {k' : κ'} (hagree : Agree view view' k k') : Agree view' view k' k :=
  ⟨fun v => (hagree.denotes_iff v).symm, hagree.settles_iff.symm⟩

theorem Agree.trans {κ'' : Type*} {view'' : κ'' → Shape κ'' ν} {k : κ} {k' : κ'} {k'' : κ''}
    (hagree : Agree view view' k k') (hagree' : Agree view' view'' k' k'') :
    Agree view view'' k k'' :=
  ⟨fun v => (hagree.denotes_iff v).trans (hagree'.denotes_iff v),
    hagree.settles_iff.trans hagree'.settles_iff⟩

/-- What two nodes look like, up to a relation between the nodes they lead to. -/
inductive Shape.Match (R : κ → κ' → Prop) : Shape κ ν → Shape κ' ν → Prop
  | value (v : ν) : Match R (.value v) (.value v)
  | fails : Match R .fails .fails
  | link {k : κ} {k' : κ'} (htarget : R k k') : Match R (.link k) (.link k')
  | apply {l r : κ} {l' r' : κ'} (operation : ν → ν → Option ν) (hleft : R l l') (hright : R r r') :
      Match R (.apply operation l r) (.apply operation l' r')

theorem Shape.Match.flip {R : κ → κ' → Prop} {shape : Shape κ ν} {shape' : Shape κ' ν}
    (hmatch : shape.Match R shape') : shape'.Match (fun k' k => R k k') shape := by
  cases hmatch with
  | value v => exact .value v
  | fails => exact .fails
  | link htarget => exact .link htarget
  | apply operation hleft hright => exact .apply operation hleft hright

theorem Shape.Match.imp {R S : κ → κ' → Prop} (himp : ∀ k k', R k k' → S k k') {shape : Shape κ ν}
    {shape' : Shape κ' ν} (hmatch : shape.Match R shape') : shape.Match S shape' := by
  cases hmatch with
  | value v => exact .value v
  | fails => exact .fails
  | link htarget => exact .link (himp _ _ htarget)
  | apply operation hleft hright => exact .apply operation (himp _ _ hleft) (himp _ _ hright)

private theorem denotes_of_match {R : κ → κ' → Prop}
    (hmatch : ∀ k k', R k k' → (view k).Match R (view' k') ∨ Agree view view' k k') {k : κ} {v : ν}
    (hk : Denotes view k v) : ∀ k', R k k' → Denotes view' k' v := by
  induction hk with
  | value hview =>
    intro k' hrel
    rcases hmatch _ _ hrel with hshape | hagree
    · rw [hview] at hshape
      generalize hview' : view' k' = shape at hshape
      cases hshape
      exact .value hview'
    · exact (hagree.denotes_iff _).mp (.value hview)
  | link hview htarget ih =>
    intro k' hrel
    rcases hmatch _ _ hrel with hshape | hagree
    · rw [hview] at hshape
      generalize hview' : view' k' = shape at hshape
      cases hshape with
      | link htarget' => exact .link hview' (ih _ htarget')
    · exact (hagree.denotes_iff _).mp (.link hview htarget)
  | apply hview hleft hright hresult ihleft ihright =>
    intro k' hrel
    rcases hmatch _ _ hrel with hshape | hagree
    · rw [hview] at hshape
      generalize hview' : view' k' = shape at hshape
      cases hshape with
      | apply _ hleft' hright' =>
        exact .apply hview' (ihleft _ hleft') (ihright _ hright') hresult
    · exact (hagree.denotes_iff _).mp (.apply hview hleft hright hresult)

private theorem match_flip {R : κ → κ' → Prop}
    (hmatch : ∀ k k', R k k' → (view k).Match R (view' k') ∨ Agree view view' k k') (k' : κ') (k : κ)
    (hrel : R k k') : (view' k').Match (fun k' k => R k k') (view k) ∨ Agree view' view k' k :=
  (hmatch k k' hrel).imp Shape.Match.flip Agree.symm

private theorem settles_of_match {R : κ → κ' → Prop}
    (hmatch : ∀ k k', R k k' → (view k).Match R (view' k') ∨ Agree view view' k k') {k : κ}
    (hk : Settles view k) : ∀ k', R k k' → Settles view' k' := by
  induction hk with
  | value hview =>
    intro k' hrel
    rcases hmatch _ _ hrel with hshape | hagree
    · rw [hview] at hshape
      generalize hview' : view' k' = shape at hshape
      cases hshape
      exact .value hview'
    · exact hagree.settles_iff.mp (.value hview)
  | fails hview =>
    intro k' hrel
    rcases hmatch _ _ hrel with hshape | hagree
    · rw [hview] at hshape
      generalize hview' : view' k' = shape at hshape
      cases hshape
      exact .fails hview'
    · exact hagree.settles_iff.mp (.fails hview)
  | link hview htarget ih =>
    intro k' hrel
    rcases hmatch _ _ hrel with hshape | hagree
    · rw [hview] at hshape
      generalize hview' : view' k' = shape at hshape
      cases hshape with
      | link htarget' => exact .link hview' (ih _ htarget')
    · exact hagree.settles_iff.mp (.link hview htarget)
  | apply hview hleft hright ihleft ihright =>
    intro k' hrel
    rcases hmatch _ _ hrel with hshape | hagree
    · rw [hview] at hshape
      generalize hview' : view' k' = shape at hshape
      cases hshape with
      | apply _ hleft' hright' =>
        refine .apply hview' (ihleft _ hleft') fun v hv => ?_
        have hv := denotes_of_match (match_flip hmatch) hv _ hleft'
        exact ihright v hv _ hright'
    · exact hagree.settles_iff.mp (.apply hview hleft hright)

/-- When related nodes look alike, or are known to agree, related nodes agree. -/
theorem agree_of_match {R : κ → κ' → Prop}
    (hmatch : ∀ k k', R k k' → (view k).Match R (view' k') ∨ Agree view view' k k')
    {k : κ} {k' : κ'} (hrel : R k k') : Agree view view' k k' where
  denotes_iff _ := ⟨fun hk => denotes_of_match hmatch hk k' hrel,
    fun hk' => denotes_of_match (match_flip hmatch) hk' k hrel⟩
  settles_iff := ⟨fun hk => settles_of_match hmatch hk k' hrel,
    fun hk' => settles_of_match (match_flip hmatch) hk' k hrel⟩

theorem Agree.of_match {k : κ} {k' : κ'} (hmatch : (view k).Match (Agree view view') (view' k')) :
    Agree view view' k k' := by
  refine agree_of_match
    (R := fun a a' => Agree view view' a a' ∨ (view a).Match (Agree view view') (view' a'))
    (fun a a' ha => ?_) (.inr hmatch)
  rcases ha with hagree | hshape
  · exact .inr hagree
  · exact .inl (hshape.imp fun _ _ => .inl)

/-! ### Printing -/

private theorem unfolds_of_match {R : κ → κ' → Prop}
    (hmatch : ∀ k k', R k k' → (view k).Match R (view' k')) {k : κ} (hk : Unfolds view k) :
    ∀ k', R k k' → Unfolds view' k' := by
  induction hk with
  | value hview =>
    intro k' hrel
    have hshape := hmatch _ _ hrel
    rw [hview] at hshape
    generalize hview' : view' k' = shape at hshape
    cases hshape
    exact .value hview'
  | fails hview =>
    intro k' hrel
    have hshape := hmatch _ _ hrel
    rw [hview] at hshape
    generalize hview' : view' k' = shape at hshape
    cases hshape
    exact .fails hview'
  | link hview _ ih =>
    intro k' hrel
    have hshape := hmatch _ _ hrel
    rw [hview] at hshape
    generalize hview' : view' k' = shape at hshape
    cases hshape with
    | link htarget => exact .link hview' (ih _ htarget)
  | apply hview _ _ ihleft ihright =>
    intro k' hrel
    have hshape := hmatch _ _ hrel
    rw [hview] at hshape
    generalize hview' : view' k' = shape at hshape
    cases hshape with
    | apply _ hleft hright => exact .apply hview' (ihleft _ hleft) (ihright _ hright)

/-- When related nodes look alike, one unfolds when the other does. -/
theorem unfolds_iff_of_match {R : κ → κ' → Prop}
    (hmatch : ∀ k k', R k k' → (view k).Match R (view' k')) {k : κ} {k' : κ'} (hrel : R k k') :
    Unfolds view k ↔ Unfolds view' k' := by
  constructor
  · intro hk
    exact unfolds_of_match hmatch hk k' hrel
  · intro hk'
    exact unfolds_of_match (R := fun k' k => R k k') (fun _ _ h => (hmatch _ _ h).flip) hk' k hrel

end TermGraph
