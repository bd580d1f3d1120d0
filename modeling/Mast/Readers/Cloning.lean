import Mast.Readers.Uniquify

/-!
# Clones and their resolution

What cloning and resolving do to the references. A clone is made of new nodes only, which are still to be resolved; resolving an expression changes its own nodes only, one after another, and a node that is resolved stays as it is. So what is said of clones and of resolved expressions lasts while others are cloned and resolved. Resolving ends when the text of each parameter ends that a node is resolved with.
-/

namespace Mast

namespace AST

open Program TermGraph

variable {names : List String} {nodes nodes' : Nodes} {touched touched' : Nat → Prop}

/-! ### What changes -/

/-- Nodes are added, only those touched may change, and resolved ones never do. -/
structure Grows (touched : Nat → Prop) (nodes nodes' : Nodes) : Prop where
  length_le : nodes.length ≤ nodes'.length
  untouched : ∀ node : Nat, node < nodes.length → ¬ touched node → nodes'[node]? = nodes[node]?
  resolved : ∀ (node : Nat) (expr : IntegerExpr), nodes[node]? = some ⟨none, some expr⟩ →
    nodes'[node]? = some ⟨none, some expr⟩

/-- Nodes are added and none changes. -/
abbrev Extends : Nodes → Nodes → Prop := Grows fun _ => False

theorem lt_length_of_some {node : Nat} {ref : IntegerExprRef} (hnode : nodes[node]? = some ref) :
    node < nodes.length :=
  (List.getElem?_eq_some_iff.mp hnode).1

instance : IsPreorder Nodes (Grows touched) where
  refl _ := ⟨Nat.le_refl _, fun _ _ _ => rfl, fun _ _ h => h⟩
  trans _ _ _ h h' := by
    refine ⟨Nat.le_trans h.length_le h'.length_le, fun node hnode htouched => ?_, fun node expr hn => ?_⟩
    · rw [h'.untouched node (Nat.lt_of_lt_of_le hnode h.length_le) htouched,
        h.untouched node hnode htouched]
    · exact h'.resolved node expr (h.resolved node expr hn)

theorem Grows.mono (hgrows : Grows touched nodes nodes')
    (himp : ∀ node, node < nodes.length → touched node → touched' node) :
    Grows touched' nodes nodes' where
  length_le := hgrows.length_le
  untouched node hnode htouched := hgrows.untouched node hnode fun h => htouched (himp node hnode h)
  resolved := hgrows.resolved

theorem Grows.kept (hgrows : Grows touched nodes nodes') {node : Nat} {ref : IntegerExprRef}
    (htouched : ¬ touched node) (hnode : nodes[node]? = some ref) : nodes'[node]? = some ref := by
  rw [hgrows.untouched node (lt_length_of_some hnode) htouched]
  exact hnode

theorem extends_append (nodes added : Nodes) : Extends nodes (nodes ++ added) where
  length_le := by rw [List.length_append]; exact Nat.le_add_right _ _
  untouched _ hnode _ := List.getElem?_append_left hnode
  resolved _ _ hnode := by
    rw [List.getElem?_append_left (lt_length_of_some hnode)]
    exact hnode

/-! ### What lasts -/

theorem Linked.grows {parameters : List Parameter} {expr expr' : IntegerExpr}
    (hlinked : Linked names parameters nodes expr expr') (hgrows : Grows touched nodes nodes') :
    Linked names parameters nodes' expr expr' := by
  refine hlinked.imp fun node node' hnode => ?_
  obtain ⟨name, parameter, hname, hfind, hresolved⟩ := hnode
  exact ⟨name, parameter, hname, hfind, hgrows.resolved _ _ hresolved⟩

theorem LinkedParameter.grows {parameters : List Parameter} {p p' : Parameter}
    (hlinked : LinkedParameter names parameters nodes p p') (hgrows : Grows touched nodes nodes') :
    LinkedParameter names parameters nodes' p p' :=
  ⟨hlinked.name_eq, hlinked.linked.grows hgrows⟩

theorem LinkedOrOverridden.grows {overrides outer parameters : List Parameter} {p p' : Parameter}
    (hlinked : LinkedOrOverridden names overrides outer parameters nodes p p')
    (hgrows : Grows touched nodes nodes') :
    LinkedOrOverridden names overrides outer parameters nodes' p p' where
  name_eq := hlinked.name_eq
  overridden override hoverride := (hlinked.overridden override hoverride).grows hgrows
  linked hnone := (hlinked.linked hnone).grows hgrows

theorem Realises.grows {scope : Scope} {parameters : List Parameter}
    (hrealises : Realises names nodes scope parameters) (hgrows : Grows touched nodes nodes') :
    Realises names nodes' scope parameters := by
  induction hrealises with
  | empty => exact .empty
  | merged _ hoverrides ih => exact .merged ih (hoverrides.imp fun _ _ h => h.grows hgrows)
  | inside _ hparameters hlocal ih =>
    exact .inside ih (hparameters.imp fun _ _ h => h.grows hgrows)
      (hlocal.imp fun _ _ h => h.grows hgrows)

/-! ### Clones -/

/-- The references of a parsed expression. -/
def Unresolved (names : List String) (nodes : Nodes) (expr : IntegerExpr) : Prop :=
  ∀ node ∈ expr.references, ∃ name, names[node]? = some name ∧
    nodes[node]? = some ⟨some name, none⟩

theorem Unresolved.extends {expr : IntegerExpr} (hexpr : Unresolved names nodes expr)
    (hextends : Extends nodes nodes') : Unresolved names nodes' expr := by
  intro node hnode
  obtain ⟨name, hname, hunresolved⟩ := hexpr node hnode
  exact ⟨name, hname, hextends.kept not_false hunresolved⟩

theorem Cloned.mono {copies copies' : List (Nat × Nat)} {expr expr' : IntegerExpr}
    (hcloned : Cloned copies expr expr') (hsubset : copies ⊆ copies') : Cloned copies' expr expr' :=
  hcloned.imp fun _ _ hmem => hsubset hmem

/-- Copies of references, from a position on, which are still to be resolved. -/
structure FreshCopies (names : List String) (start : Nat) (copies : List (Nat × Nat))
    (nodes : Nodes) : Prop where
  start_le : ∀ node node', (node, node') ∈ copies → start ≤ node'
  nodup : (copies.map Prod.snd).Nodup
  unresolved : ∀ node node', (node, node') ∈ copies →
    ∃ name, names[node]? = some name ∧ nodes[node']? = some ⟨some name, none⟩

section Copies

variable {copies copies' : List (Nat × Nat)} {start start' : Nat}

theorem FreshCopies.grows (hfresh : FreshCopies names start copies nodes)
    (hgrows : Grows touched nodes nodes') (hother : ∀ node node', (node, node') ∈ copies → ¬ touched node') :
    FreshCopies names start copies nodes' where
  start_le := hfresh.start_le
  nodup := hfresh.nodup
  unresolved node node' hmem := by
    obtain ⟨name, hname, hnode⟩ := hfresh.unresolved node node' hmem
    exact ⟨name, hname, hgrows.kept (hother node node' hmem) hnode⟩

theorem FreshCopies.extends (hfresh : FreshCopies names start copies nodes)
    (hextends : Extends nodes nodes') : FreshCopies names start copies nodes' :=
  hfresh.grows hextends fun _ _ _ => not_false

theorem FreshCopies.append (hfresh : FreshCopies names start copies nodes)
    (hfresh' : FreshCopies names nodes.length copies' nodes') (hextends : Extends nodes nodes')
    (hle : start ≤ nodes.length) : FreshCopies names start (copies ++ copies') nodes' where
  start_le node node' hmem := by
    rcases List.mem_append.mp hmem with hmem | hmem
    · exact hfresh.start_le node node' hmem
    · exact Nat.le_trans hle (hfresh'.start_le node node' hmem)
  nodup := by
    rw [List.map_append]
    refine List.Nodup.append hfresh.nodup hfresh'.nodup ?_
    intro node' hmem hmem'
    obtain ⟨⟨node, _⟩, hcopy, rfl⟩ := List.mem_map.mp hmem
    obtain ⟨⟨other, _⟩, hcopy', hsame⟩ := List.mem_map.mp hmem'
    obtain ⟨name, -, hnode⟩ := hfresh.unresolved _ _ hcopy
    have hlt := lt_length_of_some hnode
    have hle := hfresh'.start_le _ _ hcopy'
    simp only at hsame
    omega
  unresolved node node' hmem := by
    rcases List.mem_append.mp hmem with hmem | hmem
    · exact (hfresh.extends hextends).unresolved node node' hmem
    · exact hfresh'.unresolved node node' hmem

/-- What holds of clones lasts while there are more of them. -/
def Lasts (P : List (Nat × Nat) → Nodes → Prop) : Prop :=
  ∀ copies copies' nodes nodes', copies ⊆ copies' → Extends nodes nodes' → P copies nodes →
    P copies' nodes'

/-- Some references have new copies, for which a property holds. -/
structure Clones (names : List String) (nodes : Nodes) (references : List Nat)
    (P : List (Nat × Nat) → Nodes → Prop) (nodes' : Nodes) : Prop where
  extends' : Extends nodes nodes'
  copies : ∃ copies : List (Nat × Nat), copies.map Prod.fst = references ∧
    FreshCopies names nodes.length copies nodes' ∧ P copies nodes'

variable {references references' : List Nat} {P Q : List (Nat × Nat) → Nodes → Prop}
  {nodes₁ nodes₂ : Nodes}

theorem Clones.imp (hclones : Clones names nodes references P nodes')
    (himp : ∀ copies nodes, P copies nodes → Q copies nodes) :
    Clones names nodes references Q nodes' := by
  obtain ⟨hextends, copies, hsources, hfresh, hP⟩ := hclones
  exact ⟨hextends, copies, hsources, hfresh, himp _ _ hP⟩

theorem Clones.none (hP : P [] nodes) : Clones names nodes [] P nodes where
  extends' := refl _
  copies := ⟨[], rfl, ⟨fun _ _ h => absurd h List.not_mem_nil, List.nodup_nil,
    fun _ _ h => absurd h List.not_mem_nil⟩, hP⟩

theorem Clones.append (hclones : Clones names nodes references P nodes₁)
    (hclones' : Clones names nodes₁ references' Q nodes₂) (hP : Lasts P) (hQ : Lasts Q) :
    Clones names nodes (references ++ references') (fun copies nodes => P copies nodes ∧ Q copies nodes)
      nodes₂ := by
  obtain ⟨hextends, copies, rfl, hfresh, hfirst⟩ := hclones
  obtain ⟨hextends', copies', rfl, hfresh', hrest⟩ := hclones'
  refine ⟨IsTrans.trans _ _ _ hextends hextends', copies ++ copies', List.map_append, ?_, ?_, ?_⟩
  · exact hfresh.append hfresh' hextends' hextends.length_le
  · exact hP _ _ _ _ (List.subset_append_left _ _) hextends' hfirst
  · exact hQ _ _ _ _ (List.subset_append_right _ _) (refl _) hrest

theorem lasts_cloned (expr expr' : IntegerExpr) : Lasts fun copies _ => Cloned copies expr expr' :=
  fun _ _ _ _ hsubset _ hcloned => hcloned.mono hsubset

theorem lasts_forall₂ {α β : Type} {P : α → β → List (Nat × Nat) → Nodes → Prop}
    (hP : ∀ a b, Lasts (P a b)) (as : List α) (bs : List β) :
    Lasts fun copies nodes => List.Forall₂ (fun a b => P a b copies nodes) as bs :=
  fun _ _ _ _ hsubset hextends hall => hall.imp fun a b h => hP a b _ _ _ _ hsubset hextends h

/-- Cloning the elements of a list clones their references, one after another. -/
theorem mapM_clones {α β : Type} {g : Nat → α → Step Nodes Fault β} {sources : α → List Nat}
    {P : α → β → List (Nat × Nat) → Nodes → Prop} (hP : ∀ a b, Lasts (P a b)) {as : List α}
    (hstep : ∀ a ∈ as, ∀ nodes', Extends nodes nodes' → Meets (fun fuel => g fuel a) nodes'
      fun b nodes'' => Clones names nodes' (sources a) (P a b) nodes'') :
    Meets (fun fuel => as.mapM (g fuel)) nodes fun bs nodes' =>
      Clones names nodes (as.flatMap sources)
        (fun copies nodes => List.Forall₂ (fun a b => P a b copies nodes) as bs) nodes' := by
  induction as generalizing nodes with
  | nil => exact Yields.pure (Clones.none .nil)
  | cons a as ih =>
    simp only [List.mapM_cons]
    refine Yields.bind (hstep a List.mem_cons_self nodes (refl _)) fun b nodes₁ hfirst => ?_
    refine Yields.bind (ih fun a' ha' nodes' hextends => hstep a' (List.mem_cons_of_mem _ ha') nodes'
      (IsTrans.trans _ _ _ hfirst.extends' hextends)) fun bs nodes₂ hrest => ?_
    refine Yields.pure ?_
    have hboth := hfirst.append hrest (hP a b) (lasts_forall₂ hP as bs)
    exact hboth.imp fun _ _ h => .cons h.1 h.2

end Copies

theorem uniquifiedClone_meets {expr : IntegerExpr} (hexpr : Unresolved names nodes expr) :
    Meets (fun fuel => expr.uniquifiedClone fuel) nodes fun expr' nodes' =>
      Clones names nodes expr.references (fun copies _ => Cloned copies expr expr') nodes' := by
  induction expr generalizing nodes with
  | integerLiteral value =>
    apply Yields.succ
    exact Yields.pure (Clones.none (.integerLiteral value))
  | integerBinaryExpr kind left right ihleft ihright =>
    apply Yields.succ
    have hleft : Unresolved names nodes left := fun n hn => hexpr n (List.mem_append_left _ hn)
    have hright : Unresolved names nodes right := fun n hn => hexpr n (List.mem_append_right _ hn)
    refine Yields.bind (ihleft hleft) fun left' nodes₁ hl => ?_
    refine Yields.bind (ihright (hright.extends hl.extends')) fun right' nodes₂ hr => ?_
    refine Yields.pure ?_
    have hboth := hl.append hr (lasts_cloned _ _) (lasts_cloned _ _)
    exact hboth.imp fun _ _ h => .integerBinaryExpr kind h.1 h.2
  | parenthesizedExpr operand ih =>
    apply Yields.succ
    refine Yields.bind (ih hexpr) fun operand' nodes₁ ho => ?_
    exact Yields.pure (ho.imp fun _ _ h => .parenthesizedExpr h)
  | integerExprRef node =>
    apply Yields.succ
    obtain ⟨name, hname, hnode⟩ := hexpr node (List.mem_singleton.mpr rfl)
    simp only [IntegerExpr.uniquifiedClone]
    apply Yields.get
    simp only [hnode]
    refine Yields.next (Yields.set ⟨rfl, rfl⟩) ?_
    refine Yields.pure ⟨extends_append _ _, [(node, nodes.length)], rfl, ?_, ?_⟩
    · refine ⟨fun _ _ hmem => ?_, List.nodup_singleton _, fun _ _ hmem => ?_⟩
      · cases List.mem_singleton.mp hmem
        exact Nat.le_refl _
      · cases List.mem_singleton.mp hmem
        exact ⟨name, hname, List.getElem?_concat_length⟩
    · exact .integerExprRef (List.mem_singleton.mpr rfl)

theorem alike_refl {related : Nat → Nat → Prop} {expr : IntegerExpr}
    (hrelated : ∀ node ∈ expr.references, related node node) : expr.Alike related expr := by
  induction expr with
  | integerLiteral value => exact .integerLiteral value
  | integerBinaryExpr kind left right ihleft ihright =>
    refine .integerBinaryExpr kind (ihleft fun node hnode => ?_) (ihright fun node hnode => ?_)
    · exact hrelated node (List.mem_append_left _ hnode)
    · exact hrelated node (List.mem_append_right _ hnode)
  | parenthesizedExpr operand ih => exact .parenthesizedExpr (ih hrelated)
  | integerExprRef node => exact .integerExprRef (hrelated node (List.mem_singleton.mpr rfl))

/-- Without a parameter reference, no node of the expression holds a name. -/
theorem not_unresolved {expr : IntegerExpr} (hnone : expr.hasParameterRef nodes = false) :
    ∀ node ∈ expr.references, ∀ (name : String) (target : Option IntegerExpr),
      nodes[node]? ≠ some ⟨some name, target⟩ := by
  induction expr with
  | integerLiteral value => exact fun _ hnode => absurd hnode List.not_mem_nil
  | integerBinaryExpr kind left right ihleft ihright =>
    obtain ⟨hleft, hright⟩ := Bool.or_eq_false_iff.mp hnone
    intro node hnode
    rcases List.mem_append.mp hnode with hnode | hnode
    · exact ihleft hleft node hnode
    · exact ihright hright node hnode
  | parenthesizedExpr operand ih => exact ih hnone
  | integerExprRef node =>
    intro node' hnode' name target hname
    cases List.mem_singleton.mp hnode'
    simp [IntegerExpr.hasParameterRef, hname] at hnone

theorem Alike.reference {related : Nat → Nat → Prop} {expr expr' : IntegerExpr}
    (halike : expr.Alike related expr') :
    ∀ node ∈ expr.references, ∃ node' ∈ expr'.references, related node node' := by
  induction halike with
  | integerLiteral value => exact fun _ hnode => absurd hnode List.not_mem_nil
  | integerBinaryExpr kind _ _ ihleft ihright =>
    intro node hnode
    rcases List.mem_append.mp hnode with hnode | hnode
    · obtain ⟨node', hmem, hrelated⟩ := ihleft node hnode
      exact ⟨node', List.mem_append_left _ hmem, hrelated⟩
    · obtain ⟨node', hmem, hrelated⟩ := ihright node hnode
      exact ⟨node', List.mem_append_right _ hmem, hrelated⟩
  | parenthesizedExpr _ ih => exact ih
  | @integerExprRef node node' hnode =>
    intro other hother
    cases List.mem_singleton.mp hother
    exact ⟨node', List.mem_singleton.mpr rfl, hnode⟩

/-- An expression of unresolved references that holds no parameter reference has none. -/
theorem Unresolved.references_eq_nil {expr : IntegerExpr} (hexpr : Unresolved names nodes expr)
    (hnone : expr.hasParameterRef nodes = false) : expr.references = [] := by
  rw [List.eq_nil_iff_forall_not_mem]
  intro node hnode
  obtain ⟨name, -, hunresolved⟩ := hexpr node hnode
  exact not_unresolved hnone node hnode name none hunresolved

theorem cloneReferences_meets {expr : IntegerExpr} (hexpr : Unresolved names nodes expr) :
    Meets (fun fuel => expr.cloneReferences fuel) nodes fun expr' nodes' =>
      Clones names nodes expr.references (fun copies _ => Cloned copies expr expr') nodes' := by
  apply Yields.get
  cases hrefs : expr.hasParameterRef nodes with
  | true => exact uniquifiedClone_meets hexpr
  | false =>
    have hnil := hexpr.references_eq_nil hrefs
    refine Yields.pure ?_
    rw [hnil]
    refine Clones.none (alike_refl fun node hnode => ?_)
    rw [hnil] at hnode
    cases hnode

structure ClonedParameter (copies : List (Nat × Nat)) (parameter parameter' : Parameter) : Prop where
  name_eq : parameter'.name = parameter.name
  cloned : Cloned copies parameter.number parameter'.number

theorem lasts_clonedParameter (parameter parameter' : Parameter) :
    Lasts fun copies _ => ClonedParameter copies parameter parameter' :=
  fun _ _ _ _ hsubset _ hcloned => ⟨hcloned.name_eq, hcloned.cloned.mono hsubset⟩

theorem cloneParameter_meets {parameter : Parameter}
    (hparameter : Unresolved names nodes parameter.number) :
    Meets (fun fuel => parameter.cloneReferences fuel) nodes fun parameter' nodes' =>
      Clones names nodes parameter.number.references
        (fun copies _ => ClonedParameter copies parameter parameter') nodes' := by
  refine Yields.bind (cloneReferences_meets hparameter) fun number nodes₁ hnumber => ?_
  exact Yields.pure (hnumber.imp fun _ _ h => ⟨rfl, h⟩)

theorem cloneParameters_meets {parameters : List Parameter}
    (hparameters : ∀ p ∈ parameters, Unresolved names nodes p.number) :
    Meets (fun fuel => parameters.mapM (·.cloneReferences fuel)) nodes fun parameters' nodes' =>
      Clones names nodes (parameters.flatMap (·.number.references))
        (fun copies _ => List.Forall₂ (ClonedParameter copies) parameters parameters') nodes' :=
  mapM_clones (P := fun p p' copies _ => ClonedParameter copies p p') lasts_clonedParameter
    fun p hp _ hextends => cloneParameter_meets ((hparameters p hp).extends hextends)

/-! ### Resolution -/

/-- Some of the nodes of one's own are resolved by the parameters. -/
structure Resolves (parameters : List Parameter) (own : Nat → Prop) (nodes nodes' : Nodes) : Prop where
  length_eq : nodes'.length = nodes.length
  changes : ∀ node : Nat, nodes'[node]? = nodes[node]? ∨ (own node ∧ ∃ name parameter,
    nodes[node]? = some ⟨some name, none⟩ ∧ find name parameters = some parameter ∧
    nodes'[node]? = some ⟨none, some parameter.number⟩)

variable {parameters : List Parameter} {own : Nat → Prop}

instance : IsPreorder Nodes (Resolves parameters own) where
  refl _ := ⟨rfl, fun _ => .inl rfl⟩
  trans a b c h h' := by
    refine ⟨h'.length_eq.trans h.length_eq, fun node => ?_⟩
    rcases h'.changes node with hsame' | ⟨hown, name, p, hname, hfind, hresolved⟩
    · rw [hsame']
      exact h.changes node
    · rcases h.changes node with hsame | ⟨-, name', p', -, -, hresolved'⟩
      · exact .inr ⟨hown, name, p, hsame ▸ hname, hfind, hresolved⟩
      · cases hname.symm.trans hresolved'

theorem Resolves.grows (hresolves : Resolves parameters own nodes nodes') :
    Grows own nodes nodes' where
  length_le := Nat.le_of_eq hresolves.length_eq.symm
  untouched node _ hnode := by
    rcases hresolves.changes node with hsame | ⟨hown, -⟩
    · exact hsame
    · exact absurd hown hnode
  resolved node expr hnode := by
    rcases hresolves.changes node with hsame | ⟨-, name, p, hname, -, -⟩
    · rw [hsame]
      exact hnode
    · cases hname.symm.trans hnode

/-- What is known while the copies are resolved, from the start on: a copy is resolved when its condition is met. -/
structure Resolution (names : List String) (parameters : List Parameter) (copies : List (Nat × Nat))
    (own : Nat → Prop) (condition : List Nat → Nat → Prop) (start : Nodes) : Prop where
  separate : ∀ node node' other other', (node, node') ∈ copies → (other, other') ∈ copies →
    (node = other ↔ node' = other')
  owned : ∀ node node', (node, node') ∈ copies → own node'
  text : ∀ resolved nodes, Resolves parameters own start nodes →
    Stage names parameters copies resolved nodes → ∀ node name parameter,
      names[node]? = some name → find name parameters = some parameter →
        (Unfolds (inText nodes) parameter.number ↔ condition resolved node)

/-- The state after some of the copies are resolved. -/
structure Resolution.At (names : List String) (parameters : List Parameter) (copies : List (Nat × Nat))
    (own : Nat → Prop) (start : Nodes) (resolved : List Nat) (nodes : Nodes) : Prop where
  resolves : Resolves parameters own start nodes
  stage : Stage names parameters copies resolved nodes

section Resolution

variable {copies : List (Nat × Nat)} {condition : List Nat → Nat → Prop} {start : Nodes}
  {resolved : List Nat}

theorem Stage.step (hstage : Stage names parameters copies resolved nodes)
    (hresolution : Resolution names parameters copies own condition start) {node node' : Nat}
    (hcopy : (node, node') ∈ copies) {name : String} {parameter : Parameter}
    (hname : names[node]? = some name) (hfind : find name parameters = some parameter)
    (hlt : node' < nodes.length) : Stage names parameters copies (resolved ++ [node])
      (nodes.set node' ⟨none, some parameter.number⟩) where
  pending other other' hmem hpending := by
    have hother : other ≠ node := fun h => hpending (List.mem_append_right _ (List.mem_singleton.mpr h))
    have hother' : node' ≠ other' := fun h =>
      hother ((hresolution.separate _ _ _ _ hcopy hmem).mpr h).symm
    rw [List.getElem?_set_ne hother']
    exact hstage.pending other other' hmem fun h => hpending (List.mem_append_left _ h)
  done other other' hmem hdone := by
    by_cases hother : other = node
    · have hsame := (hresolution.separate _ _ _ _ hmem hcopy).mp hother
      rw [hother, hsame]
      exact ⟨name, parameter, hname, hfind, List.getElem?_set_self hlt⟩
    · have hother' : node' ≠ other' := fun h =>
        hother ((hresolution.separate _ _ _ _ hcopy hmem).mpr h).symm
      rw [List.getElem?_set_ne hother']
      refine hstage.done other other' hmem ?_
      rcases List.mem_append.mp hdone with hdone | hdone
      · exact hdone
      · exact absurd (List.mem_singleton.mp hdone) hother

theorem Resolves.step (hresolves : Resolves parameters own start nodes) {node : Nat} (hown : own node)
    {name : String} {parameter : Parameter} (hnode : nodes[node]? = some ⟨some name, none⟩)
    (hfind : find name parameters = some parameter) :
    Resolves parameters own start (nodes.set node ⟨none, some parameter.number⟩) := by
  refine IsTrans.trans _ _ _ hresolves ⟨List.length_set, fun other => ?_⟩
  by_cases hother : node = other
  · subst hother
    exact .inr ⟨hown, name, parameter, hnode, hfind, List.getElem?_set_self (lt_length_of_some hnode)⟩
  · exact .inl (List.getElem?_set_ne hother)

/-- A loop over copies resolves the references of each, one after another. -/
theorem forM_resolves {α β : Type} {g : Nat → β → Step Nodes Fault Unit} {sources : α → List Nat}
    {C : α → β → Prop} {as : List α} {bs : List β} (hall : List.Forall₂ C as bs)
    (hstep : ∀ a b, C a b → ∀ resolved nodes,
      Resolution.At names parameters copies own start resolved nodes →
        (resolved ++ sources a).Nodup → Decides (fun fuel => g fuel b) nodes
          (InOrder condition resolved (sources a))
          fun _ nodes' => Resolution.At names parameters copies own start (resolved ++ sources a) nodes')
    (hat : Resolution.At names parameters copies own start resolved nodes)
    (hnodup : (resolved ++ as.flatMap sources).Nodup) :
    Decides (fun fuel => bs.forM (g fuel)) nodes (InOrder condition resolved (as.flatMap sources))
      fun _ nodes' =>
        Resolution.At names parameters copies own start (resolved ++ as.flatMap sources) nodes' := by
  induction hall generalizing resolved nodes with
  | nil =>
    refine Decides.pure trivial ?_
    rw [List.flatMap_nil, List.append_nil]
    exact hat
  | @cons a b as bs hfirst _ ih =>
    rw [List.flatMap_cons, ← List.append_assoc] at hnodup
    rw [List.flatMap_cons]
    change Decides (fun fuel => g fuel b >>= fun _ => bs.forM (g fuel)) nodes _ _
    refine ((hstep a b hfirst resolved nodes hat (List.nodup_append.mp hnodup).1).bind
      fun _ nodes₁ hat₁ => ?_).of_iff inOrder_append.symm
    refine (ih hat₁ hnodup).mono fun _ nodes₂ hat₂ => ?_
    rw [List.append_assoc] at hat₂
    exact hat₂

variable (hresolution : Resolution names parameters copies own condition start)

include hresolution

theorem Resolution.resolveRef
    (hat : Resolution.At names parameters copies own start resolved nodes) {node node' : Nat}
    (hcopy : (node, node') ∈ copies) (hnew : node ∉ resolved) :
    Decides (fun fuel => IntegerExprRef.resolve fuel parameters node') nodes (condition resolved node)
      fun _ nodes' => Resolution.At names parameters copies own start (resolved ++ [node]) nodes' := by
  obtain ⟨name, hname, hunresolved⟩ := hat.stage.pending node node' hcopy hnew
  apply Decides.get
  simp only [hunresolved, locateParameterDef]
  cases hfind : find name parameters with
  | none => exact Decides.throw
  | some parameter =>
    have htext := hresolution.text resolved nodes hat.resolves hat.stage node name parameter hname hfind
    refine Decides.next (Yields.pure ⟨rfl, rfl⟩) ?_
    refine (((parameterText_decides nodes parameter).of_iff htext).bind ?_).of_iff
      (iff_of_eq (and_true _))
    rintro _ _ rfl
    refine Decides.set trivial ⟨?_, ?_⟩
    · exact hat.resolves.step (hresolution.owned node node' hcopy) hunresolved hfind
    · exact hat.stage.step hresolution hcopy hname hfind (lt_length_of_some hunresolved)

theorem Resolution.resolve {expr expr' : IntegerExpr} (hcloned : Cloned copies expr expr')
    (hat : Resolution.At names parameters copies own start resolved nodes)
    (hnodup : (resolved ++ expr.references).Nodup) :
    Decides (fun fuel => expr'.resolve fuel parameters) nodes
      (InOrder condition resolved expr.references)
      fun _ nodes' =>
        Resolution.At names parameters copies own start (resolved ++ expr.references) nodes' := by
  induction hcloned generalizing resolved nodes with
  | integerLiteral value =>
    refine Decides.pure trivial ?_
    rw [IntegerExpr.references, List.append_nil]
    exact hat
  | @integerBinaryExpr kind left right left' right' _ _ ihleft ihright =>
    rw [IntegerExpr.references, ← List.append_assoc] at hnodup
    refine ((ihleft hat (List.nodup_append.mp hnodup).1).bind fun _ nodes₁ hat₁ => ?_).of_iff
      inOrder_append.symm
    refine (ihright hat₁ hnodup).mono fun _ nodes₂ hat₂ => ?_
    rw [List.append_assoc] at hat₂
    exact hat₂
  | parenthesizedExpr _ ih => exact ih hat hnodup
  | @integerExprRef node node' hcopy =>
    have hnew : node ∉ resolved := fun hmem =>
      (List.nodup_append.mp hnodup).2.2 node hmem node (List.mem_singleton.mpr rfl) rfl
    exact (hresolution.resolveRef hat hcopy hnew).of_iff (iff_of_eq (and_true _)).symm

/-- The copy of an expression is still to be resolved. -/
theorem Resolution.resolveReferences {expr expr' : IntegerExpr} (hcloned : Cloned copies expr expr')
    (hat : Resolution.At names parameters copies own start resolved nodes)
    (hnodup : (resolved ++ expr.references).Nodup) :
    Decides (fun fuel => expr'.resolveReferences fuel parameters) nodes
      (InOrder condition resolved expr.references)
      fun _ nodes' =>
        Resolution.At names parameters copies own start (resolved ++ expr.references) nodes' := by
  apply Decides.get
  cases hrefs : expr'.hasParameterRef nodes with
  | true => exact hresolution.resolve hcloned hat hnodup
  | false =>
    have hnil : expr.references = [] := by
      rw [List.eq_nil_iff_forall_not_mem]
      intro node hnode
      have hnew : node ∉ resolved := fun hmem =>
        (List.nodup_append.mp hnodup).2.2 node hmem node hnode rfl
      obtain ⟨node', hmem, hcopy⟩ := Alike.reference hcloned node hnode
      obtain ⟨name, -, hunresolved⟩ := hat.stage.pending node node' hcopy hnew
      exact not_unresolved hrefs node' hmem name none hunresolved
    rw [hnil, List.append_nil]
    exact Decides.pure trivial hat

end Resolution

/-- The copy of an expression is linked once its references are resolved. -/
theorem Stage.linked {copies : List (Nat × Nat)} {resolved : List Nat} {expr expr' : IntegerExpr}
    (hstage : Stage names parameters copies resolved nodes) (hcloned : Cloned copies expr expr')
    (hall : ∀ node ∈ expr.references, node ∈ resolved) :
    Linked names parameters nodes expr expr' := by
  induction hcloned with
  | integerLiteral value => exact .integerLiteral value
  | integerBinaryExpr kind _ _ ihleft ihright =>
    exact .integerBinaryExpr kind (ihleft fun node hnode => hall node (List.mem_append_left _ hnode))
      (ihright fun node hnode => hall node (List.mem_append_right _ hnode))
  | parenthesizedExpr _ ih => exact .parenthesizedExpr (ih hall)
  | @integerExprRef node node' hcopy =>
    exact .integerExprRef (hstage.done node node' hcopy (hall node (List.mem_singleton.mpr rfl)))

end AST

end Mast
