import Mast.Readers.ModuleTrees

/-!
# Circular modules

Uniquification of a network ends when the steps on the members of nodes do. If a module that the top module leads to instantiates itself through others, it throws; otherwise every instance path gets one module, linked to the instance and the module that embed it. Two things come in between: what the members of nodes throw, and modules that are declared under the names of copies.
-/

namespace Mast

namespace ModuleCopies

open Fuel LabelledPaths Program
open TopModule (Namespace Network)

variable {ς : Type}

/-! ### Rounds for the top module -/

section Top

variable {s₀ s : AST ς} {top i inst k : Nat} {node : InstanceNode} {found : TopModule.Module}
  {members : ς}

/-- What is known of the state in which the module of an instance of the top module is uniquified. -/
structure TopCall (s₀ s : AST ς) (top i : Nat) (node : InstanceNode) (found : TopModule.Module) :
    Prop where
  names : s₀.NamesModules
  rounds : Rounds s₀ top s₀ i s
  instanceOf : ∃ inst, s₀.instanceOf top i = some inst ∧ s₀.instances[inst]? = some node
  lookup : s₀.network.modules.lookup
    (node.moduleIdentifier.moduleNamespace, node.moduleIdentifier.name) = some found
  known : found.id < s₀.modules.length

variable (hcall : TopCall s₀ s top i node found)

include hcall

theorem TopCall.instantiated : s₀.instantiated top i = some found.id := by
  obtain ⟨inst, hinst, hnode⟩ := hcall.instanceOf
  rw [AST.instantiated, hinst, Option.bind_some, AST.moduleOf, hnode, Option.bind_some, hcall.lookup]
  rfl

/-- Modules from before, other than the top module, instantiate what they did. -/
theorem TopCall.instantiated_before {d : Nat} (hd : d < s₀.modules.length) (hother : d ≠ top) (j : Nat) :
    (s.calling top i k node members).instantiated d j = s₀.instantiated d j := by
  have hget := List.getElem?_eq_getElem hd
  have hnow : (s.calling top i k node members).instanceOf d j = s₀.instanceOf d j := by
    rw [AST.instanceOf, AST.instanceOf, hget,
      calling_modules hother (hcall.rounds.modules d _ hother hget)]
  rw [AST.instantiated, AST.instantiated, hnow]
  cases hinst : s₀.instanceOf d j with
  | none => rfl
  | some inst =>
    obtain ⟨m, hm, -⟩ := hcall.names d j inst hinst
    exact (calling_moduleOf (hcall.rounds.moduleOf hm)).trans hm.symm

theorem TopCall.names_either {d j inst : Nat}
    (hinst : (s.calling top i k node members).instanceOf d j = some inst) :
    ∃ m, (s.calling top i k node members).moduleOf inst = some m ∧ m < s.modules.length ∧
      (s₀.instantiated d j = some m ∧ m < s₀.modules.length ∨ s₀.modules.length ≤ m ∧ d < m) := by
  have hle := hcall.rounds.modules_le
  have hcopied : ∀ new, LinkedInstance s d inst new → s₀.modules.length ≤ new →
      ∃ m, (s.calling top i k node members).moduleOf inst = some m ∧ m < s.modules.length ∧
        (s₀.instantiated d j = some m ∧ m < s₀.modules.length ∨ s₀.modules.length ≤ m ∧ d < m) := by
    intro new hlinked hlow
    obtain ⟨found', hfound', -⟩ := hlinked.node
    exact ⟨new, calling_moduleOf hlinked.moduleOf, getElem?_lt hfound', .inr ⟨hlow, hlinked.ascends⟩⟩
  have hbefore : s₀.instanceOf d j = some inst →
      ∃ m, (s.calling top i k node members).moduleOf inst = some m ∧ m < s.modules.length ∧
        (s₀.instantiated d j = some m ∧ m < s₀.modules.length ∨ s₀.modules.length ≤ m ∧ d < m) := by
    intro horiginal
    obtain ⟨m, hm, hlt⟩ := hcall.names d j inst horiginal
    refine ⟨m, calling_moduleOf (hcall.rounds.moduleOf hm), by omega, .inl ⟨?_, hlt⟩⟩
    rw [AST.instantiated, horiginal]
    exact hm
  by_cases htop : d = top
  · obtain ⟨original, horiginal, hnode⟩ := hcall.instanceOf
    have hnow := (hcall.rounds.ahead i (Nat.le_refl i)).trans horiginal
    have hinst' := hinst
    rw [htop, calling_instanceOf hnow] at hinst'
    by_cases hj : j = i
    · -- the copy of the instance still names the module
      rw [if_pos hj] at hinst'
      cases hinst'
      refine ⟨found.id, ?_, Nat.lt_of_lt_of_le hcall.known hle, .inl ⟨?_, hcall.known⟩⟩
      · rw [AST.moduleOf, calling_instance, Option.bind_some]
        change Option.map _ (s.network.modules.lookup _) = _
        rw [hcall.rounds.registered _ _ hcall.lookup]
        rfl
      · rw [htop, hj, hcall.instantiated]
    · rw [if_neg hj] at hinst'
      rcases Nat.lt_or_ge j i with hlt | hge
      · obtain ⟨-, new, m, hlow, hlinked, -⟩ := hcall.rounds.behind j inst hlt hinst'
        exact hcopied new (htop ▸ hlinked) hlow
      · rw [hcall.rounds.ahead j hge] at hinst'
        exact hbefore (htop ▸ hinst')
  · have hlt := instanceOf_lt hinst
    rw [calling_modules_length] at hlt
    have hget := List.getElem?_eq_getElem hlt
    rw [AST.instanceOf, calling_modules htop hget, ← hget] at hinst
    rcases Nat.lt_or_ge d s₀.modules.length with hold | hnew
    · have hget₀ := List.getElem?_eq_getElem hold
      apply hbefore
      rw [AST.instanceOf, hget₀, ← hcall.rounds.modules d _ htop hget₀]
      exact hinst
    · obtain ⟨-, new, hlinked⟩ := (hcall.rounds.linked d hnew hlt).instances j inst hinst
      have hascends := hlinked.ascends
      exact hcopied new hlinked (by omega)

theorem TopCall.namesModules : (s.calling top i k node members).NamesModules := by
  intro d j inst hinst
  obtain ⟨m, hm, hlt, -⟩ := hcall.names_either hinst
  exact ⟨m, hm, by rw [calling_modules_length]; exact hlt⟩

theorem TopCall.edge {d e : Nat} (hedge : Edge (s.calling top i k node members).instantiated d e) :
    Edge s₀.instantiated d e ∧ e < s₀.modules.length ∨ s₀.modules.length ≤ e ∧ d < e := by
  obtain ⟨j, hj⟩ := hedge
  obtain ⟨inst, hinst, hmodule⟩ := Option.bind_eq_some_iff.mp hj
  obtain ⟨m, hm, -, heither⟩ := hcall.names_either hinst
  cases hm.symm.trans hmodule
  rcases heither with ⟨hbefore, hlt⟩ | hcopy
  · exact .inl ⟨⟨j, hbefore⟩, hlt⟩
  · exact .inr hcopy

/-! ### Circles -/

theorem TopCall.reaches {d e : Nat} (hlt : e < s₀.modules.length)
    (hreaches : Relation.ReflTransGen (Edge (s.calling top i k node members).instantiated) d e) :
    Relation.ReflTransGen (Edge s₀.instantiated) d e := by
  induction hreaches with
  | refl => exact .refl
  | tail _ hedge ih =>
    rcases hcall.edge hedge with ⟨hbefore, -⟩ | ⟨hle, -⟩
    · obtain ⟨j, hj⟩ := hbefore
      obtain ⟨inst, hinst, -⟩ := Option.bind_eq_some_iff.mp hj
      exact .tail (ih (instanceOf_lt hinst)) ⟨j, hj⟩
    · exact absurd hlt (Nat.not_lt.mpr hle)

/-- Copies do not lead back. -/
theorem TopCall.ascends {d e : Nat} (hd : s₀.modules.length ≤ d)
    (hreaches : Relation.TransGen (Edge (s.calling top i k node members).instantiated) d e) :
    d < e := by
  have hcopy : ∀ {d e : Nat}, s₀.modules.length ≤ d →
      Edge (s.calling top i k node members).instantiated d e → d < e := by
    intro d e hd hedge
    rcases hcall.edge hedge with ⟨⟨j, hj⟩, -⟩ | ⟨-, hlt⟩
    · obtain ⟨inst, hinst, -⟩ := Option.bind_eq_some_iff.mp hj
      exact absurd (instanceOf_lt hinst) (Nat.not_lt.mpr hd)
    · exact hlt
  induction hreaches with
  | single hedge => exact hcopy hd hedge
  | tail _ hedge ih => exact Nat.lt_trans ih (hcopy (by omega) hedge)

/-- A circle that the module of the instance leads to is one from before. -/
theorem TopCall.circle
    (hcircle : LeadsToCircle (s.calling top i k node members).instantiated found.id) :
    LeadsToCircle s₀.instantiated top := by
  obtain ⟨x, hreaches, hcycle⟩ := hcircle
  have hbefore : x < s₀.modules.length := by
    by_contra hnew
    exact absurd (hcall.ascends (Nat.not_lt.mp hnew) hcycle) (Nat.lt_irrefl x)
  obtain ⟨y, hrest, hlast⟩ := Relation.TransGen.tail'_iff.mp hcycle
  have hedge : Edge s₀.instantiated y x := by
    rcases hcall.edge hlast with ⟨hedge, -⟩ | ⟨hle, -⟩
    · exact hedge
    · exact absurd hbefore (Nat.not_lt.mpr hle)
  obtain ⟨j, hj⟩ := hedge
  obtain ⟨inst, hinst, -⟩ := Option.bind_eq_some_iff.mp hj
  exact ⟨x, .head ⟨i, hcall.instantiated⟩ (hcall.reaches hbefore hreaches),
    .tail' (hcall.reaches (instanceOf_lt hinst) hrest) ⟨j, hj⟩⟩

/-- When the module of the instance leads to no circle, what it instantiates is what it did before. -/
theorem TopCall.apart
    (hcircle : ¬LeadsToCircle (s.calling top i k node members).instantiated found.id) {d : Nat}
    (hreaches : Relation.ReflTransGen (Edge (s.calling top i k node members).instantiated) found.id d) :
    d < s₀.modules.length ∧ d ≠ top := by
  have hnot : ∀ {d : Nat},
      Relation.ReflTransGen (Edge (s.calling top i k node members).instantiated) found.id d →
        d ≠ top := by
    rintro d hreaches rfl
    obtain ⟨original, horiginal, hnode⟩ := hcall.instanceOf
    have hnow := (hcall.rounds.ahead i (Nat.le_refl i)).trans horiginal
    have hedge : (s.calling d i k node members).instantiated d i = some found.id := by
      rw [AST.instantiated, calling_instanceOf hnow, if_pos rfl, Option.bind_some, AST.moduleOf,
        calling_instance, Option.bind_some]
      change Option.map _ (s.network.modules.lookup _) = _
      rw [hcall.rounds.registered _ _ hcall.lookup]
      rfl
    exact hcircle ⟨found.id, .refl, .tail' hreaches ⟨i, hedge⟩⟩
  induction hreaches with
  | refl => exact ⟨hcall.known, hnot .refl⟩
  | tail hrest hedge ih =>
    refine ⟨?_, hnot (hrest.tail hedge)⟩
    obtain ⟨j, hj⟩ := hedge
    rw [hcall.instantiated_before ih.1 ih.2] at hj
    obtain ⟨inst, hinst, hmodule⟩ := Option.bind_eq_some_iff.mp hj
    obtain ⟨m, hm, hlt⟩ := hcall.names _ j inst hinst
    cases hm.symm.trans hmodule
    exact hlt

/-- A copy of the module of the instance mirrors what it instantiated before. -/
theorem TopCall.copied {s₂ : AST ς} {new : Nat} {newNode : ModuleNode}
    (hcopied : Copied (s.calling top i k node members) (s.calling top i k node members) found.id
      new newNode s₂) :
    Copied s₀ (s.calling top i k node members) found.id new newNode s₂ := by
  have hnew := hcopied.new_eq
  have hcircle := hcopied.mirrors.not_leadsToCircle
    (fun c hc i d hd => hcopied.linked.ascends (by omega) hd) (getElem?_lt hcopied.node)
  refine { hcopied with mirrors := hcopied.mirrors.congr (fun _ => rfl) (fun path => ?_) ?_ }
  · apply walk_congr
    intro d hreaches j
    obtain ⟨hlt, hother⟩ := hcall.apart hcircle hreaches
    exact (hcall.instantiated_before hlt hother j).symm
  · rintro c d - hreaches ⟨copy, original, count, hcopy, horiginal, hname⟩
    obtain ⟨hlt, hother⟩ := hcall.apart hcircle hreaches
    have hget := List.getElem?_eq_getElem hlt
    have hnow : (s.calling top i k node members).modules[d]? = some s₀.modules[d] :=
      calling_modules hother (hcall.rounds.modules d _ hother hget)
    cases hnow.symm.trans horiginal
    exact ⟨copy, _, count, hcopy, hget, hname⟩

omit hcall

theorem uniquifyTop_yields (steps : MemberSteps ς) (hnames : s₀.NamesModules) (hsound : Sound s₀)
    (hstack : s₀.clonedModules = []) {topNode : ModuleNode}
    (hnode : s₀.modules[top]? = some topNode) :
    Yields (fun fuel => uniquifyInstances steps (uniquify steps fuel) top) s₀
      (fun _ s' => Rounds s₀ top s₀ topNode.instances.length s') (CircleOrMembers steps s₀ top) := by
  have hmembers := circleOrMembers_tolerates steps s₀ top
  refine uniquifyInstances_yields hnode hsound ?_
  intro i hi s hrounds
  have hinst : s₀.instanceOf top i = some topNode.instances[i] := by
    rw [AST.instanceOf, hnode]
    exact List.getElem?_eq_getElem hi
  obtain ⟨node, found, hinode, hfound, hknown, hm⟩ := names_instance hnames hinst
  refine round_yields hmembers hrounds hinst hinode hfound ?_ ?_
  · intro hmem
    rw [hstack] at hmem
    cases hmem
  · intro hnew members
    have hcall : TopCall s₀ s top i node found := ⟨hnames, hrounds, ⟨_, hinst, hinode⟩, hfound, hknown⟩
    have hcalled : found.id < (s.calling top i found.id node members).modules.length := by
      have hle := hrounds.modules_le
      rw [calling_modules_length]
      omega
    have hpushed : OnStack (s.calling top i found.id node members) found.id [found.id] :=
      ⟨List.nodup_singleton _, List.forall_mem_singleton.mpr hcalled,
        List.forall_mem_singleton.mpr .refl⟩
    have hcloned : (s.calling top i found.id node members).clonedModules = [found.id] := by
      change found.id :: s.clonedModules = _
      rw [hrounds.clonedModules, hstack]
    refine (uniquify_yields hcall.namesModules steps hpushed hcalled (Extends.refl _)
      ⟨hrounds.sound.uniquifiedNamespace, hrounds.sound.free⟩ hcloned s.instances.length).mono ?_ ?_
    · rintro new s₂ ⟨newNode, hnewNode, hcopied⟩
      exact ⟨newNode, hnewNode, hcall.copied hcopied⟩
    · exact fun e hfailed => hfailed.imp hcall.circle

end Top

/-! ### The uniquified network -/

/-- Every path of instances leads to one module, which is named after the one it is copied from and is linked to the module and the instance that embed it. -/
structure Corresponds (ast ast' : AST ς) (top : Nat) : Prop where
  paths : ∀ i path, Option.Rel (CopyOf ast ast') (walk ast'.uniquified top (i :: path))
    (walk ast.instantiated top (i :: path))
  embedded : ∀ path i new, walk ast'.uniquified top (path ++ [i]) = some new →
    ∃ module inst node, walk ast'.uniquified top path = some module ∧
      ast'.instanceOf module i = some inst ∧ ast'.modules[new]? = some node ∧
      node.parentModule = some module ∧ node.fromInstance = some inst
  unique : ∀ path path' new, walk ast'.uniquified top path = some new →
    walk ast'.uniquified top path' = some new → path = path'

section Corresponds

variable {s₀ s' : AST ς} {top : Nat} {node : ModuleNode}

theorem Rounds.length {i : Nat} (hnode : s₀.modules[top]? = some node)
    (hrounds : Rounds s₀ top s₀ node.instances.length s') :
    (∃ inst, s'.instanceOf top i = some inst) ↔ i < node.instances.length := by
  obtain ⟨before, instances, hbefore, hnow, hlength⟩ := hrounds.node
  cases hnode.symm.trans hbefore
  rw [← hlength, AST.instanceOf, hnow]
  constructor
  · intro hinst
    obtain ⟨inst, hinst⟩ := hinst
    exact getElem?_lt hinst
  · intro hlt
    exact ⟨_, List.getElem?_eq_getElem hlt⟩

/-- All modules on a path are linked, and those behind the top module are new. -/
theorem Rounds.walk_linked (hnode : s₀.modules[top]? = some node)
    (hrounds : Rounds s₀ top s₀ node.instances.length s') {path : List Nat} {d : Nat}
    (hwalk : walk s'.uniquified top path = some d) :
    Linked s' s₀.instances.length d ∧ (path = [] ∧ d = top ∨ s₀.modules.length ≤ d) := by
  have hlength {i inst : Nat} (h : s'.instanceOf top i = some inst) : i < node.instances.length :=
    (hrounds.length hnode).mp ⟨inst, h⟩
  induction path using List.reverseRecOn generalizing d with
  | nil =>
    cases hwalk
    refine ⟨⟨fun i inst hinst => ?_, fun i j inst hi hj => ?_⟩, .inl ⟨rfl, rfl⟩⟩
    · obtain ⟨hlow, new, m, -, hlinked, -⟩ := hrounds.behind i inst (hlength hinst) hinst
      exact ⟨hlow, new, hlinked⟩
    · exact hrounds.separate i j inst (hlength hi) (hlength hj) hi hj
  | append_singleton path i ih =>
    obtain ⟨b, hpath, hlast⟩ := walk_concat hwalk
    obtain ⟨hlinked, hplace⟩ := ih hpath
    obtain ⟨hlt, hknown⟩ := hlinked.ascends hlast
    have hnew : s₀.modules.length ≤ d := by
      rcases hplace with ⟨-, rfl⟩ | hle
      · obtain ⟨inst, hinst, huniquified⟩ := Option.bind_eq_some_iff.mp hlast
        obtain ⟨-, new, m, hle, hlink, -⟩ := hrounds.behind i inst (hlength hinst) hinst
        cases hlink.uniquified.symm.trans huniquified
        exact hle
      · omega
    exact ⟨hrounds.linked d hnew hknown, .inr hnew⟩

/-- The instances of the top module, with what they name and the modules made for them. -/
theorem Rounds.top_instance (hnode : s₀.modules[top]? = some node)
    (hrounds : Rounds s₀ top s₀ node.instances.length s') (i : Nat) :
    Option.Rel (Mirrors (CopyOf s₀ s') s'.uniquified s₀.instantiated) (s'.uniquified top i)
      (s₀.instantiated top i) := by
  cases hinst : s'.instanceOf top i with
  | none =>
    have hge : ¬i < node.instances.length := by
      rw [← hrounds.length hnode]
      rintro ⟨inst, h⟩
      cases hinst.symm.trans h
    have hnone : s₀.instanceOf top i = none := by
      rw [AST.instanceOf, hnode]
      exact List.getElem?_eq_none (Nat.not_lt.mp hge)
    rw [AST.uniquified, AST.instantiated, hinst, hnone]
    exact .none
  | some inst =>
    obtain ⟨-, new, m, -, hlinked, hm, hmirrors⟩ := hrounds.behind i inst
      ((hrounds.length hnode).mp ⟨inst, hinst⟩) hinst
    rw [AST.uniquified, hinst, Option.bind_some, hlinked.uniquified, hm]
    exact .some hmirrors

theorem Rounds.corresponds (hnode : s₀.modules[top]? = some node)
    (hrounds : Rounds s₀ top s₀ node.instances.length s') : Corresponds s₀ s' top := by
  constructor
  · intro i path
    have htop := hrounds.top_instance hnode i
    rw [walk, walk]
    generalize s'.uniquified top i = new, s₀.instantiated top i = m at htop
    cases htop with
    | none => exact .none
    | some hmirrors => exact hmirrors path
  · intro path i new hwalk
    obtain ⟨d, hpath, hlast⟩ := walk_concat hwalk
    obtain ⟨inst, hinst, huniquified⟩ := Option.bind_eq_some_iff.mp hlast
    obtain ⟨-, new', hlinked⟩ := (hrounds.walk_linked hnode hpath).1.instances i inst hinst
    cases hlinked.uniquified.symm.trans huniquified
    obtain ⟨newNode, hnewNode, hparent, hfrom⟩ := hlinked.node
    exact ⟨d, inst, newNode, hpath, hinst, hnewNode, hparent, hfrom⟩
  · intro path path' new hwalk hwalk'
    have hmodule := hrounds.module_lt
    induction path using List.reverseRecOn generalizing path' new with
    | nil =>
      cases hwalk
      rcases (hrounds.walk_linked hnode hwalk').2 with ⟨rfl, -⟩ | hle
      · rfl
      · omega
    | append_singleton path i ih =>
      obtain ⟨d, hpath, hlast⟩ := walk_concat hwalk
      obtain ⟨inst, hinst, huniquified⟩ := Option.bind_eq_some_iff.mp hlast
      have hlinkedFrom := (hrounds.walk_linked hnode hpath).1
      obtain ⟨-, new', hlinked⟩ := hlinkedFrom.instances i inst hinst
      cases hlinked.uniquified.symm.trans huniquified
      rcases List.eq_nil_or_concat' path' with rfl | ⟨before, j, rfl⟩
      · cases hwalk'
        rcases (hrounds.walk_linked hnode hwalk).2 with ⟨h, -⟩ | hle
        · cases List.append_ne_nil_of_right_ne_nil _ (List.cons_ne_nil _ _) h
        · omega
      · obtain ⟨d', hpath', hlast'⟩ := walk_concat hwalk'
        obtain ⟨inst', hinst', huniquified'⟩ := Option.bind_eq_some_iff.mp hlast'
        obtain ⟨-, new'', hlinked'⟩ :=
          (hrounds.walk_linked hnode hpath').1.instances j inst' hinst'
        cases hlinked'.uniquified.symm.trans huniquified'
        -- the links of the module tell the path to it
        obtain ⟨newNode, hnewNode, hparent, hfrom⟩ := hlinked.node
        obtain ⟨newNode', hnewNode', hparent', hfrom'⟩ := hlinked'.node
        cases hnewNode.symm.trans hnewNode'
        cases hparent.symm.trans hparent'
        cases hfrom.symm.trans hfrom'
        rw [ih before d hpath hpath', hlinkedFrom.separate i j inst hinst hinst']

/-- A circle is never uniquified. -/
theorem Rounds.not_circle (hnode : s₀.modules[top]? = some node)
    (hrounds : Rounds s₀ top s₀ node.instances.length s') :
    ¬LeadsToCircle s₀.instantiated top := by
  intro hcircle
  obtain ⟨m, ⟨i, hm⟩, hrest⟩ := hcircle.successor
  have htop := hrounds.top_instance hnode i
  cases hnew : s'.uniquified top i with
  | none =>
    rw [hnew, hm] at htop
    cases htop
  | some new =>
    rw [hnew, hm] at htop
    cases htop with
    | some hmirrors =>
      have hpath : walk s'.uniquified top [i] = some new := by
        rw [walk, hnew]
        rfl
      obtain ⟨hlinked, hplace⟩ := hrounds.walk_linked hnode hpath
      have hlow : s₀.modules.length ≤ new := by
        rcases hplace with ⟨h, -⟩ | hle
        · cases h
        · exact hle
      have hstart : walk s'.uniquified top [] = some top := rfl
      have hknown := ((hrounds.walk_linked hnode hstart).1.ascends hnew).2
      exact hmirrors.not_leadsToCircle
        (fun c hc j d hd => hrounds.linked.ascends (by omega) hd) hknown hrest

end Corresponds

/-! ### The outcome -/

/-- No module is declared in the uniquified namespace under a name that a copy might get. -/
def AST.NothingReserved (ast : AST ς) : Prop :=
  ∀ moduleNamespace name module,
    ast.network.modules.lookup (moduleNamespace, name) = some module →
      moduleNamespace.name = uniquifiedModules → ∀ original k, name ≠ uniquifiedName original k

theorem createNamespace_yields {failed : Option Error → Prop} (name : String) (ast : AST ς) :
    Yields (fun _ => createNamespace name) ast (fun moduleNamespace ast' =>
      moduleNamespace.name = name ∧ ∃ namespaces, ast' = { ast with namespaces }) failed := by
  unfold createNamespace
  apply Yields.get
  cases hfind : ast.namespaces.find? (·.name = name) with
  | some moduleNamespace =>
    have hname := List.find?_some hfind
    exact Yields.pure ⟨of_decide_eq_true hname, ast.namespaces, rfl⟩
  | none =>
    refine Yields.next (Yields.set ⟨rfl, rfl⟩) ?_
    exact Yields.pure ⟨rfl, _, rfl⟩

/-- Uniquification ends, unless a step on members never does. Unless resolving the members of a node throws, it throws for a circular dependency exactly when the top module leads to one. Otherwise every instance path has its module. -/
theorem uniquifyNetwork_outcome (steps : MemberSteps ς) (ast : AST ς) (top : TopModule.Module)
    (htop : ast.network.topModule = some top) (hknown : top.id < ast.modules.length)
    (hnames : ast.NamesModules) (hreserved : ast.NothingReserved) :
    (Eventually (run (uniquifyNetwork steps) ast) none ∧
        ∃ step members, steps step members = none) ∨
      ∃ result, Ends (run (uniquifyNetwork steps) ast) result ∧
        ((∃ fault, result = .error (.members fault)) ∨
          ((∃ message, result = .error (.circularDependency message)) ↔
              LeadsToCircle ast.instantiated top.id) ∧
            (¬LeadsToCircle ast.instantiated top.id →
              ∃ ast', result = .ok ((), ast') ∧ Corresponds ast ast' top.id)) := by
  have hyields : Yields (uniquifyNetwork steps) ast
      (fun _ ast' => ¬LeadsToCircle ast.instantiated top.id ∧ Corresponds ast ast' top.id)
      (CircleOrMembers steps ast top.id) := by
    unfold uniquifyNetwork
    refine Yields.bind (createNamespace_yields _ _) ?_
    rintro moduleNamespace _ ⟨hname, namespaces, rfl⟩
    refine Yields.next (Yields.modifies ⟨rfl, rfl⟩) ?_
    apply Yields.get
    have htop' : Network.topModule { ast.network with
        uniquifiedNamespace := some moduleNamespace } = some top := htop
    simp only [htop']
    unfold uniquifyAsTop
    refine Yields.next (Yields.modifies ⟨rfl, rfl⟩) ?_
    refine Yields.bind (onMembers_yields (circleOrMembers_tolerates steps ast top.id) _ _) ?_
    rintro _ _ ⟨members, rfl⟩
    let s₀ : AST ς := ⟨ast.modules, ast.instances, namespaces,
      { ast.network with uniquifiedNamespace := some moduleNamespace }, moduleNamespace,
      ast.uniqueIdCounter, [], members⟩
    have hnames₀ : s₀.NamesModules := hnames
    have hsound : Sound s₀ := by
      refine ⟨rfl, fun name k _ => ?_⟩
      by_contra hregistered
      obtain ⟨module, hmodule⟩ := Option.ne_none_iff_exists'.mp hregistered
      exact hreserved moduleNamespace _ module hmodule hname name k rfl
    have hnode : s₀.modules[top.id]? = some ast.modules[top.id] := List.getElem?_eq_getElem hknown
    refine (uniquifyTop_yields steps hnames₀ hsound rfl hnode).mono ?_ fun _ h => h
    intro _ s' hrounds
    have hcircle : ¬LeadsToCircle s₀.instantiated top.id := hrounds.not_circle hnode
    obtain ⟨hpaths, hembedded, hunique⟩ := hrounds.corresponds hnode
    exact ⟨hcircle, hpaths, hembedded, hunique⟩
  obtain ⟨outcome, hrun, hallowed⟩ := hyields
  match outcome, hallowed with
  | none, hnever => exact .inl ⟨hrun, hnever⟩
  | some (.ok ((), ast')), ⟨hcircle, hcorresponds⟩ =>
    refine .inr ⟨_, hrun, .inr ⟨⟨?_, fun h => absurd h hcircle⟩, fun _ => ⟨ast', rfl, hcorresponds⟩⟩⟩
    rintro ⟨message, hmessage⟩
    cases hmessage
  | some (.error e), .inl ⟨fault, hfault⟩ => exact .inr ⟨_, hrun, .inl ⟨fault, congrArg _ hfault⟩⟩
  | some (.error e), .inr ⟨⟨message, hmessage⟩, hcircle⟩ =>
    refine .inr ⟨_, hrun, .inr ⟨⟨fun _ => hcircle, fun _ => ⟨message, congrArg _ hmessage⟩⟩, ?_⟩⟩
    exact fun h => absurd hcircle h

/-! ### More fuel -/

theorem uniquifyInstance_below (steps : MemberSteps ς) {u u' : (module inst : Nat) → Action ς Nat}
    (hbelow : ∀ module inst, Below (u module inst) (u' module inst)) (module i : Nat) :
    Below (uniquifyInstance steps u module i) (uniquifyInstance steps u' module i) := by
  unfold uniquifyInstance
  refine .bind (.refl _) fun original => .bind (.refl _) fun inst => .bind (.refl _) fun _ =>
    .bind (.refl _) fun _ => .bind (.refl _) fun node => .bind (.refl _) fun instanceModule =>
    .bind (.refl _) fun _ => .bind (hbelow _ _) fun newModule => .refl _

theorem uniquify_below (steps : MemberSteps ς) (fuel module inst : Nat) :
    Below (uniquify steps fuel module inst) (uniquify steps (fuel + 1) module inst) := by
  induction fuel generalizing module inst with
  | zero =>
    intro s result hrun
    cases hrun
  | succ fuel ih =>
    rw [uniquify, uniquify]
    refine .bind (.refl _) fun clone => .bind (.refl _) fun _ => .bind ?_ fun _ => .refl _
    exact .bind (.refl _) fun node => .forM (uniquifyInstance_below steps ih clone) _

theorem uniquifyNetwork_below (steps : MemberSteps ς) (fuel : Nat) :
    Below (uniquifyNetwork steps fuel) (uniquifyNetwork steps (fuel + 1)) := by
  unfold uniquifyNetwork
  refine .bind (.refl _) fun _ => .bind (.refl _) fun _ => .bind (.refl _) fun ast => ?_
  cases ast.network.topModule with
  | none => exact .refl _
  | some top =>
    refine .bind (.refl _) fun _ => .bind (.refl _) fun _ => .bind (.refl _) fun node => ?_
    exact .forM (uniquifyInstance_below steps (uniquify_below steps fuel) top.id) _

/-! ### Networks -/

/-- Members that are left as they are. -/
def noMembers : MemberSteps Unit :=
  fun _ members => some (.ok members)

def rootNamespace : Namespace := ⟨0, ""⟩

def reservedNamespace : Namespace := ⟨1, uniquifiedModules⟩

/-- A top module with an instance of a module `A` without instances, and one of another module, which has one instance itself. -/
def smallNetwork (second below : ModuleIdentifier) : AST Unit where
  modules := [⟨"T", false, [0, 1], none, none⟩, ⟨"A", false, [], none, none⟩,
    ⟨second.name, false, [2], none, none⟩]
  instances := [⟨⟨rootNamespace, "A"⟩, none⟩, ⟨second, none⟩, ⟨below, none⟩]
  namespaces := [rootNamespace, reservedNamespace]
  network :=
    { modules := ((Finmap.singleton (rootNamespace, "T") ⟨0, "T", false⟩).insert
        (rootNamespace, "A") ⟨1, "A", false⟩).insert (second.moduleNamespace, second.name)
          ⟨2, second.name, false⟩
      top := none
      first := some ⟨0, "T", false⟩
      uniquifiedNamespace := none }
  uniquifiedNamespace := rootNamespace
  uniqueIdCounter := 0
  clonedModules := []
  members := ()

theorem namesModules_of_mem {ast : AST ς} (hall : ∀ node ∈ ast.modules, ∀ inst ∈ node.instances,
    (ast.moduleOf inst).any (· < ast.modules.length) = true) : ast.NamesModules := by
  intro module i inst hinst
  obtain ⟨node, hnode, hget⟩ := Option.bind_eq_some_iff.mp hinst
  have hany := hall node (List.mem_of_getElem? hnode) inst (List.mem_of_getElem? hget)
  obtain ⟨m, hm, hlt⟩ := (Option.any_eq_true _ _).mp hany
  exact ⟨m, hm, of_decide_eq_true hlt⟩

theorem nothingReserved_of_keys {ast : AST ς}
    (hall : ∀ key ∈ ast.network.modules.keys, key.1.name ≠ uniquifiedModules) :
    ast.NothingReserved := by
  intro moduleNamespace name module hmodule hname
  have hmem : (moduleNamespace, name) ∈ ast.network.modules.keys := by
    rw [Finmap.mem_keys, ← Finmap.lookup_isSome, hmodule]
    rfl
  exact absurd hname (hall _ hmem)

/-- The module `A` is instantiated twice, once below `B`. -/
theorem uniquifyNetwork_diamond : ∃ result,
    Ends (run (uniquifyNetwork noMembers)
      (smallNetwork ⟨rootNamespace, "B"⟩ ⟨rootNamespace, "A"⟩)) result ∧
      ((∃ fault, result = .error (.members fault)) ∨
        ((∃ message, result = .error (.circularDependency message)) ↔
            LeadsToCircle (smallNetwork ⟨rootNamespace, "B"⟩ ⟨rootNamespace, "A"⟩).instantiated 0) ∧
          (¬LeadsToCircle
              (smallNetwork ⟨rootNamespace, "B"⟩ ⟨rootNamespace, "A"⟩).instantiated 0 →
            ∃ ast', result = .ok ((), ast') ∧
              Corresponds (smallNetwork ⟨rootNamespace, "B"⟩ ⟨rootNamespace, "A"⟩) ast' 0)) := by
  refine (uniquifyNetwork_outcome noMembers (smallNetwork ⟨rootNamespace, "B"⟩ ⟨rootNamespace, "A"⟩)
    ⟨0, "T", false⟩ rfl (by decide) (namesModules_of_mem (by decide +kernel))
    (nothingReserved_of_keys (by decide +kernel))).resolve_left ?_
  rintro ⟨-, step, members, hnone⟩
  cases hnone

/-- A circular dependency is thrown exactly for circles. -/
def RejectsCircles (steps : MemberSteps ς) (ast : AST ς) (top : Nat) : Prop :=
  ∃ result, Ends (run (uniquifyNetwork steps) ast) result ∧
    ((∃ message, result = .error (.circularDependency message)) ↔ LeadsToCircle ast.instantiated top)

/-- The copy of `A` replaces the module declared as `A__uniquified__1` in the uniquified namespace, which instantiates itself, so that nothing is thrown. And what the members of the top module throw comes before any circle is found, and so does a step on them that never ends. -/
theorem not_rejectsCircles :
    (¬∀ (ast : AST Unit) (top : TopModule.Module), ast.network.topModule = some top →
      top.id < ast.modules.length → ast.NamesModules → RejectsCircles noMembers ast top.id) ∧
    (¬∀ (steps : MemberSteps Unit) (ast : AST Unit) (top : TopModule.Module),
      ast.network.topModule = some top → top.id < ast.modules.length → ast.NamesModules →
        ast.NothingReserved → (∀ step members, steps step members ≠ none) →
          RejectsCircles steps ast top.id) ∧
    ¬∀ (steps : MemberSteps Unit) (ast : AST Unit) (top : TopModule.Module),
      ast.network.topModule = some top → top.id < ast.modules.length → ast.NamesModules →
        ast.NothingReserved → ∃ result, Ends (run (uniquifyNetwork steps) ast) result := by
  refine ⟨?_, ?_, ?_⟩
  · intro hall
    let taken : ModuleIdentifier := ⟨reservedNamespace, "A__uniquified__1"⟩
    obtain ⟨result, hends, hiff⟩ := hall (smallNetwork taken taken) ⟨0, "T", false⟩ rfl
      (by decide) (namesModules_of_mem (by decide +kernel))
    have hself : (smallNetwork taken taken).instantiated 2 0 = some 2 := by decide +kernel
    have hcircle : LeadsToCircle (smallNetwork taken taken).instantiated 0 :=
      ⟨2, .single ⟨1, by decide +kernel⟩, .single ⟨0, hself⟩⟩
    obtain ⟨message, rfl⟩ := hiff.mpr hcircle
    have hreturns : ((run (uniquifyNetwork noMembers) (smallNetwork taken taken) 3).map
        Except.isOk) = some true := by decide +kernel
    obtain ⟨result, hrun, hok⟩ := Option.map_eq_some_iff.mp hreturns
    have hboth := hends.unique (ends_of_below (uniquifyNetwork_below noMembers) hrun)
    rw [← hboth] at hok
    cases hok
  · intro hall
    let unresolved : MemberSteps Unit := fun step members =>
      match step with
      | .joinTop _ => some (.error (.runtimeError
          "Parameter reference \"W\" cannot be resolved with a parameter value"))
      | _ => some (.ok members)
    let b : ModuleIdentifier := ⟨rootNamespace, "B"⟩
    obtain ⟨result, hends, hiff⟩ := hall unresolved (smallNetwork b b) ⟨0, "T", false⟩ rfl
      (by decide) (namesModules_of_mem (by decide +kernel))
      (nothingReserved_of_keys (by decide +kernel)) fun step _ => by
        cases step <;> nofun
    have hself : (smallNetwork b b).instantiated 2 0 = some 2 := by decide +kernel
    have hcircle : LeadsToCircle (smallNetwork b b).instantiated 0 :=
      ⟨2, .single ⟨1, by decide +kernel⟩, .single ⟨0, hself⟩⟩
    obtain ⟨message, rfl⟩ := hiff.mpr hcircle
    have hthrows : (run (uniquifyNetwork unresolved) (smallNetwork b b) 0).map
        (fun result => match result with
          | .error (.members _) => true
          | _ => false) = some true := by decide +kernel
    obtain ⟨result, hrun, hmembers⟩ := Option.map_eq_some_iff.mp hthrows
    have hboth := hends.unique (ends_of_below (uniquifyNetwork_below unresolved) hrun)
    rw [← hboth] at hmembers
    cases hmembers
  · intro hall
    let b : ModuleIdentifier := ⟨rootNamespace, "B"⟩
    obtain ⟨result, enough, hends⟩ := hall (fun _ _ => none) (smallNetwork b b) ⟨0, "T", false⟩ rfl
      (by decide) (namesModules_of_mem (by decide +kernel))
      (nothingReserved_of_keys (by decide +kernel))
    cases hends enough (Nat.le_refl _)

end ModuleCopies

end Mast
