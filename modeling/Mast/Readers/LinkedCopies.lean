import Mast.Readers.ModuleCopies

/-!
# Linked copies

The copies that are made are linked to the instances and modules that embed them, and have higher numbers than these. Walking along the links mirrors the instances of the modules they are copied from. Both last while further nodes are added.
-/

namespace Mast

namespace ModuleCopies

open LabelledPaths

variable {ς : Type}

namespace AST

def moduleOf (ast : AST ς) (inst : Nat) : Option Nat :=
  (ast.instances[inst]?).bind fun node =>
    (ast.network.modules.lookup (node.moduleIdentifier.moduleNamespace, node.moduleIdentifier.name)).map
      (·.id)

def instanceOf (ast : AST ς) (module i : Nat) : Option Nat :=
  (ast.modules[module]?).bind (·.instances[i]?)

def instantiated (ast : AST ς) (module i : Nat) : Option Nat :=
  (ast.instanceOf module i).bind ast.moduleOf

def uniquifiedModule (ast : AST ς) (inst : Nat) : Option Nat :=
  (ast.instances[inst]?).bind (·.uniquifiedModule)

def uniquified (ast : AST ς) (module i : Nat) : Option Nat :=
  (ast.instanceOf module i).bind ast.uniquifiedModule

def NamesModules (ast : AST ς) : Prop :=
  ∀ module i inst, ast.instanceOf module i = some inst →
    ∃ m, ast.moduleOf inst = some m ∧ m < ast.modules.length

end AST

/-- What later states keep. -/
structure Extends (s s' : AST ς) : Prop where
  modules : ∀ (m : Nat) node, s.modules[m]? = some node → s'.modules[m]? = some node
  instances : ∀ (inst : Nat) node, s.instances[inst]? = some node → s'.instances[inst]? = some node
  registered : ∀ key module, s.network.modules.lookup key = some module →
    s'.network.modules.lookup key = some module

/-- Names of copies to come are free. -/
structure Sound (s : AST ς) : Prop where
  uniquifiedNamespace : s.network.uniquifiedNamespace = some s.uniquifiedNamespace
  free : ∀ name k, s.uniqueIdCounter < k →
    s.network.modules.lookup (s.uniquifiedNamespace, uniquifiedName name k) = none

/-- An instance with the module made for it. -/
structure LinkedInstance (s : AST ς) (module inst new : Nat) : Prop where
  uniquified : s.uniquifiedModule inst = some new
  moduleOf : s.moduleOf inst = some new
  ascends : module < new
  node : ∃ node, s.modules[new]? = some node ∧ node.parentModule = some module ∧
    node.fromInstance = some inst

/-- A module all of whose instances have modules made for them, instances below `low` excluded. -/
structure Linked (s : AST ς) (low module : Nat) : Prop where
  instances : ∀ i inst, s.instanceOf module i = some inst →
    low ≤ inst ∧ ∃ new, LinkedInstance s module inst new
  separate : ∀ i j inst, s.instanceOf module i = some inst → s.instanceOf module j = some inst → i = j

/-- A module that is named after another one. -/
def CopyOf (b s : AST ς) (copy module : Nat) : Prop :=
  ∃ node node' k, s.modules[copy]? = some node ∧ b.modules[module]? = some node' ∧
    node.name = uniquifiedName node'.name k

variable {b s s' : AST ς}

/-! ### Extensions -/

theorem getElem?_lt {α : Type} {l : List α} {i : Nat} {a : α} (h : l[i]? = some a) : i < l.length :=
  (List.getElem?_eq_some_iff.mp h).1

namespace Extends

theorem refl (s : AST ς) : Extends s s := ⟨fun _ _ h => h, fun _ _ h => h, fun _ _ h => h⟩

theorem trans {s'' : AST ς} (h : Extends s s') (h' : Extends s' s'') : Extends s s'' where
  modules m node hm := h'.modules m node (h.modules m node hm)
  instances inst node hm := h'.instances inst node (h.instances inst node hm)
  registered key module hm := h'.registered key module (h.registered key module hm)

theorem modules_le (h : Extends s s') : s.modules.length ≤ s'.modules.length := by
  by_contra hlt
  have hget := List.getElem?_eq_getElem (Nat.lt_of_not_le hlt)
  have hget' := getElem?_lt (h.modules _ _ hget)
  exact absurd hget' (Nat.lt_irrefl _)

theorem instances_le (h : Extends s s') : s.instances.length ≤ s'.instances.length := by
  by_contra hlt
  have hget := List.getElem?_eq_getElem (Nat.lt_of_not_le hlt)
  have hget' := getElem?_lt (h.instances _ _ hget)
  exact absurd hget' (Nat.lt_irrefl _)

theorem moduleOf (h : Extends s s') {inst m : Nat} (hmodule : s.moduleOf inst = some m) :
    s'.moduleOf inst = some m := by
  obtain ⟨node, hnode, hlookup⟩ := Option.bind_eq_some_iff.mp hmodule
  obtain ⟨module, hfound, rfl⟩ := Option.map_eq_some_iff.mp hlookup
  rw [AST.moduleOf, h.instances _ _ hnode, Option.bind_some, h.registered _ _ hfound]
  rfl

theorem instanceOf (h : Extends s s') {module : Nat} (hmodule : module < s.modules.length) (i : Nat) :
    s'.instanceOf module i = s.instanceOf module i := by
  have hget := List.getElem?_eq_getElem hmodule
  rw [AST.instanceOf, AST.instanceOf, hget, h.modules _ _ hget]

end Extends

theorem instanceOf_lt {module i inst : Nat} (hinst : s.instanceOf module i = some inst) :
    module < s.modules.length := by
  obtain ⟨node, hnode, -⟩ := Option.bind_eq_some_iff.mp hinst
  exact getElem?_lt hnode

/-! ### Links that last -/

theorem LinkedInstance.lasts {module inst new : Nat} (hlinked : LinkedInstance s module inst new)
    (hinstances : ∀ node, s.instances[inst]? = some node → s'.instances[inst]? = some node)
    (hregistered : ∀ key module, s.network.modules.lookup key = some module →
      s'.network.modules.lookup key = some module)
    (hmodules : ∀ node, s.modules[new]? = some node → s'.modules[new]? = some node) :
    LinkedInstance s' module inst new := by
  obtain ⟨inode, hinode, hlookup⟩ := Option.bind_eq_some_iff.mp hlinked.moduleOf
  obtain ⟨found, hfound, hid⟩ := Option.map_eq_some_iff.mp hlookup
  have huniquified := hlinked.uniquified
  rw [AST.uniquifiedModule, hinode] at huniquified
  obtain ⟨node, hnode, hparent, hfrom⟩ := hlinked.node
  refine ⟨?_, ?_, hlinked.ascends, node, hmodules node hnode, hparent, hfrom⟩
  · rw [AST.uniquifiedModule, hinstances inode hinode]
    exact huniquified
  · rw [AST.moduleOf, hinstances inode hinode, Option.bind_some, hregistered _ _ hfound]
    exact congrArg some hid

theorem Linked.lasts {low module : Nat} (hlinked : Linked s low module)
    (hsame : ∀ i, s'.instanceOf module i = s.instanceOf module i)
    (hinstances : ∀ (inst : Nat) node, low ≤ inst → s.instances[inst]? = some node →
      s'.instances[inst]? = some node)
    (hregistered : ∀ key module, s.network.modules.lookup key = some module →
      s'.network.modules.lookup key = some module)
    (hmodules : ∀ (m : Nat) node, module < m → s.modules[m]? = some node → s'.modules[m]? = some node) :
    Linked s' low module := by
  constructor
  · intro i inst hinst
    rw [hsame] at hinst
    obtain ⟨hlow, new, hnew⟩ := hlinked.instances i inst hinst
    exact ⟨hlow, new, hnew.lasts (fun node => hinstances inst node hlow) hregistered
      fun node => hmodules new node hnew.ascends⟩
  · intro i j inst hi hj
    rw [hsame] at hi hj
    exact hlinked.separate i j inst hi hj

theorem Linked.mono {low low' module : Nat} (hlinked : Linked s low' module) (hle : low ≤ low') :
    Linked s low module where
  instances i inst hinst := by
    obtain ⟨hlow, hnew⟩ := hlinked.instances i inst hinst
    exact ⟨Nat.le_trans hle hlow, hnew⟩
  separate := hlinked.separate

/-- The module made for the instance at a place of a linked module. -/
theorem Linked.uniquified {low module i inst : Nat} (hlinked : Linked s low module)
    (hinst : s.instanceOf module i = some inst) :
    ∃ new, s.uniquified module i = some new ∧ LinkedInstance s module inst new := by
  obtain ⟨-, new, hnew⟩ := hlinked.instances i inst hinst
  refine ⟨new, ?_, hnew⟩
  rw [AST.uniquified, hinst]
  exact hnew.uniquified

theorem Linked.ascends {low module i new : Nat} (hlinked : Linked s low module)
    (hnew : s.uniquified module i = some new) : module < new ∧ new < s.modules.length := by
  obtain ⟨inst, hinst, huniquified⟩ := Option.bind_eq_some_iff.mp hnew
  obtain ⟨-, new', hlink⟩ := hlinked.instances i inst hinst
  cases huniquified.symm.trans hlink.uniquified
  obtain ⟨node, hnode, -⟩ := hlink.node
  exact ⟨hlink.ascends, getElem?_lt hnode⟩

/-- All modules from a number on are linked. -/
def LinkedFrom (s : AST ς) (lowInstance low : Nat) : Prop :=
  ∀ d, low ≤ d → d < s.modules.length → Linked s lowInstance d

theorem LinkedFrom.ascends {lowInstance low d i new : Nat} (hlinked : LinkedFrom s lowInstance low)
    (hd : low ≤ d) (hnew : s.uniquified d i = some new) : d < new ∧ new < s.modules.length := by
  obtain ⟨inst, hinst, -⟩ := Option.bind_eq_some_iff.mp hnew
  exact (hlinked d hd (instanceOf_lt hinst)).ascends hnew

theorem LinkedFrom.reaches {lowInstance low d e : Nat} (hlinked : LinkedFrom s lowInstance low)
    (hd : low ≤ d) (hreaches : Relation.ReflTransGen (Edge s.uniquified) d e) : low ≤ e := by
  induction hreaches with
  | refl => exact hd
  | tail _ hedge ih =>
    obtain ⟨i, hnew⟩ := hedge
    exact Nat.le_trans ih (Nat.le_of_lt (hlinked.ascends ih hnew).1)

/-- What mirrors the instances goes on to. -/
theorem mirrors_lasts {lowInstance low copy module : Nat} (hlinked : LinkedFrom s lowInstance low)
    (hnodes : ∀ (d : Nat) node, low ≤ d → s.modules[d]? = some node →
      ∃ node', s'.modules[d]? = some node' ∧ node'.instances = node.instances ∧
        node'.name = node.name)
    (hinstances : ∀ (inst : Nat) node, lowInstance ≤ inst → s.instances[inst]? = some node →
      s'.instances[inst]? = some node)
    (hcopy : low ≤ copy) (hknown : copy < s.modules.length)
    (hmirrors : Mirrors (CopyOf b s) s.uniquified b.instantiated copy module) :
    Mirrors (CopyOf b s') s'.uniquified b.instantiated copy module := by
  have hsame : ∀ d, low ≤ d → d < s.modules.length → ∀ i, s'.uniquified d i = s.uniquified d i := by
    intro d hd hlt i
    obtain ⟨node', hnode', hsameInstances, -⟩ := hnodes d _ hd (List.getElem?_eq_getElem hlt)
    have hinstanceOf : s'.instanceOf d i = s.instanceOf d i := by
      rw [AST.instanceOf, AST.instanceOf, hnode', List.getElem?_eq_getElem hlt, Option.bind_some,
        hsameInstances]
      rfl
    rw [AST.uniquified, AST.uniquified, hinstanceOf]
    cases hinst : s.instanceOf d i with
    | none => rfl
    | some inst =>
      obtain ⟨hlow, new, hnew⟩ := (hlinked d hd hlt).instances i inst hinst
      obtain ⟨inode, hinode, -⟩ := Option.bind_eq_some_iff.mp hnew.uniquified
      rw [Option.bind_some, Option.bind_some, AST.uniquifiedModule, AST.uniquifiedModule, hinode,
        hinstances inst inode hlow hinode]
  have hreached : ∀ d, Relation.ReflTransGen (Edge s.uniquified) copy d → d < s.modules.length := by
    intro d hreaches
    rcases Relation.ReflTransGen.cases_tail hreaches with rfl | ⟨e, he, i, hnew⟩
    · exact hknown
    · exact (hlinked.ascends (hlinked.reaches hcopy he) hnew).2
  refine hmirrors.congr (fun path => ?_) (fun _ => rfl) ?_
  · exact walk_congr (fun d hd i => hsame d (hlinked.reaches hcopy hd) (hreached d hd) i) path
  · rintro d m hd - ⟨node, original, k, hnode, horiginal, hname⟩
    obtain ⟨node', hnode', -, hsameName⟩ := hnodes d node (hlinked.reaches hcopy hd) hnode
    exact ⟨node', original, k, hnode', horiginal, hsameName.trans hname⟩

end ModuleCopies

end Mast
