import Mathlib
import Mast.Readers.CopyRounds

/-!
# The modules below an instance

Uniquifying the module of an instance ends. It goes no further down than the modules that the stack does not have, and when it comes to one that the stack has, there is a circle. Otherwise it leaves a copy that mirrors what the module instantiates.
-/

namespace Mast

namespace ModuleCopies

open LabelledPaths Program

variable {ς : Type}

/-! ### Names of copies -/

theorem eq_of_append_separator {α : Type} [DecidableEq α] {separator : α} {l l' d d' : List α}
    (hd : separator ∉ d) (hd' : separator ∉ d')
    (heq : l ++ separator :: d = l' ++ separator :: d') : d = d' := by
  have hlast : ∀ l d : List α, separator ∉ d →
      (l ++ separator :: d).reverse.takeWhile (· ≠ separator) = d.reverse := by
    intro l d hd
    rw [List.reverse_append, List.reverse_cons, List.append_assoc, List.takeWhile_append_of_pos]
    · simp
    · intro a ha
      have hne : a ≠ separator := fun h => hd (h ▸ List.mem_reverse.mp ha)
      simpa using hne
  have hboth := hlast l d hd
  rw [heq, hlast l' d' hd'] at hboth
  exact (List.reverse_injective hboth).symm

theorem uniquifiedName_counter {name name' : String} {k k' : Nat}
    (heq : uniquifiedName name k = uniquifiedName name' k') : k = k' := by
  have hlist : ∀ (name : String) (k : Nat), (uniquifiedName name k).toList =
      (name.toList ++ "__uniquified_".toList) ++ '_' :: Nat.toDigits 10 k := by
    intro name k
    simp [uniquifiedName]
  have hdigits := congrArg String.toList heq
  rw [hlist, hlist] at hdigits
  have hsame := eq_of_append_separator Nat.underscore_not_in_toDigits
    Nat.underscore_not_in_toDigits hdigits
  apply Nat.repr_injective
  rw [← String.toList_inj]
  simpa using hsame

/-! ### A copied module -/

section Copy

variable {b s : AST ς} {node : ModuleNode} {network : TopModule.Network} {members : ς}

theorem withCopy_sound (hsound : Sound s)
    (hmodules : network.modules = s.network.modules.insert
      (s.uniquifiedNamespace, uniquifiedName node.name (s.uniqueIdCounter + 1))
      ⟨s.modules.length, uniquifiedName node.name (s.uniqueIdCounter + 1), node.hasAccessLink⟩)
    (huniquified : network.uniquifiedNamespace = s.network.uniquifiedNamespace) :
    Sound (s.withCopy node network members) := by
  refine ⟨huniquified.trans hsound.uniquifiedNamespace, fun name k hk => ?_⟩
  have hk : s.uniqueIdCounter + 1 < k := hk
  change network.modules.lookup (s.uniquifiedNamespace, uniquifiedName name k) = none
  rw [hmodules, Finmap.lookup_insert_of_ne]
  · exact hsound.free name k (by omega)
  · intro hsame
    have hcounter := uniquifiedName_counter (congrArg Prod.snd hsame)
    omega

theorem withCopy_grows (hsound : Sound s)
    (hmodules : network.modules = s.network.modules.insert
      (s.uniquifiedNamespace, uniquifiedName node.name (s.uniqueIdCounter + 1))
      ⟨s.modules.length, uniquifiedName node.name (s.uniqueIdCounter + 1), node.hasAccessLink⟩) :
    Extends s (s.withCopy node network members) where
  modules m found hfound := by
    rw [← hfound]
    exact List.getElem?_append_left (getElem?_lt hfound)
  instances _ _ h := h
  registered key found hfound := by
    change network.modules.lookup key = some found
    rw [hmodules, Finmap.lookup_insert_of_ne]
    · exact hfound
    · intro hsame
      rw [hsame, hsound.free node.name _ (Nat.lt_succ_self _)] at hfound
      cases hfound

theorem withCopy_node : (s.withCopy node network members).modules[s.modules.length]? =
    some { node with name := uniquifiedName node.name (s.uniqueIdCounter + 1) } :=
  List.getElem?_concat_length

end Copy

/-! ### Uniquification of a module -/

/-- Why the uniquification of a module may fail: what its members throw, or a circle. It never ends only when a step on members does not. -/
def CircleOrMembers (steps : MemberSteps ς) (b : AST ς) (module : Nat) : Option Error → Prop
  | none => ∃ step members, steps step members = none
  | some e => (∃ fault, e = .members fault) ∨
      (∃ message, e = .circularDependency message) ∧ LeadsToCircle b.instantiated module

theorem circleOrMembers_tolerates (steps : MemberSteps ς) (b : AST ς) (module : Nat) :
    Tolerates steps (CircleOrMembers steps b module) where
  throws fault := .inl ⟨fault, rfl⟩
  never step members hnone := ⟨step, members, hnone⟩

section Uniquify

variable {b s : AST ς} {module : Nat}

/-- The stack of a module that is being copied: it comes from each of the others. -/
structure OnStack (b : AST ς) (module : Nat) (stack : List Nat) : Prop where
  nodup : stack.Nodup
  known : ∀ m ∈ stack, m < b.modules.length
  reaches : ∀ m ∈ stack, Relation.ReflTransGen (Edge b.instantiated) m module

theorem OnStack.length_le {stack : List Nat} (hstack : OnStack b module stack) :
    stack.length ≤ b.modules.length := by
  have hsubset : stack ⊆ List.range b.modules.length :=
    fun m hm => List.mem_range.mpr (hstack.known m hm)
  have hle := (List.subperm_of_subset hstack.nodup hsubset).length_le
  rwa [List.length_range] at hle

theorem OnStack.push {stack : List Nat} {m i : Nat} (hstack : OnStack b module stack)
    (hm : b.instantiated module i = some m) (hknown : m < b.modules.length) (hnew : m ∉ stack) :
    OnStack b m (m :: stack) where
  nodup := List.nodup_cons.mpr ⟨hnew, hstack.nodup⟩
  known := List.forall_mem_cons.mpr ⟨hknown, hstack.known⟩
  reaches := List.forall_mem_cons.mpr
    ⟨.refl, fun other hother => (hstack.reaches other hother).tail ⟨i, hm⟩⟩

theorem OnStack.circle {stack : List Nat} {m i : Nat} (hstack : OnStack b module stack)
    (hm : b.instantiated module i = some m) (hmem : m ∈ stack) :
    LeadsToCircle b.instantiated module :=
  ⟨m, .single ⟨i, hm⟩, .tail' (hstack.reaches m hmem) ⟨i, hm⟩⟩

theorem CircleOrMembers.imp {steps : MemberSteps ς} {b' : AST ς} {m : Nat} {e : Option Error}
    (himp : LeadsToCircle b'.instantiated m → LeadsToCircle b.instantiated module)
    (hfailed : CircleOrMembers steps b' m e) : CircleOrMembers steps b module e := by
  match e, hfailed with
  | none, hnever => exact hnever
  | some e, .inl hmembers => exact .inl hmembers
  | some e, .inr ⟨hcircular, hcircle⟩ => exact .inr ⟨hcircular, himp hcircle⟩

theorem CircleOrMembers.of_next {steps : MemberSteps ς} {m i : Nat} {e : Option Error}
    (hm : b.instantiated module i = some m) (hfailed : CircleOrMembers steps b m e) :
    CircleOrMembers steps b module e :=
  hfailed.imp fun hcircle => hcircle.of_reaches (.single ⟨i, hm⟩)

/-- What an instance names, in a state and in the one before. -/
theorem names_instance (hnames : b.NamesModules) {i inst : Nat}
    (hinst : b.instanceOf module i = some inst) :
    ∃ node found, b.instances[inst]? = some node ∧ b.network.modules.lookup
      (node.moduleIdentifier.moduleNamespace, node.moduleIdentifier.name) = some found ∧
      found.id < b.modules.length ∧ b.instantiated module i = some found.id := by
  obtain ⟨m, hm, hknown⟩ := hnames module i inst hinst
  obtain ⟨node, hnode, hlookup⟩ := Option.bind_eq_some_iff.mp hm
  obtain ⟨found, hfound, rfl⟩ := Option.map_eq_some_iff.mp hlookup
  refine ⟨node, found, hnode, hfound, hknown, ?_⟩
  rw [AST.instantiated, hinst]
  exact hm

/-- The rounds for a copy end with a linked module that mirrors the one it is copied from. -/
theorem Rounds.copied {s₀ s' : AST ς} {node : ModuleNode} (hnames : b.NamesModules)
    (hbase : Extends b s) (hgrows : Extends s s₀) (hnode : b.modules[module]? = some node)
    {k : Nat} (hcopy : s₀.modules[s.modules.length]? =
      some { node with name := uniquifiedName node.name k })
    (hregistered : s₀.network.modules.lookup (s₀.uniquifiedNamespace, uniquifiedName node.name k) =
      some ⟨s.modules.length, uniquifiedName node.name k, node.hasAccessLink⟩)
    (hmodules : s₀.modules.length = s.modules.length + 1)
    (hinstances : s₀.instances.length = s.instances.length)
    (hnamespace : s₀.uniquifiedNamespace = s.uniquifiedNamespace)
    (hstack : s₀.clonedModules = s.clonedModules)
    (hrounds : Rounds b s.modules.length s₀ node.instances.length s') :
    ∃ newNode, s'.modules[s.modules.length]? = some newNode ∧
      Copied b s module s.modules.length newNode s' := by
  obtain ⟨node₀, instances, hnode₀, hnow, hlength⟩ := hrounds.node
  cases hcopy.symm.trans hnode₀
  have hlength : instances.length = node.instances.length := hlength
  have hinstanceOf (i : Nat) : s'.instanceOf s.modules.length i = instances[i]? := by
    rw [AST.instanceOf, hnow]
    rfl
  have hbefore (i : Nat) : s₀.instanceOf s.modules.length i = b.instanceOf module i := by
    rw [AST.instanceOf, AST.instanceOf, hcopy, hnode]
    rfl
  have hbehind (i inst : Nat) (h : s'.instanceOf s.modules.length i = some inst) :
      i < node.instances.length := by
    rw [hinstanceOf] at h
    exact hlength ▸ getElem?_lt h
  refine ⟨_, hnow, ?_⟩
  constructor
  · refine ⟨fun m found hm => ?_, fun j found hj => ?_, fun key found hkey => ?_⟩
    · have hlt := getElem?_lt hm
      exact hrounds.modules m found (by omega) (hgrows.modules m found hm)
    · exact hrounds.instances j found (hgrows.instances j found hj)
    · exact hrounds.registered key found (hgrows.registered key found hkey)
  · exact hrounds.sound
  · exact hrounds.uniquifiedNamespace.trans hnamespace
  · exact hrounds.clonedModules.trans hstack
  · rfl
  · exact hnow
  · rw [hrounds.uniquifiedNamespace]
    exact hrounds.registered _ _ hregistered
  · refine Mirrors.of_step ⟨_, node, k, hnow, hnode, rfl⟩ fun i => ?_
    cases hinst : s'.instanceOf s.modules.length i with
    | none =>
      have hnone : b.instanceOf module i = none := by
        rw [hinstanceOf] at hinst
        rw [AST.instanceOf, hnode]
        have hle := List.getElem?_eq_none_iff.mp hinst
        exact List.getElem?_eq_none (by omega)
      rw [AST.uniquified, AST.instantiated, hinst, hnone]
      exact .none
    | some inst =>
      obtain ⟨-, new, m, -, hlinked, hm, hmirrors⟩ := hrounds.behind i inst (hbehind i inst hinst) hinst
      rw [AST.instantiated, hbefore] at hm
      have hsame : b.instantiated module i = some m := by
        obtain ⟨original, horiginal, hmodule⟩ := Option.bind_eq_some_iff.mp hm
        obtain ⟨m', hm', -⟩ := hnames module i original horiginal
        have hthen := (hbase.trans hgrows).moduleOf hm'
        cases hmodule.symm.trans hthen
        rw [AST.instantiated, horiginal]
        exact hm'
      rw [AST.uniquified, hinst, Option.bind_some, hlinked.uniquified, hsame]
      exact .some hmirrors
  · intro d hd hlt
    by_cases hsame : d = s.modules.length
    · rw [hsame]
      constructor
      · intro i inst hinst
        obtain ⟨hlow, new, m, -, hlinked, -⟩ := hrounds.behind i inst (hbehind i inst hinst) hinst
        exact ⟨hinstances ▸ hlow, new, hlinked⟩
      · intro i j inst hi hj
        exact hrounds.separate i j inst (hbehind i inst hi) (hbehind j inst hj) hi hj
    · exact hinstances ▸ hrounds.linked d (by omega) hlt

theorem Copied.withMembers {new : Nat} {newNode : ModuleNode} {s' : AST ς}
    (hcopied : Copied b s module new newNode s') (members : ς) :
    Copied b s module new newNode { s' with members } where
  grows := ⟨hcopied.grows.modules, hcopied.grows.instances, hcopied.grows.registered⟩
  sound := ⟨hcopied.sound.uniquifiedNamespace, hcopied.sound.free⟩
  uniquifiedNamespace := hcopied.uniquifiedNamespace
  clonedModules := hcopied.clonedModules
  new_eq := hcopied.new_eq
  node := hcopied.node
  registered := hcopied.registered
  mirrors := hcopied.mirrors
  linked d hd hlt := (hcopied.linked d hd hlt).lasts (fun _ => rfl) (fun _ _ _ h => h)
    (fun _ _ h => h) fun _ _ _ h => h

section Loop

variable {s₀ : AST ς} {copy i inst : Nat} {failed : Option Error → Prop} {steps : MemberSteps ς}
  {uniquify : Nat → (module inst : Nat) → Action ς Nat}

theorem round_yields (hmembers : Tolerates steps failed)
    (hrounds : Rounds b copy s₀ i s) (hinst : s₀.instanceOf copy i = some inst) {node : InstanceNode}
    (hnode : s₀.instances[inst]? = some node) {found : TopModule.Module}
    (hfound : s₀.network.modules.lookup
      (node.moduleIdentifier.moduleNamespace, node.moduleIdentifier.name) = some found)
    (hcircular : found.id ∈ s₀.clonedModules → ∀ message, failed (some (.circularDependency message)))
    (hcall : found.id ∉ s₀.clonedModules → ∀ members,
      Yields (fun fuel => uniquify fuel found.id s.instances.length)
        (s.calling copy i found.id node members)
        (fun new s' => ∃ newNode, s'.modules[new]? = some newNode ∧
          Copied b (s.calling copy i found.id node members) found.id new newNode s') failed) :
    Yields (fun fuel => uniquifyInstance steps (uniquify fuel) copy i) s
      (fun _ s' => Rounds b copy s₀ (i + 1) s') failed := by
  have hnow : s.instanceOf copy i = some inst := (hrounds.ahead i (Nat.le_refl i)).trans hinst
  have hm : s₀.instantiated copy i = some found.id := by
    rw [AST.instantiated, hinst, Option.bind_some, AST.moduleOf, hnode, Option.bind_some, hfound]
    rfl
  rw [← hrounds.clonedModules] at hcircular hcall
  refine (uniquifyInstance_yields hmembers (fun call new newNode s₂ =>
    Copied b call found.id new newNode s₂) hnow (hrounds.instances _ _ hnode)
    (hrounds.registered _ _ hfound) hcircular hcall).mono ?_ fun _ h => h
  rintro _ _ ⟨members, new, newNode, s₂, hcopied, rfl⟩
  exact hrounds.next hnow hcopied hm

theorem uniquifyInstances_yields {node : ModuleNode} (hnode : s₀.modules[copy]? = some node)
    (hsound : Sound s₀) (hround : ∀ i < node.instances.length, ∀ s, Rounds b copy s₀ i s →
      Yields (fun fuel => uniquifyInstance steps (uniquify fuel) copy i) s
        (fun _ s' => Rounds b copy s₀ (i + 1) s') failed) :
    Yields (fun fuel => uniquifyInstances steps (uniquify fuel) copy) s₀
      (fun _ s' => Rounds b copy s₀ node.instances.length s') failed := by
  unfold uniquifyInstances
  refine Yields.next (moduleNode_yields hnode) ?_
  exact Yields.forM_range (Rounds b copy s₀) (Rounds.start hnode hsound) hround

end Loop

/-- Uniquifying a module ends, unless a step on members does not. -/
theorem uniquify_yields (hnames : b.NamesModules) (steps : MemberSteps ς) {stack : List Nat}
    (hstack : OnStack b module stack) (hmodule : module < b.modules.length) (hbase : Extends b s)
    (hsound : Sound s) (hcloned : s.clonedModules = stack) (inst : Nat) :
    Yields (fun fuel => uniquify steps fuel module inst) s
      (fun new s' => ∃ newNode, s'.modules[new]? = some newNode ∧ Copied b s module new newNode s')
      (CircleOrMembers steps b module) := by
  induction hrest : b.modules.length - stack.length using Nat.strong_induction_on
    generalizing stack module s inst with
  | _ rest ih =>
    have hnode := List.getElem?_eq_getElem hmodule
    generalize b.modules[module] = node at hnode
    have hmembers := circleOrMembers_tolerates steps b module
    apply Yields.succ
    simp only [uniquify]
    refine Yields.bind (cloneModule_yields hmembers hsound (hbase.modules _ _ hnode)) ?_
    rintro _ _ ⟨rfl, network, members₀, rfl, hnetwork, huniquified⟩
    refine Yields.bind (onMembers_yields hmembers _ _) ?_
    rintro _ _ ⟨members, rfl⟩
    let s₀ := s.withCopy node network members
    have hgrows : Extends s s₀ := withCopy_grows hsound hnetwork
    have hlength : s₀.modules.length = s.modules.length + 1 := List.length_append
    have hround : ∀ i < node.instances.length, ∀ s', Rounds b s.modules.length s₀ i s' →
        Yields (fun fuel => uniquifyInstance steps (uniquify steps fuel) s.modules.length i) s'
          (fun _ s'' => Rounds b s.modules.length s₀ (i + 1) s'') (CircleOrMembers steps b module) := by
      intro i hi s' hrounds
      have horiginal : b.instanceOf module i = some node.instances[i] := by
        rw [AST.instanceOf, hnode]
        exact List.getElem?_eq_getElem hi
      obtain ⟨inode, found, hinode, hfound, hknown, hm⟩ := names_instance hnames horiginal
      have hinst : s₀.instanceOf s.modules.length i = some node.instances[i] := by
        rw [AST.instanceOf, withCopy_node]
        exact List.getElem?_eq_getElem hi
      have hgrows₀ := hbase.trans hgrows
      refine round_yields hmembers hrounds hinst (hgrows₀.instances _ _ hinode)
        (hgrows₀.registered _ _ hfound) ?_ ?_
      · intro hmem message
        exact .inr ⟨⟨message, rfl⟩, hstack.circle hm (hcloned ▸ hmem)⟩
      · intro hnew members'
        have hpushed := hstack.push hm hknown (hcloned ▸ hnew)
        have hbelow := hpushed.length_le
        have hcopies := hbase.modules_le
        have hcalled : Extends b (s'.calling s.modules.length i found.id inode members') := by
          refine ⟨fun d n hd => ?_, fun j n hj => ?_, fun key n hkey => ?_⟩
          · have hlt := getElem?_lt hd
            exact calling_modules (by omega)
              (hrounds.modules d n (by omega) (hgrows₀.modules d n hd))
          · exact calling_instances (hrounds.instances j n (hgrows₀.instances j n hj))
          · exact hrounds.registered key n (hgrows₀.registered key n hkey)
        refine (ih _ ?_ hpushed hknown hcalled ⟨hrounds.sound.uniquifiedNamespace, hrounds.sound.free⟩
          ?_ _ rfl).mono (fun _ _ h => h) fun e => CircleOrMembers.of_next hm
        · rw [← hrest]
          rw [List.length_cons] at hbelow ⊢
          omega
        · change found.id :: s'.clonedModules = _
          rw [hrounds.clonedModules]
          exact congrArg _ hcloned
    have hloop := uniquifyInstances_yields withCopy_node
      (withCopy_sound hsound hnetwork huniquified) hround
    refine Yields.bind hloop ?_
    intro _ s₁ hrounds
    obtain ⟨newNode, hnew, hcopied⟩ := Rounds.copied hnames hbase hgrows hnode withCopy_node
      (by
        change network.modules.lookup _ = _
        rw [hnetwork]
        exact Finmap.lookup_insert _) hlength rfl rfl rfl hrounds
    refine Yields.bind (onMembers_yields hmembers _ _) ?_
    rintro _ _ ⟨members', rfl⟩
    exact Yields.pure ⟨newNode, hnew, hcopied.withMembers members'⟩

end Uniquify

end ModuleCopies

end Mast
