import Mast.BinaryVector.Basic
import Mast.Lib.Runs
import Mathlib.Data.Finmap

/-!
# The top module of a network

`AddModule` registers a module under its namespace and name and replaces what was registered there. The network remembers the module with an AccessLink and, for networks without one, the first module; neither pointer is updated when its module is replaced, and the check for a second AccessLink comes when the module is already registered.
-/

namespace Mast

namespace TopModule

structure Namespace where
  id : Nat
  name : String
  deriving DecidableEq

/-- A module object; two definitions of one name are different objects. -/
structure Module where
  id : Nat
  name : String
  hasAccessLink : Bool
  deriving DecidableEq

abbrev Key := Namespace × String

/-- The fields of `AST_Network`; every namespace that has a map has a module in it. -/
structure Network where
  modules : Finmap fun _ : Key => Module
  top : Option Module
  first : Option Module
  uniquifiedNamespace : Option Namespace
  deriving DecidableEq

namespace Network

def empty (uniquifiedNamespace : Option Namespace) : Network := ⟨∅, none, none, uniquifiedNamespace⟩

def topModule (net : Network) : Option Module := net.top <|> net.first

/-- `AddModule`. The module is registered before anything is checked. -/
def addModule (moduleNamespace : Option Namespace) (module : Option Module) :
    EStateM Fault Network Unit := do
  match moduleNamespace, module with
  | none, _ => throw (.invalidArgument "Invalid nullptr module namespace ")
  | some _, none => throw (.invalidArgument "Invalid nullptr for module")
  | some moduleNamespace, some module =>
    modify fun net => { net with modules := net.modules.insert (moduleNamespace, module.name) module }
    let net ← get
    if net.uniquifiedNamespace ≠ some moduleNamespace ∧ module.hasAccessLink then
      match net.top with
      | none => pure ()
      | some top =>
        if top.hasAccessLink then
          throw (.runtimeError ("Must have only one module with an AccessLink. Have \"" ++ top.name ++
            "\" and \"" ++ module.name ++ "."))
      set { net with top := some module, first := none }
    else if net.first = none then
      set { net with first := some module }

def module (net : Network) (moduleNamespace : Namespace) (name : String) : Except Fault Module :=
  if ∀ key ∈ net.modules.keys, key.1 ≠ moduleNamespace then
    .error (.invalidArgument ("Have no namespace with name \"" ++ moduleNamespace.name ++ "\""))
  else
    match net.modules.lookup (moduleNamespace, name) with
    | none => .error (.invalidArgument ("Have no module with name \"" ++ name ++
        "\" in namespace \"" ++ moduleNamespace.name ++ "\""))
    | some module => .ok module

/-- `ModulesInNamespace`, in any order. -/
def modulesInNamespace (net : Network) (modulesNamespace : Namespace) : Multiset Module :=
  (net.modules.entries.filter fun entry => entry.1.1 = modulesNamespace).map fun entry => entry.2

end Network

/-! ### Histories -/

/-- The arguments of a call of `AddModule`. -/
structure Call where
  moduleNamespace : Option Namespace
  module : Option Module

def Call.key (call : Call) : Option Key :=
  match call.moduleNamespace, call.module with
  | some moduleNamespace, some module => some (moduleNamespace, module.name)
  | _, _ => none

/-- A network, what the first module was registered under, and whether a call that threw has changed the modules or the top module. -/
structure History where
  network : Network
  firstAdded : Option Key
  halfDone : Bool

namespace History

def start (uniquifiedNamespace : Option Namespace) : History := ⟨.empty uniquifiedNamespace, none, false⟩

def add (h : History) (call : Call) : History :=
  let firstAdded := h.firstAdded <|> call.key
  match (Network.addModule call.moduleNamespace call.module).run h.network with
  | .ok _ net => ⟨net, firstAdded, h.halfDone⟩
  | .error _ net =>
    ⟨net, firstAdded, h.halfDone ||
      decide (net.modules ≠ h.network.modules ∨ net.topModule ≠ h.network.topModule)⟩

/-- Once a module is added, the top module is one that the network still returns. It has an AccessLink if a registered module has one, and is the current definition of the first name otherwise. No call that threw has left anything behind. -/
structure TopIsLive (h : History) : Prop where
  unchanged : h.halfDone = false
  top : h.firstAdded = none ∨ ∃ top, h.network.topModule = some top ∧
    (∃ moduleNamespace name, h.network.module moduleNamespace name = .ok top ∧
      top ∈ h.network.modulesInNamespace moduleNamespace) ∧
    ((∃ moduleNamespace, ∃ module ∈ h.network.modulesInNamespace moduleNamespace,
      module.hasAccessLink = true) → top.hasAccessLink = true) ∧
    ((¬∃ moduleNamespace, ∃ module ∈ h.network.modulesInNamespace moduleNamespace,
      module.hasAccessLink = true) →
        ∃ moduleNamespace name, h.firstAdded = some (moduleNamespace, name) ∧
          h.network.module moduleNamespace name = .ok top)

/-- What a call must not do: add a second module with an AccessLink, unless it is the one that is registered there; replace the last registration of the top module; or, as long as the top module has no AccessLink, give its name another definition or add one with an AccessLink to the uniquified namespace. -/
def Admits (h : History) (call : Call) : Prop :=
  match call.moduleNamespace, call.module with
  | some moduleNamespace, some module =>
    if h.network.uniquifiedNamespace ≠ some moduleNamespace ∧ module.hasAccessLink then
      h.network.top = none ∨ h.network.modules.lookup (moduleNamespace, module.name) = some module
    else
      ∀ top, h.network.topModule = some top →
        if top.hasAccessLink then
          h.network.modules.lookup (moduleNamespace, module.name) = some top → module = top ∨
            ∃ key ≠ (moduleNamespace, module.name), h.network.modules.lookup key = some top
        else module.hasAccessLink = false ∧
          (h.firstAdded = some (moduleNamespace, module.name) → module = top)
  | _, _ => True

end History

/-! ### Looking modules up -/

theorem module_iff {net : Network} {moduleNamespace : Namespace} {name : String} {module : Module} :
    net.module moduleNamespace name = .ok module ↔
      net.modules.lookup (moduleNamespace, name) = some module := by
  unfold Network.module
  cases hlookup : net.modules.lookup (moduleNamespace, name) with
  | none =>
    refine iff_of_false ?_ fun h => by cases h
    split_ifs
    · intro h
      cases h
    · intro h
      cases h
  | some found =>
    have hkey : ¬∀ key ∈ net.modules.keys, key.1 ≠ moduleNamespace := by
      intro hnone
      refine hnone (moduleNamespace, name) ?_ rfl
      rw [Finmap.mem_keys, ← Finmap.lookup_isSome, hlookup]
      rfl
    rw [if_neg hkey]
    simp

theorem mem_modulesInNamespace {net : Network} {moduleNamespace : Namespace} {module : Module} :
    module ∈ net.modulesInNamespace moduleNamespace ↔
      ∃ name, net.modules.lookup (moduleNamespace, name) = some module := by
  unfold Network.modulesInNamespace
  constructor
  · intro hmem
    obtain ⟨⟨⟨found, name⟩, other⟩, hentry, rfl⟩ := Multiset.mem_map.mp hmem
    obtain ⟨hin, rfl⟩ := Multiset.mem_filter.mp hentry
    exact ⟨name, Finmap.lookup_eq_some_iff.mpr hin⟩
  · rintro ⟨name, hlookup⟩
    exact Multiset.mem_map.mpr ⟨⟨(moduleNamespace, name), module⟩,
      Multiset.mem_filter.mpr ⟨Finmap.lookup_eq_some_iff.mp hlookup, rfl⟩, rfl⟩

def Registered (net : Network) (module : Module) : Prop :=
  ∃ key, net.modules.lookup key = some module

/-- What has to hold of the top module, in terms of the map. -/
structure IsTop (net : Network) (firstAdded : Option Key) (top : Module) : Prop where
  registered : Registered net top
  access : ∀ module, Registered net module → module.hasAccessLink = true → top.hasAccessLink = true
  first : top.hasAccessLink = false →
    ∃ key, firstAdded = some key ∧ net.modules.lookup key = some top

theorem exists_access_iff (net : Network) :
    (∃ moduleNamespace, ∃ module ∈ net.modulesInNamespace moduleNamespace,
      module.hasAccessLink = true) ↔ ∃ module, Registered net module ∧ module.hasAccessLink = true := by
  constructor
  · rintro ⟨moduleNamespace, module, hmem, haccess⟩
    obtain ⟨name, hlookup⟩ := mem_modulesInNamespace.mp hmem
    exact ⟨module, ⟨_, hlookup⟩, haccess⟩
  · rintro ⟨module, ⟨⟨moduleNamespace, name⟩, hlookup⟩, haccess⟩
    exact ⟨moduleNamespace, module, mem_modulesInNamespace.mpr ⟨name, hlookup⟩, haccess⟩

theorem topIsLive_iff (h : History) :
    h.TopIsLive ↔ h.halfDone = false ∧ (h.firstAdded = none ∨
      ∃ top, h.network.topModule = some top ∧ IsTop h.network h.firstAdded top) := by
  have haccess := exists_access_iff h.network
  constructor
  · rintro ⟨hunchanged, htop⟩
    refine ⟨hunchanged, htop.imp_right ?_⟩
    rintro ⟨top, hmodule, ⟨moduleNamespace, name, hfound, -⟩, hlinked, hfirst⟩
    refine ⟨top, hmodule, ⟨⟨_, module_iff.mp hfound⟩, ?_, ?_⟩⟩
    · intro module hregistered hmoduleAccess
      exact hlinked (haccess.mpr ⟨module, hregistered, hmoduleAccess⟩)
    · intro hnone
      have hno : ¬∃ moduleNamespace, ∃ module ∈ h.network.modulesInNamespace moduleNamespace,
          module.hasAccessLink = true := by
        intro hsome
        rw [hlinked hsome] at hnone
        cases hnone
      obtain ⟨moduleNamespace, name, hadded, hcurrent⟩ := hfirst hno
      exact ⟨_, hadded, module_iff.mp hcurrent⟩
  · rintro ⟨hunchanged, htop⟩
    refine ⟨hunchanged, htop.imp_right ?_⟩
    rintro ⟨top, hmodule, hregistered, hlinked, hfirst⟩
    have hfound := hregistered
    obtain ⟨⟨moduleNamespace, name⟩, hlookup⟩ := hfound
    refine ⟨top, hmodule, ⟨moduleNamespace, name, module_iff.mpr hlookup,
      mem_modulesInNamespace.mpr ⟨name, hlookup⟩⟩, ?_, ?_⟩
    · intro hsome
      obtain ⟨module, hmoduleRegistered, hmoduleAccess⟩ := haccess.mp hsome
      exact hlinked module hmoduleRegistered hmoduleAccess
    · intro hno
      have hnone : top.hasAccessLink = false := by
        rw [← Bool.not_eq_true]
        exact fun htopAccess => hno (haccess.mpr ⟨top, hregistered, htopAccess⟩)
      obtain ⟨⟨firstNamespace, firstName⟩, hadded, hcurrent⟩ := hfirst hnone
      exact ⟨firstNamespace, firstName, hadded, module_iff.mpr hcurrent⟩

/-! ### One call -/

/-- What holds of the pointers whatever was called. -/
structure Consistent (h : History) : Prop where
  access : ∀ top, h.network.top = some top → top.hasAccessLink = true
  started : h.network.top ≠ none ∨ h.network.first ≠ none ↔ h.firstAdded ≠ none
  nothing : h.firstAdded = none → ∀ module, ¬Registered h.network module

section Step

variable {h : History} {moduleNamespace : Namespace} {module : Module}

/-- The network with the module registered, before the pointers are updated. -/
def registered (net : Network) (moduleNamespace : Namespace) (module : Module) : Network :=
  { net with modules := net.modules.insert (moduleNamespace, module.name) module }

theorem add_access (haccess : h.network.uniquifiedNamespace ≠ some moduleNamespace ∧
      module.hasAccessLink = true) (htop : h.network.top = none) :
    h.add ⟨some moduleNamespace, some module⟩ =
      ⟨{ registered h.network moduleNamespace module with top := some module, first := none },
        h.firstAdded <|> some (moduleNamespace, module.name), h.halfDone⟩ := by
  have hrun : (Network.addModule (some moduleNamespace) (some module)).run h.network =
      .ok () { registered h.network moduleNamespace module with top := some module, first := none } := by
    simp only [Network.addModule, EStateM.run_bind, EStateM.run_modify, EStateM.run_get,
      if_pos haccess, htop]
    rfl
  rw [History.add, hrun]
  rfl

/-- A second one is refused, but registered. -/
theorem add_second {top : Module} (haccess : h.network.uniquifiedNamespace ≠ some moduleNamespace ∧
      module.hasAccessLink = true) (htop : h.network.top = some top)
    (hlinked : top.hasAccessLink = true) :
    h.add ⟨some moduleNamespace, some module⟩ =
      ⟨registered h.network moduleNamespace module,
        h.firstAdded <|> some (moduleNamespace, module.name), h.halfDone || decide
          ((registered h.network moduleNamespace module).modules ≠ h.network.modules ∨
            (registered h.network moduleNamespace module).topModule ≠ h.network.topModule)⟩ := by
  have hrun : (Network.addModule (some moduleNamespace) (some module)).run h.network =
      .error (.runtimeError ("Must have only one module with an AccessLink. Have \"" ++ top.name ++
        "\" and \"" ++ module.name ++ ".")) (registered h.network moduleNamespace module) := by
    simp only [Network.addModule, EStateM.run_bind, EStateM.run_modify, EStateM.run_get,
      if_pos haccess, htop, if_pos hlinked]
    rw [registered, htop]
    rfl
  rw [History.add, hrun]
  rfl

/-- A module that is no candidate for the top module is registered, and is the first one if there is none. -/
theorem addModule_other {net : Network} (hother : ¬(net.uniquifiedNamespace ≠ some moduleNamespace ∧
      module.hasAccessLink = true)) :
    (Network.addModule (some moduleNamespace) (some module)).run net =
      .ok () { registered net moduleNamespace module with first := net.first <|> some module } := by
  simp only [Network.addModule, EStateM.run_bind, EStateM.run_modify, EStateM.run_get, if_neg hother]
  cases hfirst : net.first with
  | none =>
    rw [if_pos rfl]
    rfl
  | some first =>
    rw [if_neg (Option.some_ne_none first)]
    simp [registered, hfirst]

theorem add_other (hother : ¬(h.network.uniquifiedNamespace ≠ some moduleNamespace ∧
      module.hasAccessLink = true)) :
    h.add ⟨some moduleNamespace, some module⟩ =
      ⟨{ registered h.network moduleNamespace module with
          first := h.network.first <|> some module },
        h.firstAdded <|> some (moduleNamespace, module.name), h.halfDone⟩ := by
  rw [History.add, addModule_other hother]
  rfl

theorem lookup_registered (net : Network) (key : Key) :
    (registered net moduleNamespace module).modules.lookup key =
      if key = (moduleNamespace, module.name) then some module else net.modules.lookup key := by
  by_cases hsame : key = (moduleNamespace, module.name)
  · rw [if_pos hsame, hsame]
    exact Finmap.lookup_insert _
  · rw [if_neg hsame]
    exact Finmap.lookup_insert_of_ne _ hsame

/-- What is registered afterwards: the module, and what it does not replace. -/
theorem registered_iff (net : Network) (other : Module) :
    Registered (registered net moduleNamespace module) other ↔
      other = module ∨ ∃ key ≠ (moduleNamespace, module.name), net.modules.lookup key = some other := by
  constructor
  · rintro ⟨key, hlookup⟩
    rw [lookup_registered] at hlookup
    by_cases hsame : key = (moduleNamespace, module.name)
    · rw [if_pos hsame] at hlookup
      exact .inl (Option.some.inj hlookup).symm
    · rw [if_neg hsame] at hlookup
      exact .inr ⟨key, hsame, hlookup⟩
  · rintro (rfl | ⟨key, hne, hlookup⟩)
    · exact ⟨_, (lookup_registered net _).trans (if_pos rfl)⟩
    · exact ⟨key, ((lookup_registered net key).trans (if_neg hne)).trans hlookup⟩

theorem registered_self_iff (net : Network) :
    (registered net moduleNamespace module).modules = net.modules ↔
      net.modules.lookup (moduleNamespace, module.name) = some module := by
  constructor
  · intro hsame
    rw [← hsame, lookup_registered, if_pos rfl]
  · intro hlookup
    apply Finmap.ext_lookup
    intro key
    rw [lookup_registered]
    by_cases hkey : key = (moduleNamespace, module.name)
    · rw [if_pos hkey, hkey, hlookup]
    · rw [if_neg hkey]

theorem Consistent.start (uniquifiedNamespace : Option Namespace) :
    Consistent (.start uniquifiedNamespace) where
  access := by
    intro top htop
    cases htop
  started := by simp [History.start, Network.empty]
  nothing := by
    rintro - other ⟨key, hlookup⟩
    cases hlookup

end Step

theorem add_null {h : History} {call : Call} (hnull : call.key = none) : h.add call = h := by
  have hrun : ∃ fault, (Network.addModule call.moduleNamespace call.module).run h.network =
      .error fault h.network := by
    obtain ⟨moduleNamespace, module⟩ := call
    cases moduleNamespace with
    | none => exact ⟨_, rfl⟩
    | some moduleNamespace =>
      cases module with
      | none => exact ⟨_, rfl⟩
      | some module => cases hnull
  obtain ⟨fault, hrun⟩ := hrun
  simp [History.add, hrun, hnull]

theorem key_cases (call : Call) : call.key = none ∨ ∃ moduleNamespace module,
    call = ⟨some moduleNamespace, some module⟩ := by
  obtain ⟨moduleNamespace, module⟩ := call
  cases moduleNamespace with
  | none => exact .inl rfl
  | some moduleNamespace =>
    cases module with
    | none => exact .inl rfl
    | some module => exact .inr ⟨_, _, rfl⟩

theorem orElse_ne_none {α : Type} (x : Option α) (a : α) : (x <|> some a) ≠ none := by
  cases x <;> exact Option.some_ne_none _

theorem orElse_of_ne_none {α : Type} {x : Option α} (hx : x ≠ none) (y : Option α) :
    (x <|> y) = x := by
  cases x with
  | none => exact absurd rfl hx
  | some a => rfl

theorem Consistent.add {h : History} (hconsistent : Consistent h) (call : Call) :
    Consistent (h.add call) := by
  rcases key_cases call with hnull | ⟨moduleNamespace, module, rfl⟩
  · rwa [add_null hnull]
  have hadded := orElse_ne_none h.firstAdded (moduleNamespace, module.name)
  by_cases haccess : h.network.uniquifiedNamespace ≠ some moduleNamespace ∧
      module.hasAccessLink = true
  · cases htop : h.network.top with
    | none =>
      rw [add_access haccess htop]
      refine ⟨?_, iff_of_true (.inl (Option.some_ne_none _)) hadded, fun hnone => absurd hnone hadded⟩
      intro top htop
      rw [← Option.some.inj htop]
      exact haccess.2
    | some top =>
      have hsome : (registered h.network moduleNamespace module).top ≠ none := by
        change h.network.top ≠ none
        rw [htop]
        exact Option.some_ne_none _
      rw [add_second haccess htop (hconsistent.access top htop)]
      exact ⟨hconsistent.access, iff_of_true (.inl hsome) hadded, fun hnone => absurd hnone hadded⟩
  · rw [add_other haccess]
    exact ⟨hconsistent.access, iff_of_true (.inr (orElse_ne_none _ _)) hadded,
      fun hnone => absurd hnone hadded⟩

/-- The top module without a new one: it must stay registered, and stay the first of its name if it has no AccessLink. -/
theorem isTop_registered_iff {net : Network} {firstAdded : Option Key} {top : Module}
    (htop : IsTop net firstAdded top) (moduleNamespace : Namespace) (module : Module)
    (pointers : Option Module × Option Module) :
    IsTop { registered net moduleNamespace module with top := pointers.1, first := pointers.2 }
        firstAdded top ↔
      if top.hasAccessLink then
        net.modules.lookup (moduleNamespace, module.name) = some top → module = top ∨
          ∃ key ≠ (moduleNamespace, module.name), net.modules.lookup key = some top
      else module.hasAccessLink = false ∧
        (firstAdded = some (moduleNamespace, module.name) → module = top) := by
  have hregistered (other : Module) : Registered
      { registered net moduleNamespace module with top := pointers.1, first := pointers.2 } other ↔
        other = module ∨
          ∃ key ≠ (moduleNamespace, module.name), net.modules.lookup key = some other :=
    registered_iff net other
  have hlookup (key : Key) : (registered net moduleNamespace module).modules.lookup key =
      if key = (moduleNamespace, module.name) then some module else net.modules.lookup key :=
    lookup_registered net key
  by_cases haccess : top.hasAccessLink = true
  · rw [if_pos haccess]
    constructor
    · intro hafter _
      exact ((hregistered top).mp hafter.registered).imp_left Eq.symm
    · intro hkept
      refine ⟨(hregistered top).mpr ?_, fun _ _ _ => haccess, fun hnone => ?_⟩
      · obtain ⟨key, hkey⟩ := htop.registered
        by_cases hsame : key = (moduleNamespace, module.name)
        · rw [hsame] at hkey
          exact (hkept hkey).imp_left Eq.symm
        · exact .inr ⟨key, hsame, hkey⟩
      · rw [haccess] at hnone
        cases hnone
  · have hnone : top.hasAccessLink = false := Bool.not_eq_true _ ▸ haccess
    obtain ⟨first, hadded, hfirst⟩ := htop.first hnone
    rw [if_neg haccess]
    constructor
    · intro hafter
      constructor
      · rw [← Bool.not_eq_true]
        exact fun hmodule => haccess (hafter.access module ((hregistered module).mpr (.inl rfl)) hmodule)
      · intro hsame
        obtain ⟨key, hkey, hcurrent⟩ := hafter.first hnone
        obtain rfl := Option.some.inj (hsame.symm.trans hkey)
        exact Option.some.inj (((hlookup _).trans (if_pos rfl)).symm.trans hcurrent)
    · rintro ⟨hmodule, hkept⟩
      have hcurrent : (registered net moduleNamespace module).modules.lookup first = some top := by
        rw [hlookup]
        by_cases hsame : first = (moduleNamespace, module.name)
        · rw [if_pos hsame, hkept (hadded.trans (congrArg some hsame))]
        · rw [if_neg hsame, hfirst]
      refine ⟨⟨first, hcurrent⟩, ?_, fun _ => ⟨first, hadded, hcurrent⟩⟩
      intro other hother hotherAccess
      rcases (hregistered other).mp hother with rfl | ⟨key, -, hkey⟩
      · rw [hmodule] at hotherAccess
        cases hotherAccess
      · exact htop.access other ⟨key, hkey⟩ hotherAccess

theorem topModule_eq_none_iff {net : Network} :
    net.topModule = none ↔ net.top = none ∧ net.first = none := by
  rw [Network.topModule]
  cases net.top with
  | none => exact (and_iff_right rfl).symm
  | some top => exact iff_of_false (Option.some_ne_none top) fun h => Option.some_ne_none top h.1

theorem Consistent.topModule_eq_none_iff {h : History} (hconsistent : Consistent h) :
    h.network.topModule = none ↔ h.firstAdded = none := by
  rw [TopModule.topModule_eq_none_iff, ← not_iff_not, ← ne_eq h.firstAdded, ← hconsistent.started,
    not_and_or]

theorem admits_null {h : History} {call : Call} (hnull : call.key = none) : h.Admits call := by
  obtain ⟨moduleNamespace, module⟩ := call
  cases moduleNamespace with
  | none => exact trivial
  | some moduleNamespace =>
    cases module with
    | none => exact trivial
    | some module => cases hnull

section Kinds

variable {h : History} {moduleNamespace : Namespace} {module : Module}

theorem topIsLive_add_access (hunchanged : h.halfDone = false)
    (haccess : h.network.uniquifiedNamespace ≠ some moduleNamespace ∧ module.hasAccessLink = true)
    (htop : h.network.top = none) : (h.add ⟨some moduleNamespace, some module⟩).TopIsLive := by
  rw [add_access haccess htop, topIsLive_iff]
  refine ⟨hunchanged, .inr ⟨module, rfl, ?_, fun _ _ _ => haccess.2, fun hnone => ?_⟩⟩
  · exact (registered_iff h.network module).mpr (.inl rfl)
  · rw [haccess.2] at hnone
    cases hnone

/-- The call throws, which leaves the network as it was only if the module is registered there. -/
theorem topIsLive_add_second_iff (hconsistent : Consistent h) (hlive : h.TopIsLive)
    (haccess : h.network.uniquifiedNamespace ≠ some moduleNamespace ∧ module.hasAccessLink = true)
    {top : Module} (htop : h.network.top = some top) :
    (h.add ⟨some moduleNamespace, some module⟩).TopIsLive ↔
      h.network.modules.lookup (moduleNamespace, module.name) = some module := by
  obtain ⟨hunchanged, hbefore⟩ := (topIsLive_iff h).mp hlive
  have hadded : h.firstAdded ≠ none := by
    apply hconsistent.started.mp
    rw [htop]
    exact .inl (Option.some_ne_none top)
  rw [← registered_self_iff, add_second haccess htop (hconsistent.access top htop), topIsLive_iff]
  constructor
  · rintro ⟨hsame, -⟩
    rw [hunchanged, Bool.false_or, decide_eq_false_iff_not, not_or, not_not] at hsame
    exact hsame.1
  · intro hsame
    have hnetwork : registered h.network moduleNamespace module = h.network := by
      rw [registered]
      exact congrArg (fun modules => { h.network with modules := modules }) hsame
    rw [hnetwork, orElse_of_ne_none hadded, hunchanged]
    refine ⟨?_, hbefore⟩
    simp

variable (hother : ¬(h.network.uniquifiedNamespace ≠ some moduleNamespace ∧
  module.hasAccessLink = true))
include hother

theorem topIsLive_add_first (hconsistent : Consistent h) (hunchanged : h.halfDone = false)
    (htop : h.network.topModule = none) :
    (h.add ⟨some moduleNamespace, some module⟩).TopIsLive := by
  have hpointers := topModule_eq_none_iff.mp htop
  have hnothing := hconsistent.topModule_eq_none_iff.mp htop
  rw [add_other hother, topIsLive_iff]
  refine ⟨hunchanged, .inr ⟨module, ?_, ?_, ?_, ?_⟩⟩
  · rw [Network.topModule, hpointers.2]
    change (h.network.top <|> _) = _
    rw [hpointers.1]
    rfl
  · exact (registered_iff h.network module).mpr (.inl rfl)
  · intro other hregistered haccess
    rcases (registered_iff h.network other).mp hregistered with rfl | ⟨key, -, hkey⟩
    · exact haccess
    · exact absurd ⟨key, hkey⟩ (hconsistent.nothing hnothing other)
  · intro _
    rw [hnothing]
    exact ⟨_, rfl, (lookup_registered h.network _).trans (if_pos rfl)⟩

/-- The pointers stay as they are. -/
theorem topModule_add_other {top : Module} (htop : h.network.topModule = some top) :
    (h.add ⟨some moduleNamespace, some module⟩).network.topModule = some top := by
  rw [add_other hother]
  change (h.network.top <|> (h.network.first <|> some module)) = some top
  rw [Network.topModule] at htop
  cases hpointer : h.network.top with
  | none =>
    rw [hpointer] at htop
    change h.network.first = some top at htop
    rw [htop]
    rfl
  | some other =>
    rw [hpointer] at htop
    exact htop

theorem topIsLive_add_other_iff (hconsistent : Consistent h) (hlive : h.TopIsLive) {top : Module}
    (htop : h.network.topModule = some top) :
    (h.add ⟨some moduleNamespace, some module⟩).TopIsLive ↔
      if top.hasAccessLink then
        h.network.modules.lookup (moduleNamespace, module.name) = some top → module = top ∨
          ∃ key ≠ (moduleNamespace, module.name), h.network.modules.lookup key = some top
      else module.hasAccessLink = false ∧
        (h.firstAdded = some (moduleNamespace, module.name) → module = top) := by
  obtain ⟨hunchanged, hbefore⟩ := (topIsLive_iff h).mp hlive
  have hadded : h.firstAdded ≠ none := by
    rw [ne_eq, ← hconsistent.topModule_eq_none_iff, htop]
    exact Option.some_ne_none top
  obtain ⟨found, hfound, hisTop⟩ := hbefore.resolve_left hadded
  obtain rfl := Option.some.inj (htop.symm.trans hfound)
  have hafter := topModule_add_other hother htop
  rw [add_other hother, orElse_of_ne_none hadded] at hafter ⊢
  rw [topIsLive_iff, ← isTop_registered_iff hisTop moduleNamespace module
    (h.network.top, h.network.first <|> some module)]
  constructor
  · rintro ⟨-, hnone | ⟨other, hsome, hotherTop⟩⟩
    · exact absurd hnone hadded
    · obtain rfl := Option.some.inj (hafter.symm.trans hsome)
      exact hotherTop
  · exact fun hkept => ⟨hunchanged, .inr ⟨top, hafter, hkept⟩⟩

end Kinds

/-- From a history in which the top module is live, a call keeps it live if and only if it is admitted. -/
theorem topIsLive_add_iff {h : History} (hconsistent : Consistent h) (hlive : h.TopIsLive)
    (call : Call) : (h.add call).TopIsLive ↔ h.Admits call := by
  rcases key_cases call with hnull | ⟨moduleNamespace, module, rfl⟩
  · rw [add_null hnull]
    exact iff_of_true hlive (admits_null hnull)
  simp only [History.Admits]
  by_cases haccess : h.network.uniquifiedNamespace ≠ some moduleNamespace ∧
      module.hasAccessLink = true
  · rw [if_pos haccess]
    cases htop : h.network.top with
    | none =>
      exact iff_of_true (topIsLive_add_access hlive.unchanged haccess htop) (.inl rfl)
    | some top =>
      rw [or_iff_right (Option.some_ne_none top)]
      exact topIsLive_add_second_iff hconsistent hlive haccess htop
  · rw [if_neg haccess]
    cases htop : h.network.topModule with
    | none =>
      exact iff_of_true (topIsLive_add_first haccess hconsistent hlive.unchanged htop)
        fun top hsome => by cases hsome
    | some top =>
      rw [topIsLive_add_other_iff haccess hconsistent hlive htop]
      exact ⟨fun hkept _ hsome => Option.some.inj hsome ▸ hkept, fun hadmits => hadmits top rfl⟩

/-! ### Runs -/

theorem TopIsLive.start (uniquifiedNamespace : Option Namespace) :
    (History.start uniquifiedNamespace).TopIsLive :=
  (topIsLive_iff _).mpr ⟨rfl, .inl rfl⟩

/-- In every state of a history of calls the top module is live, if and only if every call is admitted by the state before it. -/
theorem topIsLive_iff_admits (uniquifiedNamespace : Option Namespace) (calls : List Call) :
    (∀ made, made <+: calls → (made.foldl History.add (.start uniquifiedNamespace)).TopIsLive) ↔
      ∀ made call, made ++ [call] <+: calls →
        (made.foldl History.add (.start uniquifiedNamespace)).Admits call := by
  have hconsistent (made : List Call) :
      Consistent (made.foldl History.add (.start uniquifiedNamespace)) := by
    induction made using List.reverseRecOn with
    | nil => exact Consistent.start uniquifiedNamespace
    | append_singleton made call ih =>
      rw [List.foldl_append]
      exact ih.add call
  have hstep : ∀ h call, Consistent h ∧ h.TopIsLive →
      (Consistent (h.add call) ∧ (h.add call).TopIsLive ↔ h.Admits call) := by
    rintro h call ⟨hc, hlive⟩
    rw [and_iff_right (hc.add call)]
    exact topIsLive_add_iff hc hlive call
  rw [← Runs.forall_foldl_iff hstep ⟨Consistent.start _, TopIsLive.start _⟩ calls]
  exact forall₂_congr fun made _ => (and_iff_right (hconsistent made)).symm

/-- The top module is still the definition that the second call has replaced. -/
theorem not_topIsLive_replaced :
    ¬∀ made, made <+: [⟨some ⟨0, "root"⟩, some ⟨0, "Chip", false⟩⟩,
        (⟨some ⟨0, "root"⟩, some ⟨1, "Chip", false⟩⟩ : Call)] →
      (made.foldl History.add (.start none)).TopIsLive := by
  intro hall
  let first : Call := ⟨some ⟨0, "root"⟩, some ⟨0, "Chip", false⟩⟩
  let second : Call := ⟨some ⟨0, "root"⟩, some ⟨1, "Chip", false⟩⟩
  have hfirst : ((History.start none).add first).TopIsLive := hall [first] (List.prefix_append _ _)
  have hsecond : (((History.start none).add first).add second).TopIsLive :=
    hall [first, second] (List.prefix_refl _)
  have hadmits := (topIsLive_add_iff ((Consistent.start none).add first) hfirst second).mp hsecond
  have hkept := (hadmits ⟨0, "Chip", false⟩ rfl).2 rfl
  cases hkept

end TopModule

end Mast
