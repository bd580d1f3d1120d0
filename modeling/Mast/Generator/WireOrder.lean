import Mast.Generator.Crossings
import Mathlib.Data.List.Forall2
import Mathlib.Data.List.Perm.Basic

/-!
# The order of the generated registers

The tree of a wire of the top module scans the registers in the order of the wire exactly when, on the way back, nothing but returns to instances follows the first register that is passed on a return: the nodes of returns are in the tree before the stack of the others is appended.
-/

namespace Mast

namespace Generator

open Forests Fuel Network Outcome

variable {n : Nat} {net : Network n} {s : State n} {σ : List Signal} {trace : Trace n}
  {scanOutPort scanInPort : Port}

/-! ### Bypass sequences -/

namespace ScanRegister

variable {scanRegister : ScanRegister} {bits : Bits}

/-- The bits are the reset value in the declared width, zeros without one. -/
def Holds (scanRegister : ScanRegister) (bits : Bits) : Prop :=
  bits.length = scanRegister.identifier.width ∧
    match scanRegister.resetValue with
    | none => bits = Bits.zeros scanRegister.identifier.width
    | some resetValue =>
      ∃ v, resetValue.asBinaryVector scanRegister.identifier.width = .ok v ∧ v.bits = bits

/-- A vector of the declared width can be built, and the reset value fits it. -/
def Fits (scanRegister : ScanRegister) : Prop :=
  scanRegister.identifier.width + 7 < uint32Size ∧
    ∀ resetValue ∈ scanRegister.resetValue,
      ∃ v, resetValue.asBinaryVector scanRegister.identifier.width = .ok v

theorem width_pos (identifier : VectorIdentifier) : identifier.width ≠ 0 := by
  unfold VectorIdentifier.width
  split
  · split <;> omega
  · decide

theorem Fits.bypassValue (hfits : scanRegister.Fits) :
    ∃ bits, scanRegister.bypassValue = .ok bits ∧ scanRegister.Holds bits := by
  obtain ⟨hwidth, hreset⟩ := hfits
  have hcount : scanRegister.identifier.bitsCount.toNat = scanRegister.identifier.width := by
    rw [VectorIdentifier.bitsCount_toNat, Nat.mod_eq_of_lt (by omega)]
  unfold ScanRegister.bypassValue Holds
  simp only [hcount, Bits.filled_zeros hwidth]
  cases hvalue : scanRegister.resetValue with
  | none => exact ⟨_, rfl, Bits.zeros_length _, rfl⟩
  | some resetValue =>
    obtain ⟨v, hv⟩ := hreset resetValue hvalue
    have hlength := (AST.ResolvedNumber.asBinaryVector_width (by omega) hv).2 (width_pos _)
    refine ⟨v.bits, ?_, hlength, v, hv, rfl⟩
    simp only [hv, bind, Except.bind]

theorem Holds.fits (hholds : scanRegister.Holds bits)
    (hbypass : scanRegister.bypassValue = .ok bits) : scanRegister.Fits := by
  obtain ⟨zeros, hzeros, hvalue⟩ := bind_eq_ok.mp hbypass
  have hle := scanRegister.identifier.width_le
  have hwithin := Bits.filled_within
    (scanRegister.identifier.bitsCount.toNat_lt) hzeros
  have hlength := hholds.1
  -- a width of all 32 bits counts as none, and no vector is so long
  have hlt : scanRegister.identifier.width < uint32Size := by
    refine Nat.lt_of_le_of_ne hle fun hfull => ?_
    have hcount : scanRegister.identifier.bitsCount.toNat = 0 := by
      rw [VectorIdentifier.bitsCount_toNat, hfull, Nat.mod_self]
    rw [hcount] at hzeros hvalue
    rw [hfull] at hlength
    split at hvalue
    · rw [Bits.filled_zeros (by decide)] at hzeros
      cases hzeros
      cases hvalue
      exact absurd hlength (by decide)
    · rename_i resetValue _
      split at hvalue
      · rename_i v hv
        cases hvalue
        exact absurd (AST.ResolvedNumber.asBinaryVector_width (by decide) hv).1 (by omega)
      · obtain ⟨shown, -, hthrow⟩ := bind_eq_ok.mp hvalue
        cases hthrow
      · cases hvalue
  have hcount : scanRegister.identifier.bitsCount.toNat = scanRegister.identifier.width := by
    rw [VectorIdentifier.bitsCount_toNat, Nat.mod_eq_of_lt hlt]
  rw [hcount] at hwithin
  refine ⟨hwithin, fun resetValue hreset => ?_⟩
  have hsecond := hholds.2
  rw [Option.mem_def.mp hreset] at hsecond
  obtain ⟨v, hv, -⟩ := hsecond
  exact ⟨v, hv⟩

end ScanRegister

/-! ### Registers of the tree -/

def IsRegisterOf (node : Node n) (element : Fin n × ScanRegister) : Prop :=
  ∃ bits, node = .register element.1 element.2.baseName bits ∧ element.2.Holds bits

/-- The generation gives a tree. Its registers, from left to right, are those of the wire from its input to its output, each once and with its width and its reset value. -/
def Network.GeneratesInOrder (net : Network n) (trace : Trace n) : Prop :=
  ∃ (s : State n) (f : Forest (Node n)), Ends net.generateTopModule (.ok s) ∧ s.children .top = f.heads ∧
    f.Unfolds Node.isRegister s.children ∧ f.leaves.Nodup ∧
    List.Forall₂ IsRegisterOf f.leaves trace.registers.reverse

/-- Every register fits. On the way back, once a register is passed on a return to an instance of the top module, those that follow are passed on such returns, too. -/
def Trace.Straight (trace : Trace n) : Prop :=
  (∀ element ∈ trace.registers, element.2.Fits) ∧
    (trace.onReturn []).Pairwise fun element later => element.1 = true → later.1 = true

theorem onReturn_registers (seen : List String) (trace : Trace n) :
    (trace.onReturn seen).map Prod.snd = trace.registers := by
  induction trace generalizing seen with
  | nil => rfl
  | register module scanRegister rest ih => simp [Trace.onReturn, Trace.registers, ih]
  | crossing module inst port inner rest _ ih =>
    simp [Trace.onReturn, Trace.registers, ih, Function.comp_def]

/-- The elements without a mark come first exactly when none of them follows one with a mark. -/
theorem filter_append_filter_eq_iff {α : Type*} (l : List (Bool × α)) :
    (l.filter fun a => a.1 == false) ++ (l.filter fun a => a.1 == true) = l ↔
      l.Pairwise fun a b => a.1 = true → b.1 = true := by
  induction l with
  | nil => simp
  | cons a l ih =>
    obtain ⟨mark, a⟩ := a
    rw [List.pairwise_cons, ← ih]
    cases mark with
    | false => simp
    | true =>
      have hfalse : ((true, a) :: l).filter (fun a => a.1 == false) =
          l.filter fun a => a.1 == false := rfl
      have htrue : ((true, a) :: l).filter (fun a => a.1 == true) =
          (true, a) :: l.filter fun a => a.1 == true := rfl
      rw [hfalse, htrue]
      constructor
      · intro heq
        have hnone : l.filter (fun a => a.1 == false) = [] := by
          cases hfilter : l.filter (fun a => a.1 == false) with
          | nil => rfl
          | cons b rest =>
            rw [hfilter] at heq
            have hb := (List.cons.inj heq).1
            have hmem : b ∈ l.filter fun a => a.1 == false := hfilter ▸ List.mem_cons_self
            rw [hb] at hmem
            simp at hmem
        rw [hnone] at heq ⊢
        refine ⟨fun b hb _ => ?_, (List.cons.inj heq).2⟩
        have := List.filter_eq_nil_iff.mp hnone b hb
        simpa using this
      · intro hboth
        obtain ⟨hall, -⟩ := hboth
        have hnone : l.filter (fun a => a.1 == false) = [] := by
          apply List.filter_eq_nil_iff.mpr
          intro b hb
          simp [hall b hb rfl]
        have hself : l.filter (fun a => a.1 == true) = l := by
          apply List.filter_eq_self.mpr
          intro b hb
          simp [hall b hb rfl]
        rw [hnone, hself]
        rfl

/-! ### The whole generation -/

theorem foldl_appendChild_children (nodes : List (Node n)) (s : State n) (parent : Node n) :
    (nodes.foldl (fun s child => s.appendChild parent child) s).children =
      Function.update s.children parent (s.children parent ++ nodes) := by
  induction nodes generalizing s with
  | nil => simp
  | cons node nodes ih =>
    rw [List.foldl_cons, ih]
    simp [State.appendChild]

/-- For a single output the generation is one walk. -/
theorem generate_of_walk {result : Except Fault (State n)}
    (hin : (net.modules net.topModule).scanInPorts ≠ [])
    (hout : (net.modules net.topModule).scanOutPorts = [scanOutPort])
    (hsource : scanOutPort.source = some σ)
    (hends : WalkEnds net net.topModule σ net.start result) :
    Ends net.generateTopModule (result.map fun s => s.appendCreatedNodesToParent .top) := by
  obtain ⟨enough, hends⟩ := hends
  refine ⟨enough, fun fuel hfuel => ?_⟩
  have hwalk := hends fuel hfuel
  simp only [generateTopModule, if_neg hin, hout, List.cons_ne_nil, if_false, generatePaths, hsource, hwalk]
  cases result with
  | error fault => rfl
  | ok s => rfl

theorem start_noChildrenYet : net.start.NoChildrenYet := fun _ _ _ => rfl

theorem start_not_passed (passage : Passage n) : ¬net.start.Passed passage := by
  cases passage <;> exact Finset.notMem_empty _

variable (huniquified : net.Uniquified)
  (hout : (net.modules net.topModule).scanOutPorts = [scanOutPort])
  (hsource : scanOutPort.source = some σ)
  (hwire : Wire net net.topModule σ trace scanInPort)
include huniquified hout hsource hwire

/-- The registers that are passed on returns come first, and then the stacked ones. -/
theorem Wire.generates (hconverts : trace.Converts) :
    ∃ (s : State n) (f : Forest (Node n)), Ends net.generateTopModule (.ok s) ∧
      s.children .top = f.heads ∧ f.Unfolds Node.isRegister s.children ∧
      f.leaves = trace.leavesOf true [] ++ trace.leavesOf false [] := by
  have hseen : ∀ name, name ∈ [] ↔ (net.topModule, name) ∈ net.start.associatedChains :=
    fun name => by simp [start]
  obtain ⟨σ', s', before, stacked, hport, hbefore, hstacked, hleg⟩ := hwire.leg_top huniquified
    hconverts (hwire.nodup_passages huniquified) rfl start_noChildrenYet
    (fun passage _ => start_not_passed passage) hseen
  have hends := generate_of_walk hwire.scanInPorts_ne_nil hout hsource
    (hleg.ends _ (walkEnds_top hport))
  have hcreated : s'.createdNodes = stacked.heads := by
    rw [hleg.grows.created]
    exact List.append_nil _
  have hfront : s'.children .top = before.heads := by
    rw [hleg.grows.front]
    exact List.append_nil _
  have hchildren : (s'.appendCreatedNodesToParent .top).children =
      Function.update s'.children .top (before ++ stacked).heads := by
    change (s'.createdNodes.foldl _ s').children = _
    rw [foldl_appendChild_children, hcreated, hfront, Forest.heads_append]
  refine ⟨_, before ++ stacked, hends, ?_, ?_, ?_⟩
  · rw [hchildren, Function.update_self]
  · rw [hchildren]
    refine hleg.grows.unfolds.congr fun node hmem => Function.update_of_ne ?_ _ _
    rintro rfl
    exact hleg.grows.parent_not_branch (fun _ _ hnode => by cases hnode) hmem
  · rw [Forest.leaves_append, hbefore, hstacked]

theorem Wire.generate_fails (hnot : ¬trace.Converts) :
    ∃ fault, Ends net.generateTopModule (.error fault) := by
  obtain ⟨context, hstack, hmodule, hparent⟩ : ∃ context, net.start.instancesContext = [context] ∧
      context.parentModule = net.topModule ∧ context.parentNode = .top := ⟨_, rfl, rfl, rfl⟩
  have hattached : net.start.Attached context.parentNode := by
    intro m name hnode
    rw [hparent] at hnode
    cases hnode
  obtain ⟨fault, hends⟩ := hwire.fails huniquified hnot (hwire.nodup_passages huniquified)
    hstack hmodule (fun hne => absurd rfl hne) hattached start_noChildrenYet
    fun passage _ => start_not_passed passage
  exact ⟨fault, generate_of_walk hwire.scanInPorts_ne_nil hout hsource hends⟩

omit huniquified hout hsource hwire

/-! ### Which order it is -/

def keyOf (element : Fin n × ScanRegister) : Fin n × String := (element.1, element.2.baseName)

def registerKey : Node n → Option (Fin n × String)
  | .register module name _ => some (module, name)
  | _ => none

theorem registers_sublist (trace : Trace n) :
    (trace.registers.map fun element => Passage.register element.1 element.2.baseName).Sublist
      trace.passages := by
  induction trace with
  | nil => exact List.Sublist.slnil
  | register module scanRegister rest ih => exact ih.cons_cons _
  | crossing module inst port inner rest ihinner ih =>
    rw [Trace.registers, List.map_append]
    exact (ihinner.append ih).cons _

theorem nodup_keys (hnodup : trace.passages.Nodup) : (trace.registers.map keyOf).Nodup := by
  have hregisters := hnodup.sublist (registers_sublist trace)
  rw [show (fun element : Fin n × ScanRegister =>
    Passage.register element.1 element.2.baseName) =
      (fun key : Fin n × String => Passage.register key.1 key.2) ∘ keyOf from rfl,
    ← List.map_map] at hregisters
  exact hregisters.of_map _

theorem eq_of_map_eq {α β : Type*} {f : α → β} {l l' : List α}
    (hinj : ∀ a ∈ l, ∀ b ∈ l', f a = f b → a = b) (hmap : l.map f = l'.map f) : l = l' := by
  induction l generalizing l' with
  | nil => exact (List.map_eq_nil_iff.mp hmap.symm).symm
  | cons a l ih =>
    cases l' with
    | nil => cases hmap
    | cons b l' =>
      obtain ⟨hhead, htail⟩ := List.cons.inj hmap
      have hrest : ∀ c ∈ l, ∀ d ∈ l', f c = f d → c = d := fun c hc d hd =>
        hinj c (List.mem_cons_of_mem _ hc) d (List.mem_cons_of_mem _ hd)
      rw [hinj a List.mem_cons_self b List.mem_cons_self hhead, ih hrest htail]

theorem leavesOf_append (trace : Trace n) :
    trace.leavesOf true [] ++ trace.leavesOf false [] =
      ((((trace.onReturn []).filter fun a => a.1 == false) ++
        (trace.onReturn []).filter fun a => a.1 == true).map fun a => leafOf a.2).reverse := by
  rw [List.map_append, List.reverse_append]
  rfl

theorem map_registerKey_of_forall₂ {nodes : List (Node n)} {elements : List (Fin n × ScanRegister)}
    (hregisters : List.Forall₂ IsRegisterOf nodes elements) :
    nodes.map registerKey = elements.map (some ∘ keyOf) := by
  induction hregisters with
  | nil => rfl
  | cons hhead _ ih =>
    obtain ⟨bits, rfl, -⟩ := hhead
    rw [List.map_cons, List.map_cons, ih]
    rfl

theorem Trace.Straight.converts (hstraight : trace.Straight) : trace.Converts := by
  intro element hmem
  obtain ⟨bits, hbits, -⟩ := (hstraight.1 element hmem).bypassValue
  exact ⟨bits, hbits⟩

theorem Trace.Straight.leavesOf_eq (hstraight : trace.Straight) :
    trace.leavesOf true [] ++ trace.leavesOf false [] = trace.registers.reverse.map leafOf := by
  rw [leavesOf_append, (filter_append_filter_eq_iff _).mpr hstraight.2,
    ← onReturn_registers [] trace, List.map_reverse, List.map_map]
  rfl

include huniquified hout hsource hwire

theorem generatesInOrder_of_straight (hstraight : trace.Straight) : net.GeneratesInOrder trace := by
  obtain ⟨s, f, hends, hheads, hunfolds, hleaves⟩ :=
    hwire.generates huniquified hout hsource hstraight.converts
  rw [hstraight.leavesOf_eq] at hleaves
  refine ⟨s, f, hends, hheads, hunfolds, ?_, ?_⟩
  · have hnodup := List.nodup_reverse.mpr (nodup_keys (hwire.nodup_passages huniquified))
    rw [← List.map_reverse] at hnodup
    have hkeys := hnodup.map (Option.some_injective _)
    rw [List.map_map] at hkeys
    rw [hleaves]
    apply List.Nodup.of_map registerKey
    rw [List.map_map]
    exact hkeys
  · rw [hleaves, List.forall₂_map_left_iff]
    apply List.forall₂_same.mpr
    intro element hmem
    obtain ⟨bits, hbits, hholds⟩ :=
      (hstraight.1 element (List.mem_reverse.mp hmem)).bypassValue
    exact ⟨bits, leafOf_eq hbits, hholds⟩

theorem straight_of_generatesInOrder (hgenerates : net.GeneratesInOrder trace) :
    trace.Straight := by
  obtain ⟨s, f, hends, hheads, hunfolds, -, hregisters⟩ := hgenerates
  have hconverts : trace.Converts := by
    by_contra hnot
    obtain ⟨fault, hfails⟩ := hwire.generate_fails huniquified hout hsource hnot
    cases hends.unique hfails
  obtain ⟨s', f', hends', hheads', hunfolds', hleaves⟩ :=
    hwire.generates huniquified hout hsource hconverts
  obtain rfl := Except.ok.inj (hends.unique hends')
  obtain rfl := hunfolds.unique hunfolds' (hheads.symm.trans hheads')
  have hkeys := nodup_keys (hwire.nodup_passages huniquified)
  have hinj := List.inj_on_of_nodup_map hkeys
  rw [hleaves, leavesOf_append] at hregisters
  constructor
  · intro element hmem
    obtain ⟨node, hnode, bits, hregister, hholds⟩ :
        ∃ node ∈ (((((trace.onReturn []).filter fun a => a.1 == false) ++
          (trace.onReturn []).filter fun a => a.1 == true).map fun a => leafOf a.2).reverse),
            IsRegisterOf node element := by
      obtain ⟨i, hi, rfl⟩ := List.getElem_of_mem (List.mem_reverse.mpr hmem)
      have hlength := hregisters.length_eq
      exact ⟨_, List.getElem_mem (by omega), hregisters.get (by omega) hi⟩
    obtain ⟨marked, hmarked, hleaf⟩ := List.mem_map.mp (List.mem_reverse.mp hnode)
    have hin : marked.2 ∈ trace.registers := by
      rw [← onReturn_registers [] trace]
      refine List.mem_map_of_mem ?_
      rcases List.mem_append.mp hmarked with hpart | hpart
      · exact (List.mem_filter.mp hpart).1
      · exact (List.mem_filter.mp hpart).1
    obtain ⟨bypassValue, hbypass⟩ := hconverts marked.2 hin
    rw [hregister, leafOf_eq hbypass] at hleaf
    obtain ⟨hmodule, hname, rfl⟩ := Node.register.inj hleaf
    obtain rfl := hinj hin hmem (Prod.ext hmodule hname)
    exact hholds.fits hbypass
  · rw [← filter_append_filter_eq_iff]
    have hsame := map_registerKey_of_forall₂ hregisters
    rw [List.map_reverse, List.map_reverse, List.reverse_inj, List.map_map,
      ← onReturn_registers [] trace, List.map_map] at hsame
    refine eq_of_map_eq (f := fun a : Bool × Fin n × ScanRegister => some (keyOf a.2)) ?_ hsame
    intro a ha b hb heq
    have ha : a ∈ trace.onReturn [] := by
      rcases List.mem_append.mp ha with hpart | hpart
      · exact (List.mem_filter.mp hpart).1
      · exact (List.mem_filter.mp hpart).1
    rw [← onReturn_registers [] trace, List.map_map] at hkeys
    exact List.inj_on_of_nodup_map hkeys ha hb (Option.some.inj heq)

/-- The exact condition for the order of the wire. -/
theorem generatesInOrder_iff : net.GeneratesInOrder trace ↔ trace.Straight :=
  ⟨straight_of_generatesInOrder huniquified hout hsource hwire,
    generatesInOrder_of_straight huniquified hout hsource hwire⟩

omit huniquified hout hsource hwire

/-! ### An instance on both sides of a register -/

def scalar (name : String) : VectorIdentifier := ⟨name, .scalar⟩

def toName (name : String) : List Signal := [.port [] (scalar name) false]

def bitRegister (name source : String) : ScanRegister := ⟨scalar name, none, toName source⟩

def channels : Module 2 where
  name := "Channels"
  scanInPorts := [⟨scalar "si1", none⟩, ⟨scalar "si2", none⟩]
  scanOutPorts := [⟨scalar "so1", some (toName "R1")⟩, ⟨scalar "so2", some (toName "R2")⟩]
  scanRegisters := [bitRegister "R1" "si1", bitRegister "R2" "si2"]
  instances := []

def channelsInst : Instance 2 where
  name := "I"
  uniquifiedModule := 1
  inputPorts := [⟨scalar "si1", some (toName "R0")⟩,
    ⟨scalar "si2", some [.port ["I"] (scalar "so1") false]⟩]

/-- A register that is reset to one. -/
def setRegister (name source : String) : ScanRegister :=
  { bitRegister name source with resetValue := some (.sizedBinary true []) }

/-- A register and then the first channel, which the second one follows. -/
def channelsTo (output : String) : Network 2 where
  modules m := if m = 0 then
      ⟨"Top", [⟨scalar "SI", none⟩],
        [⟨scalar "SO", some [.port ["I"] (scalar output) false]⟩], [setRegister "R0" "SI"],
        [channelsInst]⟩
    else channels
  topModule := 0

/-- The output is that of the second channel. -/
def bothChannels : Network 2 := channelsTo "so2"

section

variable {output : String}

theorem mem_channelsTo {m : Fin 2} {inst : Instance 2}
    (hmem : inst ∈ ((channelsTo output).modules m).instances) : m = 0 ∧ inst = channelsInst := by
  by_cases hm : m = 0
  · subst hm
    exact ⟨rfl, List.mem_singleton.mp hmem⟩
  · have hinstances : ((channelsTo output).modules m).instances = [] := by
      change (if m = 0 then _ else channels).instances = []
      rw [if_neg hm]
      rfl
    rw [hinstances] at hmem
    cases hmem

theorem channelsTo_uniquified : (channelsTo output).Uniquified where
  unique hmem hmem' _ := by
    obtain ⟨rfl, rfl⟩ := mem_channelsTo hmem
    obtain ⟨rfl, rfl⟩ := mem_channelsTo hmem'
    exact ⟨rfl, rfl⟩
  top hmem := by
    obtain ⟨rfl, rfl⟩ := mem_channelsTo hmem
    change (1 : Fin 2) ≠ 0
    decide

def frontTrace : Trace 2 :=
  .crossing 0 channelsInst ⟨scalar "so1", some (toName "R1")⟩
    (.register 1 (bitRegister "R1" "si1") .nil) (.register 0 (setRegister "R0" "SI") .nil)

def bothChannelsTrace : Trace 2 :=
  .crossing 0 channelsInst ⟨scalar "so2", some (toName "R2")⟩
    (.register 1 (bitRegister "R2" "si2") .nil) frontTrace

theorem front_wire :
    Wire (channelsTo output) 0 [.port ["I"] (scalar "so1") false] frontTrace
      ⟨scalar "SI", none⟩ := by
  have hfirst : Wire (channelsTo output) 1 (toName "R1")
      (.register 1 (bitRegister "R1" "si1") .nil) ⟨scalar "si1", none⟩ := .register rfl rfl (.scanIn rfl)
  have hfront : Wire (channelsTo output) 0 (toName "R0")
      (.register 0 (setRegister "R0" "SI") .nil) ⟨scalar "SI", none⟩ := .register rfl rfl (.scanIn rfl)
  exact .crossing rfl rfl rfl hfirst rfl rfl hfront

theorem bothChannels_wire :
    Wire bothChannels 0 [.port ["I"] (scalar "so2") false] bothChannelsTrace
      ⟨scalar "SI", none⟩ := by
  have hsecond : Wire bothChannels 1 (toName "R2") (.register 1 (bitRegister "R2" "si2") .nil)
      ⟨scalar "si2", none⟩ := .register rfl rfl (.scanIn rfl)
  exact .crossing rfl rfl rfl hsecond rfl rfl front_wire

end

/-- With the first channel alone everything is in order. With both, its register is in the tree before the one in front of it. -/
theorem channels_inOrder :
    (channelsTo "so1").GeneratesInOrder frontTrace ∧
      ¬bothChannels.GeneratesInOrder bothChannelsTrace := by
  constructor
  · refine (generatesInOrder_iff channelsTo_uniquified rfl rfl front_wire).mpr ⟨?_, by decide⟩
    intro element hmem
    rcases List.mem_pair.mp hmem with rfl | rfl
    · exact ⟨by decide, fun _ hnone => by cases hnone⟩
    · refine ⟨by decide, fun resetValue hsome => ?_⟩
      obtain rfl := Option.some.inj hsome
      exact ⟨.ofBits [true] .notFixed, by decide +kernel⟩
  · intro hgenerates
    have hstraight := ((generatesInOrder_iff channelsTo_uniquified rfl rfl bothChannels_wire).mp
      hgenerates).2
    revert hstraight
    decide

end Generator

end Mast
