import Mast.Lib.Outcome
import Mast.Scan.Register

/-!
# Virtual registers and path selectors

The state of a system model is what its nodes hold, by node identifier. A path selector reads and writes that state through the virtual register that drives its multiplexer: slices of one or several registers. What a selector can do to the state is said once, by `Steers`.
-/

namespace Mast

open BinaryVector (IndexedRange)
open Outcome

/-- What the identifier mapping of a `SystemModel` holds for an identifier: nothing any more, a register or another node. -/
inductive MappedNode
  | removed
  | register
  | other
  deriving DecidableEq

/-- The state of the nodes of a `SystemModel`: its registers, and the counters of its parent nodes. -/
structure SystemModel where
  identifierMapping : List MappedNode
  registers : Nat → Register
  pendingCounts : Nat → Nat
  iRunLoopCounts : Nat → Nat

namespace SystemModel

def IsRegister (s : SystemModel) (id : Nat) : Prop := s.identifierMapping[id]? = some .register

instance (s : SystemModel) (id : Nat) : Decidable (s.IsRegister id) :=
  inferInstanceAs (Decidable (_ = _))

/-- `RegisterWithId`; a node that is not a register gives a null pointer. -/
def registerWithId (s : SystemModel) (id : Nat) : Except Fault (Option Register) :=
  match s.identifierMapping[id]? with
  | none => .error (.logicError "There is no node registered for specified identifier")
  | some .removed =>
    .error (.logicError "There is no more node registered for specified identifier")
  | some .register => .ok (some (s.registers id))
  | some .other => .ok none

theorem registerWithId_eq_some {s : SystemModel} {id : Nat} {r : Register}
    (h : s.registerWithId id = .ok (some r)) : r = s.registers id := by
  unfold registerWithId at h
  split at h
  · cases h
  · cases h
  · exact (Option.some.inj (Except.ok.inj h)).symm
  · cases h

def setRegister (s : SystemModel) (id : Nat) (r : Register) : SystemModel :=
  { s with registers := Function.update s.registers id r }

/-- The state once the pending count of a parent node has been set. -/
def setPendingCount (s : SystemModel) (id count : Nat) : SystemModel :=
  { s with pendingCounts := Function.update s.pendingCounts id count }

/-- The state once the number of run loops of a parent node has been set. -/
def setiRunLoop (s : SystemModel) (id count : Nat) : SystemModel :=
  { s with iRunLoopCounts := Function.update s.iRunLoopCounts id count }

end SystemModel

/-! ### Virtual registers -/

structure RegisterSlice where
  reg : Nat
  range : IndexedRange
  deriving DecidableEq

/-- The slices of a `VirtualRegister`, in order. -/
abbrev VirtualRegister := List RegisterSlice

namespace VirtualRegister

/-- `VirtualRegister(reg)`: all the bits of one register. -/
def ofRegister (reg bitsCount : Nat) : VirtualRegister := [⟨reg, ⟨bitsCount - 1, 0⟩⟩]

/-- `BitsCount`, a sum in 32 bits. -/
def bitsCount : VirtualRegister → Except Fault Nat
  | [] => .ok 0
  | slice :: rest => do
    let width ← slice.range.width
    let count ← bitsCount rest
    return (width + count) % uint32Size

/-- The ordering of the bits, that of the first register. -/
def bitsOrdering (v : VirtualRegister) (s : SystemModel) : BitsOrdering :=
  match v.head? with
  | none => .undefined
  | some slice => (s.registers slice.reg).bitsOrdering

/-- `lastBitIndex - index`, in 32 bits. -/
def adaptedIndex (bits : Bits) (index : Nat) : Nat :=
  (bits.length - 1 + (uint32Size - index % uint32Size)) % uint32Size

/-- `VirtualRegister::GetSlice`. -/
def getSlice (range : IndexedRange) (ordering : BitsOrdering) (bits : Bits) : Except Fault Bits :=
  if bits = [] then .error (.invalidArgument "Cannot get slice of empty BinaryVector")
  else if ordering = .upto then do
    bits.slice range.left (← range.width)
  else do
    let adaptedRange : IndexedRange := ⟨adaptedIndex bits range.left, adaptedIndex bits range.right⟩
    bits.slice adaptedRange.left (← adaptedRange.width)

/-- `VirtualRegister::SetSlice`. -/
def setSlice (range : IndexedRange) (ordering : BitsOrdering) (bits value : Bits) :
    Except Fault Bits :=
  if bits = [] then .error (.invalidArgument "Cannot get slice of empty BinaryVector")
  else do
    if (← range.width) ≠ value.length then
      throw (.runtimeError "Expected range width to be equal to value width")
    bits.setSlice (if ordering = .upto then range.left else adaptedIndex bits range.left) value

/-- The loop of `GetView` over the slices. -/
def viewSlices (s : SystemModel) (ordering : BitsOrdering) (getter : Register → Bits) :
    VirtualRegister → Except Fault Bits
  | [] => .ok []
  | slice :: rest => do
    let bits ← getSlice slice.range ordering (getter (s.registers slice.reg))
    let view ← viewSlices s ordering getter rest
    return bits ++ view

def getView (v : VirtualRegister) (s : SystemModel) (getter : Register → Bits) : Except Fault Bits :=
  if v = [] then
    .error (.runtimeError
      "VirtualRegister must be interface to at least one register before requesting some values")
  else viewSlices s (v.bitsOrdering s) getter v

def lastToSut (v : VirtualRegister) (s : SystemModel) : Except Fault Bits :=
  v.getView s Register.lastToSut

def nextToSut (v : VirtualRegister) (s : SystemModel) : Except Fault Bits :=
  v.getView s Register.nextToSut

/-- The next value to send of one register, with one slice of it replaced. -/
def updateRegister (slice : RegisterSlice) (valueRange : IndexedRange) (value : Bits)
    (s : SystemModel) : Except Fault SystemModel := do
  let reg := s.registers slice.reg
  let slicedValue ← getSlice valueRange reg.bitsOrdering value
  let regValue ← setSlice slice.range reg.bitsOrdering reg.nextToSut slicedValue
  return s.setRegister slice.reg (← reg.setToSut regValue)

/-- The loop of `UpdateRegisters`: each slice takes the next bits of the value. -/
def updateSlices (value : Bits) (ordering : BitsOrdering) :
    VirtualRegister → Nat → SystemModel → Except Fault SystemModel
  | [], _, s => .ok s
  | slice :: rest, index, s => do
    let width ← slice.range.width
    let right :=
      if ordering = .upto then (index + (width - 1)) % uint32Size
      else (index + (uint32Size - (width - 1))) % uint32Size
    let s ← updateRegister slice ⟨index, right⟩ value s
    let index :=
      if ordering = .upto then (right + 1) % uint32Size else (right + (uint32Size - 1)) % uint32Size
    updateSlices value ordering rest index s

/-- `VirtualRegister::SetToSut`. -/
def setToSut (v : VirtualRegister) (sequence : Bits) (s : SystemModel) : Except Fault SystemModel :=
  if sequence = [] then .error (.invalidArgument "Can not set to SUT value with empty vector")
  else if v = [] then
    .error (.runtimeError
      "VirtualRegister must be 'interface' to at least one register before calling SetToSut")
  else if v.bitsOrdering s = .upto then updateSlices sequence .upto v 0 s
  else do
    let count ← v.bitsCount
    updateSlices sequence (v.bitsOrdering s) v ((count + (uint32Size - 1)) % uint32Size) s

/-- `VirtualRegister::SetPending`. -/
def setPending : VirtualRegister → SystemModel → SystemModel
  | [], s => s
  | slice :: rest, s => setPending rest (s.setRegister slice.reg (s.registers slice.reg).setPending)

def identifiers (v : VirtualRegister) : List Nat := v.map RegisterSlice.reg

end VirtualRegister

/-! ### Path selectors -/

inductive SelectorKind
  | tableBased
  | oneHot
  | nHot
  deriving DecidableEq

/-- A `DefaultTableBasedPathSelector` or one of the classes derived from it; the binary selector is a table based one. -/
structure PathSelector where
  kind : SelectorKind
  canSelectNone : Bool
  invertedBits : Bool
  pathsCount : Nat
  selectTable : List Bits
  deselectTable : List Bits
  muxRegisters : VirtualRegister
  deriving DecidableEq

namespace PathSelector

variable (p : PathSelector)

def selectablePaths : Nat := p.pathsCount

/-- A table entry, once `CheckPathIdentifier` has accepted its index. -/
def entry (table : List Bits) (pathIdentifier : Nat) : Except Fault Bits :=
  if pathIdentifier ≥ p.selectTable.length then
    .error (.outOfRange ("pathIdentifier must be < " ++ toString p.selectTable.length ++
      ", got: " ++ toString pathIdentifier))
  else
    match table[pathIdentifier]? with
    | none => .error .undefinedBehaviour
    | some value => .ok value

/-- `|=` and `&=`. -/
def combine (op : Bool → Bool → Bool) (bits rhs : Bits) : Except Fault Bits :=
  if rhs.length ≠ bits.length then .error (.logicError "BinaryVectors must have same size")
  else .ok (List.zipWith op bits rhs)

/-- What an N-hot selector does to a value with a mask that selects. -/
def selectMasked (bits mask : Bits) : Except Fault Bits :=
  if p.invertedBits then combine (· && ·) bits mask else combine (· || ·) bits mask

/-- What an N-hot selector does to a value with a mask that keeps bits or deselects. -/
def keepMasked (bits mask : Bits) : Except Fault Bits :=
  if p.invertedBits then combine (· || ·) bits mask else combine (· && ·) bits mask

/-- Whether a value of the multiplexer registers is one that selects the path of a table entry. -/
def accepts (value selectValue : Bits) : Except Fault Bool :=
  match p.kind with
  | .nHot => (p.keepMasked value selectValue).map (· == selectValue)
  | _ => .ok (value == selectValue)

def isActive (s : SystemModel) (pathIdentifier : Nat) : Except Fault Bool := do
  let selectValue ← p.entry p.selectTable pathIdentifier
  p.accepts (← p.muxRegisters.lastToSut s) selectValue

def isSelected (s : SystemModel) (pathIdentifier : Nat) : Except Fault Bool := do
  let selectValue ← p.entry p.selectTable pathIdentifier
  p.accepts (← p.muxRegisters.nextToSut s) selectValue

/-- The value written to the multiplexer registers, unless it is there already. -/
def steer (toSut : Bits) (s : SystemModel) : Except Fault SystemModel := do
  if (← p.muxRegisters.nextToSut s) ≠ toSut then
    return p.muxRegisters.setPending (← p.muxRegisters.setToSut toSut s)
  else return s

def select (pathIdentifier : Nat) (s : SystemModel) : Except Fault SystemModel := do
  match p.kind with
  | .tableBased => p.steer (← p.entry p.selectTable pathIdentifier) s
  | .oneHot =>
    let pathIdentifier := if !p.canSelectNone && pathIdentifier == 0 then 1 else pathIdentifier
    p.steer (← p.entry p.selectTable pathIdentifier) s
  | .nHot =>
    let selectMask ← p.entry p.selectTable pathIdentifier
    let toSut ← p.muxRegisters.nextToSut s
    if pathIdentifier = 0 then p.steer selectMask s
    else p.steer (← p.selectMasked toSut selectMask) s

/-- The value that stands for no path is replaced by that of the first one, unless no path can be selected. -/
def orFirstPath (value : Bits) : Except Fault Bits :=
  if p.canSelectNone then .ok value
  else
    match p.selectTable with
    | noPath :: firstPath :: _ => .ok (if value = noPath then firstPath else value)
    | [noPath] => if value = noPath then .error .undefinedBehaviour else .ok value
    | [] => .error .undefinedBehaviour

/-- `Deselect`. The table based selectors also store the replaced value in their table, where it reads the same later. -/
def deselect (pathIdentifier : Nat) (s : SystemModel) : Except Fault SystemModel := do
  let deselectValue ← p.entry p.deselectTable pathIdentifier
  match p.kind with
  | .nHot =>
    let toSut ← p.orFirstPath (← p.keepMasked (← p.muxRegisters.nextToSut s) deselectValue)
    if p.canSelectNone = false ∧ some toSut = p.selectTable[0]? then
      .error (.logicError
        "Try to select no path, even though selector is configured to at least select one")
    else p.steer toSut s
  | _ => p.steer (← p.orFirstPath deselectValue) s

end PathSelector

/-! ### What steering a selector can change -/

/-- With a hold value the bypass sequence is what is sent next. -/
def Register.Held (r : Register) : Prop := r.holdValue = true → r.bypass = r.nextToSut

/-- What a selector leaves alone in a register: all but what is sent next, with the bypass sequence of a hold register, and the request to send it. -/
structure Register.Steered (r r' : Register) : Prop where
  name : r'.name = r.name
  pendingRead : r'.pendingRead = r.pendingRead
  holdValue : r'.holdValue = r.holdValue
  mustCheckExpected : r'.mustCheckExpected = r.mustCheckExpected
  lastToSut : r'.lastToSut = r.lastToSut
  lastFromSut : r'.lastFromSut = r.lastFromSut
  bypass : r.holdValue = false → r'.bypass = r.bypass
  held : r.Held → r'.Held

theorem Register.Steered.refl (r : Register) : r.Steered r :=
  ⟨rfl, rfl, rfl, rfl, rfl, rfl, fun _ => rfl, id⟩

theorem Register.Steered.trans {r r' r'' : Register} (h : r.Steered r') (h' : r'.Steered r'') :
    r.Steered r'' where
  name := h'.name.trans h.name
  pendingRead := h'.pendingRead.trans h.pendingRead
  holdValue := h'.holdValue.trans h.holdValue
  mustCheckExpected := h'.mustCheckExpected.trans h.mustCheckExpected
  lastToSut := h'.lastToSut.trans h.lastToSut
  lastFromSut := h'.lastFromSut.trans h.lastFromSut
  bypass hfree := (h'.bypass (h.holdValue.trans hfree)).trans (h.bypass hfree)
  held := h'.held ∘ h.held

theorem Register.setToSut_steered {r r' : Register} {sequence : Bits}
    (hset : r.setToSut sequence = .ok r') : r.Steered r' := by
  unfold setToSut at hset
  split at hset
  · obtain rfl := Except.ok.inj hset
    refine ⟨rfl, rfl, rfl, rfl, rfl, rfl, fun hfree => ?_, fun _ hhold => ?_⟩
    · exact if_neg (by rw [hfree]; exact Bool.false_ne_true)
    · exact if_pos hhold
  · cases hset

theorem Register.setToSut_nextToSut {r r' : Register} {sequence : Bits}
    (hset : r.setToSut sequence = .ok r') : r'.nextToSut = sequence := by
  unfold setToSut at hset
  split at hset
  · obtain rfl := Except.ok.inj hset
    rfl
  · cases hset

theorem Register.setPending_steered (r : Register) : r.Steered r.setPending :=
  ⟨rfl, rfl, rfl, rfl, rfl, rfl, fun _ => rfl, id⟩

/-- Only the given registers may have been steered, and nothing else has changed. -/
structure SystemModel.Steered (regs : List Nat) (s s' : SystemModel) : Prop where
  identifierMapping : s'.identifierMapping = s.identifierMapping
  pendingCounts : s'.pendingCounts = s.pendingCounts
  iRunLoopCounts : s'.iRunLoopCounts = s.iRunLoopCounts
  registers (id : Nat) : (s.registers id).Steered (s'.registers id)
  others (id : Nat) : id ∉ regs → s'.registers id = s.registers id

namespace SystemModel

variable {regs : List Nat}

theorem Steered.refl (s : SystemModel) : Steered regs s s :=
  ⟨rfl, rfl, rfl, fun _ => .refl _, fun _ _ => rfl⟩

instance : IsTrans SystemModel (Steered regs) where
  trans _ _ _ h h' :=
    ⟨h'.identifierMapping.trans h.identifierMapping, h'.pendingCounts.trans h.pendingCounts,
      h'.iRunLoopCounts.trans h.iRunLoopCounts,
      fun id => (h.registers id).trans (h'.registers id),
      fun id hid => (h'.others id hid).trans (h.others id hid)⟩

theorem Steered.mono {regs' : List Nat} {s s' : SystemModel} (hsub : regs ⊆ regs')
    (h : Steered regs s s') : Steered regs' s s' :=
  ⟨h.identifierMapping, h.pendingCounts, h.iRunLoopCounts, h.registers, fun id hid => h.others id fun hmem =>
    hid (hsub hmem)⟩

@[simp] theorem setRegister_self (s : SystemModel) (id : Nat) (r : Register) :
    (s.setRegister id r).registers id = r := Function.update_self ..

@[simp] theorem setRegister_other (s : SystemModel) {id other : Nat} (r : Register)
    (hother : other ≠ id) : (s.setRegister id r).registers other = s.registers other :=
  Function.update_of_ne hother ..

theorem setRegister_steered {s : SystemModel} {id : Nat} {r : Register} (hid : id ∈ regs)
    (hr : (s.registers id).Steered r) : Steered regs s (s.setRegister id r) where
  identifierMapping := rfl
  pendingCounts := rfl
  iRunLoopCounts := rfl
  registers other := by
    by_cases hother : other = id
    · rw [hother, setRegister_self]
      exact hr
    · rw [setRegister_other s r hother]
      exact .refl _
  others other hother := by
    refine setRegister_other s r ?_
    rintro rfl
    exact hother hid

end SystemModel

open SystemModel (Steered)

namespace VirtualRegister

variable {regs : List Nat} {v : VirtualRegister}

theorem updateRegister_steered {slice : RegisterSlice} (hslice : slice.reg ∈ regs)
    (valueRange : IndexedRange) (value : Bits) (s : SystemModel) :
    Keeps (Steered regs) s (updateRegister slice valueRange value s) := by
  refine Keeps.read fun slicedValue _ => Keeps.read fun regValue _ => Keeps.read fun reg hreg => ?_
  exact Keeps.ok (SystemModel.setRegister_steered hslice (Register.setToSut_steered hreg))

theorem updateSlices_steered (hregs : v.identifiers ⊆ regs) (value : Bits)
    (ordering : BitsOrdering) (index : Nat) (s : SystemModel) :
    Keeps (Steered regs) s (updateSlices value ordering v index s) := by
  induction v generalizing index s with
  | nil => exact Keeps.ok (.refl s)
  | cons slice rest ih =>
    have hslice : slice.reg ∈ regs := hregs List.mem_cons_self
    have hrest : identifiers rest ⊆ regs := fun id hid => hregs (List.mem_cons_of_mem _ hid)
    refine Keeps.read fun width _ => ?_
    exact Keeps.bind (updateRegister_steered hslice _ value s) fun s' _ => ih hrest _ s'

theorem setToSut_steered (hregs : v.identifiers ⊆ regs) (sequence : Bits) (s : SystemModel) :
    Keeps (Steered regs) s (v.setToSut sequence s) := by
  unfold setToSut
  refine Keeps.ite (fun _ => Keeps.error _) fun _ => Keeps.ite (fun _ => Keeps.error _) fun _ => ?_
  refine Keeps.ite (fun _ => ?_) fun _ => ?_
  · exact updateSlices_steered hregs _ _ _ s
  · exact Keeps.read fun count _ => updateSlices_steered hregs _ _ _ s

theorem setPending_steered (hregs : v.identifiers ⊆ regs) (s : SystemModel) :
    Steered regs s (v.setPending s) := by
  induction v generalizing s with
  | nil => exact .refl s
  | cons slice rest ih =>
    have hslice : slice.reg ∈ regs := hregs List.mem_cons_self
    have hrest : identifiers rest ⊆ regs := fun id hid => hregs (List.mem_cons_of_mem _ hid)
    exact IsTrans.trans _ _ _
      (SystemModel.setRegister_steered hslice (Register.setPending_steered _)) (ih hrest _)

end VirtualRegister

namespace PathSelector

variable {p : PathSelector} {regs : List Nat}

theorem steer_steered (hregs : p.muxRegisters.identifiers ⊆ regs) (toSut : Bits) (s : SystemModel) :
    Keeps (Steered regs) s (p.steer toSut s) := by
  refine Keeps.read fun _ _ => Keeps.ite (fun _ => ?_) fun _ => Keeps.ok (.refl s)
  exact Keeps.bind (VirtualRegister.setToSut_steered hregs toSut s) fun s' _ =>
    Keeps.ok (VirtualRegister.setPending_steered hregs s')

theorem select_steered (hregs : p.muxRegisters.identifiers ⊆ regs) (pathIdentifier : Nat)
    (s : SystemModel) : Keeps (Steered regs) s (p.select pathIdentifier s) := by
  unfold select
  cases p.kind with
  | tableBased => exact Keeps.read fun value _ => steer_steered hregs value s
  | oneHot => exact Keeps.read fun value _ => steer_steered hregs value s
  | nHot =>
    refine Keeps.read fun mask _ => Keeps.read fun toSut _ => Keeps.ite (fun _ => ?_) fun _ => ?_
    · exact steer_steered hregs mask s
    · exact Keeps.read fun value _ => steer_steered hregs value s

theorem deselect_steered (hregs : p.muxRegisters.identifiers ⊆ regs) (pathIdentifier : Nat)
    (s : SystemModel) : Keeps (Steered regs) s (p.deselect pathIdentifier s) := by
  unfold deselect
  refine Keeps.read fun value _ => ?_
  cases p.kind with
  | nHot =>
    refine Keeps.read fun toSut _ => Keeps.read fun kept _ => Keeps.read fun value _ => ?_
    exact Keeps.ite (fun _ => Keeps.error _) fun _ => steer_steered hregs value s
  | _ => exact Keeps.read fun value _ => steer_steered hregs value s

end PathSelector

end Mast
