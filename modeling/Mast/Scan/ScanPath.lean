import Mast.Scan.PathSelector

/-!
# The active scan path

`ToSutVisitor` walks a channel and concatenates what its active registers send; `FromSutUpdater` walks the list of those registers and cuts what came back. The two walks agree: both are the same list of registers, each with its own bits.

Nodes are listed as in the source, by first child and next sibling.
-/

namespace Mast

open Outcome

inductive ParentKind
  | accessInterface
  | accessInterfaceTranslator
  | chain
  | streamer
  | linker (selector : PathSelector) (keepOpen : Bool)

/-- Whether `ToSutVisitor` goes on to the children of a parent node. -/
def ParentKind.passesOn : ParentKind → Bool
  | .accessInterface => false
  | _ => true

inductive Nodes
  | none
  | register (id : Nat) (nextSibling : Nodes)
  | parent (kind : ParentKind) (id : Nat) (firstChild nextSibling : Nodes)

namespace Nodes

def registerIds : Nodes → List Nat
  | none => []
  | register id nextSibling => id :: nextSibling.registerIds
  | parent _ _ firstChild nextSibling => firstChild.registerIds ++ nextSibling.registerIds

def parentIds : Nodes → List Nat
  | none => []
  | register _ nextSibling => nextSibling.parentIds
  | parent _ id firstChild nextSibling => id :: firstChild.parentIds ++ nextSibling.parentIds

end Nodes

/-! ### Linkers -/

/-- `Linker::CheckPathIdentifier`, before a question to the selector. -/
def Linker.checkPathIdentifier {α : Type} (p : PathSelector) (pathIdentifier : Nat)
    (question : Except Fault α) : Except Fault α :=
  if pathIdentifier > p.selectablePaths then .error (.outOfRange "pathIdentifier is too large")
  else question

def Linker.isActive (p : PathSelector) (s : SystemModel) (pathIdentifier : Nat) :
    Except Fault Bool :=
  checkPathIdentifier p pathIdentifier (p.isActive s pathIdentifier)

/-- Where a loop over children is: under a linker it counts the paths. -/
abbrev PathCounter := Option (PathSelector × Nat)

namespace PathCounter

def next : PathCounter → PathCounter
  | none => none
  | some (p, pathIdentifier) => some (p, pathIdentifier + 1)

def first : ParentKind → PathCounter
  | .linker p _ => some (p, 1)
  | _ => none

def isVisited (s : SystemModel) : PathCounter → Except Fault Bool
  | none => .ok true
  | some (p, pathIdentifier) => Linker.isActive p s pathIdentifier

end PathCounter

/-! ### To SUT -/

/-- An active streamer with the positions of its input and its output. -/
structure StreamerLevel where
  input : Nat
  output : Nat
  streamer : Nat
  deriving DecidableEq

structure ToSutVisitor where
  toSutVector : Bits
  activeRegisters : List Nat
  activeStreamers : List StreamerLevel
  checkExpected : Bool
  expectedFromSut : Bits
  dontCareMask : Bits
  deriving DecidableEq

def Register.sent (r : Register) (ignorePendingState : Bool) : Bits :=
  if ignorePendingState || r.isPendingForWrite then r.nextToSut else r.bypass

/-- What a register is expected to return; zeros when nothing is checked. -/
def Register.expected (r : Register) : Bits :=
  if r.mustCheckExpected then r.expectedFromSut else List.replicate r.bitsCount false

def Register.careMask (r : Register) : Bits :=
  if r.mustCheckExpected then
    if r.dontCareMask ≠ [] then r.dontCareMask else List.replicate r.bitsCount true
  else List.replicate r.bitsCount false

namespace ToSutVisitor

def start : ToSutVisitor := ⟨[], [], [], false, [], []⟩

def visitRegister (ignorePendingState : Bool) (id : Nat) (r : Register) (visitor : ToSutVisitor) :
    ToSutVisitor where
  toSutVector := visitor.toSutVector ++ r.sent ignorePendingState
  activeRegisters := visitor.activeRegisters ++ [id]
  activeStreamers := visitor.activeStreamers
  checkExpected := visitor.checkExpected || r.mustCheckExpected
  expectedFromSut := visitor.expectedFromSut ++ r.expected
  dontCareMask := visitor.dontCareMask ++ r.careMask

/-- What `VisitStreamer` notes once its children have been visited; `before` is the visitor it was given. -/
def leave (kind : ParentKind) (id : Nat) (before visitor : ToSutVisitor) : ToSutVisitor :=
  match kind with
  | .streamer =>
    { visitor with
      activeStreamers := visitor.activeStreamers ++
        [⟨before.toSutVector.length, visitor.toSutVector.length, id⟩] }
  | _ => visitor

/-- The visit of the current child, if the loop visits it, and of the siblings after it. An access interface does not pass the visitor on to its children. -/
def visit (s : SystemModel) (ignorePendingState : Bool) :
    PathCounter → Nodes → ToSutVisitor → Except Fault ToSutVisitor
  | _, .none, visitor => .ok visitor
  | counter, .register id nextSibling, visitor => do
    if ← counter.isVisited s then
      visit s ignorePendingState counter.next nextSibling
        (visitor.visitRegister ignorePendingState id (s.registers id))
    else visit s ignorePendingState counter.next nextSibling visitor
  | counter, .parent kind id firstChild nextSibling, visitor => do
    if (← counter.isVisited s) ∧ kind.passesOn then
      let inner ← visit s ignorePendingState (PathCounter.first kind) firstChild visitor
      visit s ignorePendingState counter.next nextSibling (leave kind id visitor inner)
    else visit s ignorePendingState counter.next nextSibling visitor

end ToSutVisitor

/-! ### From SUT -/

namespace FromSutUpdater

/-- The iteration of `UpdateRegisters` for one register: its slice of the vector at an offset. -/
def updateRegister (r : Register) (id offset : Nat) (fromSutVector : Bits) :
    Except Fault Register := do
  if (offset + r.bitsCount) % uint32Size > fromSutVector.length then
    .error (.logicError ("fromSutVector is too small ==> Cannot update Register \"" ++ r.name ++
      "\" (Id: " ++ toString id ++ ")"))
  else
    let slice ← fromSutVector.slice offset r.bitsCount
    let r ← r.setFromSut slice
    return (r.updateLastToSut.resetPending).setCheckExpected false

/-- The loop of `UpdateRegisters`. -/
def updateFrom (fromSutVector : Bits) :
    List Nat → Nat → SystemModel → Except Fault SystemModel
  | [], offset, s =>
    if offset ≠ fromSutVector.length then
      .error (.logicError ("fromSutVector has not been completly consumed (" ++
        toString ((fromSutVector.length + (uint32Size - offset)) % uint32Size) ++ " bits left)"))
    else .ok s
  | id :: rest, offset, s => do
    match ← s.registerWithId id with
    | none => .error (.runtimeError "Nodes identifiers must refer to valid Register nodes")
    | some reg =>
      let updated ← updateRegister reg id offset fromSutVector
      updateFrom fromSutVector rest ((offset + reg.bitsCount) % uint32Size)
        (s.setRegister id updated)

def updateRegisters (activeRegisters : List Nat) (fromSutVector : Bits) (s : SystemModel) :
    Except Fault SystemModel := updateFrom fromSutVector activeRegisters 0 s

end FromSutUpdater

/-! ### What the visitor collects -/

/-- The register is reached from the current child through active paths only. -/
inductive OnActivePath (s : SystemModel) : PathCounter → Nodes → Nat → Prop
  | register {counter : PathCounter} {id : Nat} {nextSibling : Nodes}
      (hvisited : counter.isVisited s = .ok true) :
      OnActivePath s counter (.register id nextSibling) id
  | child {counter : PathCounter} {kind : ParentKind} {parent id : Nat}
      {firstChild nextSibling : Nodes} (hvisited : counter.isVisited s = .ok true)
      (hkind : kind.passesOn)
      (h : OnActivePath s (PathCounter.first kind) firstChild id) :
      OnActivePath s counter (.parent kind parent firstChild nextSibling) id
  | afterRegister {counter : PathCounter} {other id : Nat} {nextSibling : Nodes}
      (h : OnActivePath s counter.next nextSibling id) :
      OnActivePath s counter (.register other nextSibling) id
  | afterParent {counter : PathCounter} {kind : ParentKind} {parent id : Nat}
      {firstChild nextSibling : Nodes} (h : OnActivePath s counter.next nextSibling id) :
      OnActivePath s counter (.parent kind parent firstChild nextSibling) id

namespace ToSutVisitor

variable {s : SystemModel} {ignorePendingState : Bool}

/-- One visitor is another one that has then visited the given registers. -/
structure Collects (s : SystemModel) (ignorePendingState : Bool) (visitor visitor' : ToSutVisitor)
    (ids : List Nat) : Prop where
  activeRegisters : visitor'.activeRegisters = visitor.activeRegisters ++ ids
  toSutVector : visitor'.toSutVector =
    visitor.toSutVector ++ ids.flatMap fun id => (s.registers id).sent ignorePendingState
  expectedFromSut : visitor'.expectedFromSut =
    visitor.expectedFromSut ++ ids.flatMap fun id => (s.registers id).expected
  dontCareMask : visitor'.dontCareMask =
    visitor.dontCareMask ++ ids.flatMap fun id => (s.registers id).careMask

theorem Collects.refl (visitor : ToSutVisitor) :
    Collects s ignorePendingState visitor visitor [] := by
  constructor <;> simp

theorem Collects.trans {first second third : ToSutVisitor} {ids ids' : List Nat}
    (h : Collects s ignorePendingState first second ids)
    (h' : Collects s ignorePendingState second third ids') :
    Collects s ignorePendingState first third (ids ++ ids') where
  activeRegisters := by rw [h'.activeRegisters, h.activeRegisters, List.append_assoc]
  toSutVector := by
    rw [h'.toSutVector, h.toSutVector, List.flatMap_append, List.append_assoc]
  expectedFromSut := by
    rw [h'.expectedFromSut, h.expectedFromSut, List.flatMap_append, List.append_assoc]
  dontCareMask := by
    rw [h'.dontCareMask, h.dontCareMask, List.flatMap_append, List.append_assoc]

theorem visitRegister_collects (id : Nat) (visitor : ToSutVisitor) :
    Collects s ignorePendingState visitor
      (visitor.visitRegister ignorePendingState id (s.registers id)) [id] := by
  constructor <;> simp [visitRegister]

theorem leave_collects {kind : ParentKind} {id : Nat} {before visitor visitor' : ToSutVisitor}
    {ids : List Nat} (h : Collects s ignorePendingState visitor visitor' ids) :
    Collects s ignorePendingState visitor (leave kind id before visitor') ids := by
  cases kind <;> exact ⟨h.1, h.2, h.3, h.4⟩

/-- A visit collects the registers on the active paths, in the order of the tree. -/
theorem visit_collects {counter : PathCounter} {nodes : Nodes} {visitor visitor' : ToSutVisitor}
    (hvisit : visit s ignorePendingState counter nodes visitor = .ok visitor') :
    ∃ ids, Collects s ignorePendingState visitor visitor' ids ∧
      ids.Sublist nodes.registerIds ∧ ∀ id, id ∈ ids ↔ OnActivePath s counter nodes id := by
  induction nodes generalizing counter visitor visitor' with
  | none =>
    obtain rfl := Except.ok.inj hvisit
    refine ⟨[], .refl _, List.Sublist.refl _, fun id => ⟨fun h => ?_, fun h => ?_⟩⟩
    · cases h
    · cases h
  | register id nextSibling ih =>
    obtain ⟨visited, hvisited, hrest⟩ := bind_eq_ok.mp hvisit
    cases visited with
    | true =>
      obtain ⟨ids, hcollects, hsub, hmem⟩ := ih hrest
      refine ⟨[id] ++ ids, (visitRegister_collects id visitor).trans hcollects,
        hsub.cons_cons id, fun other => ?_⟩
      rw [List.singleton_append, List.mem_cons, hmem]
      constructor
      · rintro (rfl | h)
        · exact .register hvisited
        · exact .afterRegister h
      · rintro (_ | _ | h)
        · exact .inl rfl
        · exact .inr h
    | false =>
      obtain ⟨ids, hcollects, hsub, hmem⟩ := ih hrest
      refine ⟨ids, hcollects, hsub.cons id, fun other => (hmem other).trans ⟨.afterRegister, ?_⟩⟩
      rintro (htrue | _ | h)
      · rw [hvisited] at htrue
        cases htrue
      · exact h
  | parent kind id firstChild nextSibling ihChild ihNext =>
    obtain ⟨visited, hvisited, hrest⟩ := bind_eq_ok.mp hvisit
    by_cases henter : visited = true ∧ kind.passesOn = true
    · obtain ⟨rfl, hkind⟩ := henter
      rw [if_pos ⟨rfl, hkind⟩] at hrest
      obtain ⟨inner, hinner, hnext⟩ := bind_eq_ok.mp hrest
      obtain ⟨ids, hcollects, hsub, hmem⟩ := ihChild hinner
      obtain ⟨ids', hcollects', hsub', hmem'⟩ := ihNext hnext
      refine ⟨ids ++ ids', (leave_collects hcollects).trans hcollects', hsub.append hsub',
        fun other => ?_⟩
      rw [List.mem_append, hmem, hmem']
      constructor
      · rintro (h | h)
        · exact .child hvisited hkind h
        · exact .afterParent h
      · rintro (_ | ⟨_, _, h⟩ | _ | h)
        · exact .inl h
        · exact .inr h
    · rw [if_neg henter] at hrest
      obtain ⟨ids, hcollects, hsub, hmem⟩ := ihNext hrest
      refine ⟨ids, hcollects, hsub.trans (List.sublist_append_right _ _),
        fun other => (hmem other).trans ⟨.afterParent, ?_⟩⟩
      rintro (_ | ⟨htrue, hkind, _⟩ | _ | h)
      · rw [hvisited] at htrue
        exact absurd ⟨Except.ok.inj htrue, hkind⟩ henter
      · exact h

end ToSutVisitor

/-! ### What the updater does -/

/-- The vectors of the register that are scanned or compared have its number of bits. -/
structure Register.FullWidth (r : Register) : Prop where
  nextToSut : r.nextToSut.length = r.bitsCount
  expectedFromSut : r.expectedFromSut.length = r.bitsCount
  dontCareMask : r.dontCareMask ≠ [] → r.dontCareMask.length = r.bitsCount

namespace Register.FullWidth

variable {r : Register} (hr : r.FullWidth)

include hr

theorem sent_length (ignorePendingState : Bool) :
    (r.sent ignorePendingState).length = r.bitsCount := by
  unfold sent
  split
  · exact hr.nextToSut
  · rfl

theorem expected_length : r.expected.length = r.bitsCount := by
  unfold expected
  split
  · exact hr.expectedFromSut
  · exact List.length_replicate

theorem careMask_length : r.careMask.length = r.bitsCount := by
  unfold careMask
  split
  · split
    · exact hr.dontCareMask ‹_›
    · exact List.length_replicate
  · exact List.length_replicate

omit hr in
theorem fits {sequence : Bits} (hlength : sequence.length = r.bitsCount) : r.Fits sequence := by
  cases hbox : r.isBlackBox with
  | true => exact .inl hbox
  | false => exact .inr (hlength.trans (r.bypass_length hbox))

end Register.FullWidth

/-- What the bits that come back are compared with has their number. -/
structure Register.Comparable (r : Register) : Prop where
  expectedFromSut : r.mustCheckExpected = true → r.expectedFromSut.length = r.bitsCount
  dontCareMask : r.mustCheckExpected = true → r.dontCareMask ≠ [] →
    r.dontCareMask.length = r.bitsCount

theorem Register.FullWidth.comparable {r : Register} (hr : r.FullWidth) : r.Comparable :=
  ⟨fun _ => hr.expectedFromSut, fun _ => hr.dontCareMask⟩

/-- A register once a data cycle has updated it with the bits it received. -/
structure Register.Served (r r' : Register) (received : Bits) : Prop where
  lastFromSut : r'.lastFromSut = received
  lastToSut : r'.lastToSut = r.nextToSut
  nextToSut : r'.nextToSut = r.nextToSut
  bypass : r'.bypass = r.bypass
  holdValue : r'.holdValue = r.holdValue
  pendingRead : r'.pendingRead = false
  pendingCount : r'.pendingCount = 0
  mustCheckExpected : r'.mustCheckExpected = false

namespace FromSutUpdater

theorem compareEqualTo_defined {sequence : Bits} {r : Register} (hr : r.Comparable)
    (hcheck : r.mustCheckExpected = true) (hlength : sequence.length = r.bitsCount) :
    ∃ equal, sequence.compareEqualTo r.expectedFromSut r.dontCareMask = .ok equal := by
  unfold Bits.compareEqualTo
  by_cases hmask : r.dontCareMask = []
  · exact ⟨_, if_pos hmask⟩
  · have hexpected : ¬sequence.length ≠ r.expectedFromSut.length := by
      rw [hlength, hr.expectedFromSut hcheck]
      exact not_not.mpr rfl
    have hcare : ¬r.dontCareMask.length ≠ sequence.length := by
      rw [hlength, hr.dontCareMask hcheck hmask]
      exact not_not.mpr rfl
    rw [if_neg hmask, if_neg hexpected, if_neg hcare]
    split
    · exact ⟨_, rfl⟩
    · exact ⟨_, rfl⟩

theorem setFromSut_defined {sequence : Bits} {r : Register} (hr : r.Comparable)
    (hlength : sequence.length = r.bitsCount) : ∃ r', r.setFromSut sequence = .ok r' := by
  unfold Register.setFromSut
  cases hcheck : r.mustCheckExpected with
  | true =>
    obtain ⟨equal, hequal⟩ := compareEqualTo_defined hr hcheck hlength
    exact ⟨_, by
      simp only [if_true, hequal, Except.map, dif_pos (Register.FullWidth.fits hlength)]
      rfl⟩
  | false =>
    exact ⟨_, by
      simp only [Bool.false_eq_true, if_false, dif_pos (Register.FullWidth.fits hlength)]
      rfl⟩

theorem setFromSut_served {sequence : Bits} {r r' : Register} (hset : r.setFromSut sequence = .ok r') :
    r.Served ((r'.updateLastToSut.resetPending).setCheckExpected false) sequence := by
  unfold Register.setFromSut at hset
  simp only at hset
  split at hset
  · cases hset
  · split at hset
    · obtain rfl := Except.ok.inj hset
      exact ⟨rfl, rfl, rfl, rfl, rfl, rfl, rfl, rfl⟩
    · cases hset

/-- An iteration that returns has served its register with the slice at its offset. -/
theorem updateRegister_served {r r' : Register} {id offset : Nat} {fromSutVector : Bits}
    (hupdate : updateRegister r id offset fromSutVector = .ok r') :
    ∃ received, fromSutVector.slice offset r.bitsCount = .ok received ∧ r.Served r' received := by
  unfold updateRegister at hupdate
  split at hupdate
  · cases hupdate
  · obtain ⟨received, hslice, hrest⟩ := bind_eq_ok.mp hupdate
    obtain ⟨r₁, hset, hreturn⟩ := bind_eq_ok.mp hrest
    obtain rfl := Except.ok.inj hreturn
    exact ⟨received, hslice, setFromSut_served hset⟩

theorem updateRegister_defined {r : Register} (hr : r.Comparable) (id : Nat) {offset : Nat}
    {fromSutVector : Bits} (hvector : fromSutVector.length < uint32Size)
    (hrange : offset + r.bitsCount ≤ fromSutVector.length) :
    ∃ r', updateRegister r id offset fromSutVector = .ok r' ∧
      r.Served r' ((fromSutVector.drop offset).take r.bitsCount) := by
  have hslice := Bits.slice_eq hvector hrange
  have hlength : ((fromSutVector.drop offset).take r.bitsCount).length = r.bitsCount := by
    rw [List.length_take, List.length_drop]
    omega
  obtain ⟨r₁, hset⟩ := setFromSut_defined hr hlength
  have hfits : ¬(offset + r.bitsCount) % uint32Size > fromSutVector.length := by
    rw [Nat.mod_eq_of_lt (by omega)]
    omega
  refine ⟨_, ?_, setFromSut_served hset⟩
  rw [updateRegister, if_neg hfits, hslice]
  exact bind_eq_ok.mpr ⟨_, rfl, bind_eq_ok.mpr ⟨r₁, hset, rfl⟩⟩

/-- The sum of the widths of registers, which is the offset after them. -/
def width (s : SystemModel) (ids : List Nat) : Nat := (ids.map fun id => (s.registers id).bitsCount).sum

theorem width_append (s : SystemModel) (ids ids' : List Nat) :
    width s (ids ++ ids') = width s ids + width s ids' := by
  rw [width, List.map_append, List.sum_append]
  rfl

theorem width_cons (s : SystemModel) (id : Nat) (ids : List Nat) :
    width s (id :: ids) = (s.registers id).bitsCount + width s ids := rfl

theorem width_congr {s s' : SystemModel} {ids : List Nat}
    (hsame : ∀ id ∈ ids, s'.registers id = s.registers id) : width s' ids = width s ids := by
  unfold width
  rw [List.map_congr_left fun id hid => by rw [hsame id hid]]

/-- Each register of the list is served with its own slice of the vector, and the others are left alone. -/
theorem updateFrom_defined {ids : List Nat} {offset : Nat} {fromSutVector : Bits} {s : SystemModel}
    (hnodup : ids.Nodup) (hregister : ∀ id ∈ ids, s.IsRegister id)
    (hwidth : ∀ id ∈ ids, (s.registers id).Comparable)
    (hvector : fromSutVector.length < uint32Size)
    (hlength : offset + width s ids = fromSutVector.length) :
    ∃ s', updateFrom fromSutVector ids offset s = .ok s' ∧
      (∀ front id rest, ids = front ++ id :: rest →
        (s.registers id).Served (s'.registers id)
          ((fromSutVector.drop (offset + width s front)).take (s.registers id).bitsCount)) ∧
      (∀ id, id ∉ ids → s'.registers id = s.registers id) ∧
      s'.pendingCounts = s.pendingCounts ∧ s'.iRunLoopCounts = s.iRunLoopCounts := by
  induction ids generalizing offset s with
  | nil =>
    have hconsumed : ¬offset ≠ fromSutVector.length := not_not.mpr hlength
    refine ⟨s, if_neg hconsumed, ?_, fun _ _ => rfl, rfl, rfl⟩
    intro front id rest hnil
    cases front <;> cases hnil
  | cons id rest ih =>
    rw [width_cons] at hlength
    obtain ⟨hfresh, hnodupRest⟩ := List.nodup_cons.mp hnodup
    have hid : id ∈ id :: rest := List.mem_cons_self
    obtain ⟨r', hupdate, hserved⟩ := updateRegister_defined (hwidth id hid) id hvector
      (show offset + (s.registers id).bitsCount ≤ fromSutVector.length by omega)
    have hsame : ∀ other ∈ rest, (s.setRegister id r').registers other = s.registers other := by
      intro other hother
      apply SystemModel.setRegister_other
      rintro rfl
      exact hfresh hother
    have hregisterRest : ∀ other ∈ rest, (s.setRegister id r').IsRegister other :=
      fun other hother => hregister other (List.mem_cons_of_mem _ hother)
    have hwidthRest : ∀ other ∈ rest, ((s.setRegister id r').registers other).Comparable := by
      intro other hother
      rw [hsame other hother]
      exact hwidth other (List.mem_cons_of_mem _ hother)
    have hlengthRest : (offset + (s.registers id).bitsCount) % uint32Size +
        width (s.setRegister id r') rest = fromSutVector.length := by
      rw [Nat.mod_eq_of_lt (by omega), width_congr hsame]
      omega
    obtain ⟨s', hrun, hslices, hothers, hcounts, hloops⟩ :=
      ih hnodupRest hregisterRest hwidthRest hlengthRest
    refine ⟨s', ?_, ?_, ?_, hcounts, hloops⟩
    · have hwithId : s.registerWithId id = .ok (some (s.registers id)) := by
        rw [SystemModel.registerWithId, hregister id hid]
      rw [updateFrom, hwithId]
      exact bind_eq_ok.mpr ⟨_, rfl, bind_eq_ok.mpr ⟨r', hupdate, hrun⟩⟩
    · rintro (_ | ⟨first, front⟩) other tail heq
      · obtain ⟨rfl, rfl⟩ := List.cons.inj heq
        rw [hothers id hfresh, SystemModel.setRegister_self]
        exact hserved
      · obtain ⟨rfl, hrest⟩ := List.cons.inj heq
        have hother : other ∈ rest := by
          rw [hrest]
          exact List.mem_append_right _ List.mem_cons_self
        have hfront : ∀ member ∈ front,
            (s.setRegister id r').registers member = s.registers member := by
          intro member hmem
          apply hsame
          rw [hrest]
          exact List.mem_append_left _ hmem
        have hslice := hslices front other tail hrest
        rw [hsame other hother, width_congr hfront, Nat.mod_eq_of_lt (by omega)] at hslice
        rwa [width_cons, ← Nat.add_assoc]
    · intro other hother
      rw [hothers other fun hmem => hother (List.mem_cons_of_mem _ hmem)]
      apply SystemModel.setRegister_other
      rintro rfl
      exact hother hid

end FromSutUpdater

/-! ### Both directions agree -/

open FromSutUpdater (width updateRegisters)

theorem flatMap_length {ids : List Nat} {s : SystemModel} {bits : Nat → Bits}
    (hbits : ∀ id ∈ ids, (bits id).length = (s.registers id).bitsCount) :
    (ids.flatMap bits).length = width s ids := by
  rw [List.length_flatMap, width, List.map_congr_left hbits]

theorem flatMap_slice {s : SystemModel} {bits : Nat → Bits} {front rest : List Nat} {id : Nat}
    (hbits : ∀ other ∈ front ++ id :: rest, (bits other).length = (s.registers other).bitsCount) :
    (((front ++ id :: rest).flatMap bits).drop (width s front)).take (s.registers id).bitsCount =
      bits id := by
  have hfront := flatMap_length fun other hother => hbits other (List.mem_append_left _ hother)
  have hid := hbits id (List.mem_append_right _ List.mem_cons_self)
  rw [List.flatMap_append, List.flatMap_cons, ← hfront, List.drop_left, ← hid, List.take_left]

/-- What `UpdateRegisters` makes of the vector that comes back from a scan. -/
structure ScansBack (visitor : ToSutVisitor) (s s' : SystemModel) (fromSutVector : Bits) : Prop where
  active (front : List Nat) (id : Nat) (rest : List Nat) :
    visitor.activeRegisters = front ++ id :: rest →
      (visitor.toSutVector.drop (width s front)).take (s.registers id).bitsCount =
        (s.registers id).sent false ∧
      (s.registers id).Served (s'.registers id)
        ((fromSutVector.drop (width s front)).take (s.registers id).bitsCount)
  inactive (id : Nat) : id ∉ visitor.activeRegisters → s'.registers id = s.registers id

/-- The two directions agree on a channel: on its registers, their order and their widths. -/
structure Agrees (s : SystemModel) (channel : Nodes) (visitor : ToSutVisitor) : Prop where
  expectedFromSut_length : visitor.expectedFromSut.length = visitor.toSutVector.length
  dontCareMask_length : visitor.dontCareMask.length = visitor.toSutVector.length
  toSutVector_length : visitor.toSutVector.length =
    (visitor.activeRegisters.map fun id => (s.registers id).bitsCount).sum
  active_iff (id : Nat) : id ∈ visitor.activeRegisters ↔ OnActivePath s none channel id
  scansBack (fromSutVector : Bits) : fromSutVector.length = visitor.toSutVector.length →
    fromSutVector.length < uint32Size →
    ∃ s', updateRegisters visitor.activeRegisters fromSutVector s = .ok s' ∧
      ScansBack visitor s s' fromSutVector

theorem scanPath_agrees {s : SystemModel} {channel : Nodes} {visitor : ToSutVisitor}
    (hnodup : channel.registerIds.Nodup) (hregister : ∀ id ∈ channel.registerIds, s.IsRegister id)
    (hwidth : ∀ id ∈ channel.registerIds, (s.registers id).FullWidth)
    (hvisit : ToSutVisitor.visit s false none channel .start = .ok visitor) :
    Agrees s channel visitor := by
  obtain ⟨ids, hcollects, hsub, hmem⟩ := ToSutVisitor.visit_collects hvisit
  have hactive : visitor.activeRegisters = ids := hcollects.activeRegisters
  have htoSut : visitor.toSutVector = ids.flatMap fun id => (s.registers id).sent false :=
    hcollects.toSutVector
  have hexpected : visitor.expectedFromSut = ids.flatMap fun id => (s.registers id).expected :=
    hcollects.expectedFromSut
  have hmask : visitor.dontCareMask = ids.flatMap fun id => (s.registers id).careMask :=
    hcollects.dontCareMask
  have hfull : ∀ id ∈ ids, (s.registers id).FullWidth := fun id hid => hwidth id (hsub.subset hid)
  have hsent := fun id hid => (hfull id hid).sent_length false
  have hlength : visitor.toSutVector.length = width s ids := by
    rw [htoSut, flatMap_length hsent]
  constructor
  · rw [hlength, hexpected, flatMap_length fun id hid => (hfull id hid).expected_length]
  · rw [hlength, hmask, flatMap_length fun id hid => (hfull id hid).careMask_length]
  · rw [hlength, hactive]
    rfl
  · intro id
    rw [hactive]
    exact hmem id
  · intro fromSutVector hsame hvector
    obtain ⟨s', hrun, hslices, hothers, -⟩ := FromSutUpdater.updateFrom_defined
      (hsub.nodup hnodup) (fun id hid => hregister id (hsub.subset hid))
      (fun id hid => (hfull id hid).comparable) hvector
      (show 0 + width s ids = fromSutVector.length by omega)
    rw [hactive]
    refine ⟨s', hrun, ⟨fun front id rest heq => ⟨?_, ?_⟩, fun id hid => ?_⟩⟩
    · rw [hactive] at heq
      rw [htoSut, heq]
      exact flatMap_slice fun other hother => hsent other (heq ▸ hother)
    · have hslice := hslices front id rest (hactive ▸ heq)
      rwa [Nat.zero_add] at hslice
    · exact hothers id (hactive ▸ hid)

/-! ### A segment behind a one-bit register

Register 0 opens the path to register 1. -/

def segmentSelector : PathSelector where
  kind := .oneHot
  canSelectNone := true
  invertedBits := false
  pathsCount := 1
  selectTable := [[false], [true]]
  deselectTable := [[false], [false]]
  muxRegisters := .ofRegister 0 1

def segmentChannel : Nodes :=
  .parent .chain 0
    (.register 0 (.parent (.linker segmentSelector false) 1 (.register 1 .none) .none)) .none

/-- The segment once its selector register has been constructed with the given bit. -/
def segmentModel (opened : Bool) : SystemModel where
  identifierMapping := [.register, .register]
  registers id :=
    if id = 0 then .create "SIB" [opened] false .downto else .create "reg" [true, false, true] false .downto
  pendingCounts _ := 0
  iRunLoopCounts _ := 0

theorem segmentModel_fullWidth (opened : Bool) (id : Nat) :
    ((segmentModel opened).registers id).FullWidth := by
  unfold segmentModel
  simp only
  split <;> exact ⟨rfl, rfl, fun h => absurd rfl h⟩

theorem scanPath_agrees_opened :
    Agrees (segmentModel true) segmentChannel
      ⟨[true, true, false, true], [0, 1], [], false, [false, false, false, false],
        [false, false, false, false]⟩ :=
  scanPath_agrees (by decide) (by decide) (fun id _ => segmentModel_fullWidth true id) (by rfl)

end Mast
