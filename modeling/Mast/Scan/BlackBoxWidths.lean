import Mast.Lib.Runs
import Mast.Scan.BlackBox

/-!
# The width of a black box

The bypass sequence of a black box has the length of the vector that was passed to `iScan` last, by whichever thread. The vectors that a data cycle sends or compares were passed to `iScan` earlier, and another call may have come in between. What the calls and the data cycles have done so far tells whether the next data cycle finds one width.
-/

namespace Mast

open Outcome Runs

/-- What the visitor appends for the register has its number of bits, and without a new value a held one is sent again. -/
structure Register.OneWidth (r : Register) : Prop where
  sent : (r.sent false).length = r.bitsCount
  expected : r.expected.length = r.bitsCount
  careMask : r.careMask.length = r.bitsCount
  held : r.holdValue = true → r.nextToSut = r.lastToSut → r.sent false = r.lastToSut

/-- The data cycle under way has found one width, and an answer of as many bits as were sent updates the registers. -/
structure Manager.Consistent {Thread : Type} (box : Nat) (m : Manager Thread) : Prop where
  visited (cycle : Cycle) : m.cycle = some cycle → box ∈ cycle.visitor.activeRegisters →
    cycle.visited.OneWidth
  updates (cycle : Cycle) (fromSutVector : Bits) : m.cycle = some cycle →
    fromSutVector.length = cycle.visitor.toSutVector.length → fromSutVector.length < uint32Size →
      ∃ model, FromSutUpdater.updateRegisters cycle.visitor.activeRegisters fromSutVector
        m.model = .ok model

/-! ### What has been done so far -/

/-- The calls and the data cycles up to some step: the bits of the vector that was scanned last, or of a held value that was applied since; whether a call has changed them since a value was applied; the value that was applied last, and the one that the last data cycle has dealt with; the bits of the expected value that is to be compared; the requests that are queued; and whether the black box takes part in a data cycle under way. -/
structure CallHistory (Thread : Type) where
  width : Nat
  resized : Bool
  value : Bits
  served : Bits
  awaited : Option Nat
  queued : Thread → List (Bits × Option Bits)
  scanning : Option Bool

namespace CallHistory

/-- Before the first call; the bypass sequence is that of the constructor. -/
def start {Thread : Type} (bypassSequence : Bits) : CallHistory Thread where
  width := bypassSequence.length
  resized := false
  value := bypassSequence
  served := bypassSequence
  awaited := none
  queued _ := []
  scanning := none

variable {Thread : Type} (hold : Bool)

def written (h : CallHistory Thread) (value : Bits) : CallHistory Thread :=
  { h with width := if hold then value.length else h.width, resized := false, value }

/-- An expected value is applied. -/
def awaiting (h : CallHistory Thread) (expectedValue : Bits) : CallHistory Thread :=
  { h with awaited := some expectedValue.length }

theorem foldl_scanning {next : CallHistory Thread → Bits → CallHistory Thread}
    (hnext : ∀ h value, (next h value).scanning = h.scanning) (values : List Bits)
    (h : CallHistory Thread) : (values.foldl next h).scanning = h.scanning := by
  induction values generalizing h with
  | nil => rfl
  | cons value values ih => exact (ih _).trans (hnext h value)

variable [DecidableEq Thread]

def after (h : CallHistory Thread) : Manager.Event Thread → CallHistory Thread
  | .iScan thread value expectedValue =>
    { h with
      width := value.length
      resized := h.resized || decide (value.length ≠ h.width)
      queued := Function.update h.queued thread (h.queued thread ++ [(value, expectedValue)]) }
  | .iApply thread =>
    let requests := h.queued thread
    let applied := (requests.filterMap Prod.snd).foldl awaiting
      ((requests.map Prod.fst).foldl (written hold) h)
    { applied with queued := Function.update h.queued thread [] }
  | .elsewhere => h
  | .build isActive => { h with scanning := some isActive }
  | .update =>
    if h.scanning = some true then { h with served := h.value, awaited := none, scanning := none }
    else { h with scanning := none }

/-- The values that are to be sent and compared are as long as the vector that was scanned last, and a held value is in place. -/
structure OneWidth (h : CallHistory Thread) : Prop where
  value : h.value ≠ h.served → h.value.length = h.width
  awaited : ∀ bits ∈ h.awaited, bits = h.width
  held : hold = true → h.value = h.served → h.resized = true →
    h.value = List.replicate h.width false

/-- A data cycle of the black box has to find one width, which must not change until it has ended. -/
def Allows (h : CallHistory Thread) : Manager.Event Thread → Prop
  | .iScan _ value _ => h.scanning = some true → value.length = h.width
  | .build true => h.OneWidth hold
  | _ => True

end CallHistory

def Manager.AllowedStep {Thread : Type} [DecidableEq Thread] (box : Nat) (channel : Nodes)
    (hold : Bool) : Manager Thread × CallHistory Thread → Manager.Event Thread →
      Manager Thread × CallHistory Thread → Prop
  | (m, h), event, (m', h') =>
    Manager.Step box channel m event m' ∧ h.Allows hold event ∧ h' = h.after hold event

/-! ### The register follows the history -/

/-- What the history tells about the register. -/
structure Register.Follows {Thread : Type} (r : Register) (hold : Bool) (h : CallHistory Thread) :
    Prop where
  isBlackBox : r.isBlackBox = true
  holdValue : r.holdValue = hold
  width : r.bypass.length = h.width
  nextToSut : r.nextToSut = h.value
  lastToSut : r.lastToSut = h.served
  held : hold = true → r.bypass = if h.resized then List.replicate h.width false else h.value
  mustCheckExpected : r.mustCheckExpected = h.awaited.isSome
  expectedFromSut : ∀ bits ∈ h.awaited, r.expectedFromSut.length = bits
  dontCareMask : r.dontCareMask = []

section Register

variable {Thread : Type} {r r' : Register} {hold : Bool} {h : CallHistory Thread}

theorem Register.createBlackBox_follows (name : String) (bypassSequence : Bits)
    (bitsOrdering : BitsOrdering) :
    (createBlackBox name bypassSequence hold bitsOrdering).Follows hold
      (CallHistory.start bypassSequence : CallHistory Thread) where
  isBlackBox := rfl
  holdValue := rfl
  width := rfl
  nextToSut := rfl
  lastToSut := rfl
  held _ := rfl
  mustCheckExpected := rfl
  expectedFromSut bits hbits := by cases hbits
  dontCareMask := rfl

/-- The vectors of a black box take any length. -/
theorem Register.Follows.fits (hr : r.Follows hold h) (sequence : Bits) : r.Fits sequence :=
  .inl hr.isBlackBox

theorem Register.Follows.resetSize {newSize : Nat} (hr : r.Follows hold h)
    (hreset : r.resetSize newSize = .ok r') :
    r'.Follows hold { h with width := newSize, resized := true } := by
  unfold Register.resetSize setBypass at hreset
  rw [dif_pos (hr.fits _)] at hreset
  obtain rfl := Except.ok.inj hreset
  exact { hr with
    width := List.length_replicate
    held := fun _ => rfl }

theorem Register.Follows.setToSut {value : Bits} (hr : r.Follows hold h)
    (hset : r.setToSut value = .ok r') : r'.Follows hold (h.written hold value) := by
  unfold Register.setToSut at hset
  rw [dif_pos (hr.fits _)] at hset
  obtain rfl := Except.ok.inj hset
  refine { hr with
    width := ?_
    nextToSut := rfl
    held := fun hheld => ?_ }
  · change (if r.holdValue then value else r.bypass).length = if hold then value.length else h.width
    rw [hr.holdValue]
    split
    · rfl
    · exact hr.width
  · change (if r.holdValue then value else r.bypass) = value
    rw [hr.holdValue, if_pos hheld]

theorem Register.Follows.setExpected {value : Bits} (hr : r.Follows hold h)
    (hset : r.setExpected value = .ok r') : r'.Follows hold (h.awaiting value) := by
  obtain ⟨r₁, hfirst, hrest⟩ := bind_eq_ok.mp hset
  obtain rfl := Except.ok.inj hrest
  unfold Register.setExpectedFromSut at hfirst
  rw [if_neg (by simp), dif_pos (hr.fits _)] at hfirst
  obtain rfl := Except.ok.inj hfirst
  exact { hr with
    mustCheckExpected := rfl
    expectedFromSut := fun bits hbits => Option.some.inj hbits
    dontCareMask := rfl }

/-- One request after another. -/
theorem Register.Follows.foldlM {set : Register → Bits → Except Fault Register}
    {next : CallHistory Thread → Bits → CallHistory Thread}
    (hset : ∀ (r r' : Register) (h : CallHistory Thread) (value : Bits), r.Follows hold h →
      set r value = .ok r' → r'.Follows hold (next h value)) {values : List Bits}
    (hr : r.Follows hold h) (hrun : values.foldlM set r = .ok r') :
    r'.Follows hold (values.foldl next h) := by
  induction values generalizing r h with
  | nil =>
    obtain rfl := Except.ok.inj hrun
    exact hr
  | cons value values ih =>
    rw [List.foldlM_cons] at hrun
    obtain ⟨r₁, hfirst, hrest⟩ := bind_eq_ok.mp hrun
    exact ih (hset _ _ _ _ hr hfirst) hrest

theorem Register.Follows.configured (hr : r.Follows hold h) :
    (ConfigureVisitor.visitRegister r).Follows hold h := { hr with }

theorem Register.Follows.served {received : Bits} (hr : r.Follows hold h)
    (hserved : r.Served r' received) (hbox : r'.isBlackBox = r.isBlackBox)
    (hmask : r'.dontCareMask = r.dontCareMask) (scanning : Option Bool) :
    r'.Follows hold { h with served := h.value, awaited := none, scanning } where
  isBlackBox := hbox.trans hr.isBlackBox
  holdValue := hserved.holdValue.trans hr.holdValue
  width := (congrArg List.length hserved.bypass).trans hr.width
  nextToSut := hserved.nextToSut.trans hr.nextToSut
  lastToSut := hserved.lastToSut.trans hr.nextToSut
  held hheld := hserved.bypass.trans (hr.held hheld)
  mustCheckExpected := hserved.mustCheckExpected
  expectedFromSut bits hbits := by cases hbits
  dontCareMask := hmask.trans hr.dontCareMask

theorem Register.Follows.comparable (hr : r.Follows hold h)
    (hawaited : ∀ bits ∈ h.awaited, bits = h.width) : r.Comparable where
  expectedFromSut hcheck := by
    obtain ⟨bits, hbits⟩ := Option.isSome_iff_exists.mp (hr.mustCheckExpected.symm.trans hcheck)
    rw [hr.expectedFromSut bits hbits, hawaited bits hbits]
    exact hr.width.symm
  dontCareMask _ hmask := absurd hr.dontCareMask hmask

theorem Register.Comparable.expected_length (hr : r.Comparable) :
    r.expected.length = r.bitsCount := by
  unfold expected
  split
  · exact hr.expectedFromSut ‹_›
  · exact List.length_replicate

theorem Register.Comparable.careMask_length (hr : r.Comparable) :
    r.careMask.length = r.bitsCount := by
  unfold careMask
  split
  · split
    · exact hr.dontCareMask ‹_› ‹_›
    · exact List.length_replicate
  · exact List.length_replicate

theorem Register.Follows.oneWidth (hr : r.Follows hold h) (hwidth : h.OneWidth hold) :
    (ConfigureVisitor.visitRegister r).OneWidth := by
  have hcomparable := hr.configured.comparable hwidth.awaited
  have hsent : (ConfigureVisitor.visitRegister r).sent false =
      if h.value ≠ h.served then r.nextToSut else r.bypass := by
    rw [← hr.nextToSut, ← hr.lastToSut]
    by_cases hpending : r.nextToSut ≠ r.lastToSut
    · simp [Register.sent, Register.isPendingForWrite, ConfigureVisitor.visitRegister,
        Register.setPendingForWrite, hpending]
    · simp [Register.sent, Register.isPendingForWrite, ConfigureVisitor.visitRegister,
        Register.setPendingForWrite, hpending]
  refine ⟨?_, hcomparable.expected_length, hcomparable.careMask_length, fun hheld hsame => ?_⟩
  · rw [hsent]
    split
    · rw [hr.nextToSut, hwidth.value ‹_›]
      exact hr.width.symm
    · rfl
  · have hheld : hold = true := hr.holdValue.symm.trans hheld
    have hsame : h.value = h.served := hr.nextToSut.symm.trans (hsame.trans hr.lastToSut)
    change _ = r.lastToSut
    rw [hsent, if_neg (not_not.mpr hsame), hr.held hheld, hr.lastToSut, ← hsame]
    split
    · exact (hwidth.held hheld hsame ‹_›).symm
    · rfl

theorem Register.Uniform.sent_length (hr : r.Uniform) : (r.sent false).length = r.bitsCount := by
  unfold sent
  split
  · exact hr.nextToSut
  · rfl

theorem Register.Uniform.served {received : Bits} (hr : r.Uniform)
    (hserved : r.Served r' received) : r'.Uniform := by
  have hwidth : r'.bitsCount = r.bitsCount := congrArg List.length hserved.bypass
  have hchecked : ¬r'.mustCheckExpected = true := by simp [hserved.mustCheckExpected]
  exact ⟨by rw [hserved.nextToSut, hwidth, hr.nextToSut],
    ⟨fun hcheck => absurd hcheck hchecked, fun hcheck => absurd hcheck hchecked⟩⟩

end Register

/-! ### The update of a black box -/

namespace FromSutUpdater

theorem updateRegister_keeps {r r' : Register} {id offset : Nat} {fromSutVector : Bits}
    (hupdate : updateRegister r id offset fromSutVector = .ok r') :
    r'.isBlackBox = r.isBlackBox ∧ r'.dontCareMask = r.dontCareMask := by
  unfold updateRegister at hupdate
  split at hupdate
  · cases hupdate
  · obtain ⟨received, -, hrest⟩ := bind_eq_ok.mp hupdate
    obtain ⟨r₁, hset, hreturn⟩ := bind_eq_ok.mp hrest
    obtain rfl := Except.ok.inj hreturn
    unfold Register.setFromSut at hset
    simp only at hset
    split at hset
    · cases hset
    · split at hset
      · obtain rfl := Except.ok.inj hset
        exact ⟨rfl, rfl⟩
      · cases hset

theorem updateFrom_keeps {fromSutVector : Bits} {ids : List Nat} {offset : Nat}
    {s s' : SystemModel} (hupdate : updateFrom fromSutVector ids offset s = .ok s') :
    s'.identifierMapping = s.identifierMapping ∧ ∀ id,
      (s'.registers id).isBlackBox = (s.registers id).isBlackBox ∧
        (s'.registers id).dontCareMask = (s.registers id).dontCareMask := by
  induction ids generalizing offset s with
  | nil =>
    unfold updateFrom at hupdate
    split at hupdate
    · cases hupdate
    · obtain rfl := Except.ok.inj hupdate
      exact ⟨rfl, fun _ => ⟨rfl, rfl⟩⟩
  | cons first rest ih =>
    unfold updateFrom at hupdate
    obtain ⟨found, hfound, hrest⟩ := bind_eq_ok.mp hupdate
    cases found with
    | none => cases hrest
    | some reg =>
      obtain ⟨r', hregister, hrest⟩ := bind_eq_ok.mp hrest
      obtain ⟨hmapping, hkept⟩ := ih hrest
      refine ⟨hmapping, fun id => ?_⟩
      rw [(hkept id).1, (hkept id).2]
      by_cases hid : id = first
      · subst hid
        rw [SystemModel.setRegister_self, ← SystemModel.registerWithId_eq_some hfound]
        exact updateRegister_keeps hregister
      · rw [SystemModel.setRegister_other _ _ hid]
        exact ⟨rfl, rfl⟩

end FromSutUpdater

/-! ### The invariant -/

section Invariant

variable {Thread : Type} [DecidableEq Thread] {box : Nat} {channel : Nodes} {hold : Bool}

structure Cycle.Fits (box : Nat) (channel : Nodes) (s : SystemModel) (cycle : Cycle) : Prop where
  sublist : cycle.visitor.activeRegisters.Sublist channel.registerIds
  length : cycle.visitor.toSutVector.length =
    FromSutUpdater.width s cycle.visitor.activeRegisters
  comparable : box ∈ cycle.visitor.activeRegisters → (s.registers box).Comparable
  oneWidth : box ∈ cycle.visitor.activeRegisters → cycle.visited.OneWidth

theorem Cycle.Fits.congr {s s' : SystemModel} {cycle : Cycle} (hscanned : cycle.Fits box channel s)
    (hsame : ∀ id ∈ cycle.visitor.activeRegisters, s'.registers id = s.registers id) :
    cycle.Fits box channel s' where
  sublist := hscanned.sublist
  length := hscanned.length.trans (FromSutUpdater.width_congr hsame).symm
  comparable hactive := by
    rw [hsame box hactive]
    exact hscanned.comparable hactive
  oneWidth := hscanned.oneWidth

structure Manager.Invariant (box : Nat) (channel : Nodes) (hold : Bool) (m : Manager Thread)
    (h : CallHistory Thread) : Prop where
  follows : (m.model.registers box).Follows hold h
  requests (thread : Thread) : m.appData thread =
    ⟨(h.queued thread).map Prod.fst, (h.queued thread).filterMap Prod.snd⟩
  isRegister : ∀ id ∈ channel.registerIds, m.model.IsRegister id
  uniform : ∀ id ∈ channel.registerIds, id ≠ box → (m.model.registers id).Uniform
  scanning : h.scanning = m.cycle.map fun cycle => cycle.visitor.activeRegisters.contains box
  scanned (cycle : Cycle) : m.cycle = some cycle → cycle.Fits box channel m.model

variable {m m' : Manager Thread} {h : CallHistory Thread}

omit [DecidableEq Thread] in
/-- Nothing else is needed for the update of the registers. -/
theorem Manager.Invariant.updates (hinv : Manager.Invariant box channel hold m h)
    (hnodup : channel.registerIds.Nodup)
    {cycle : Cycle} {fromSutVector : Bits} (hcycle : m.cycle = some cycle)
    (hlength : fromSutVector.length = cycle.visitor.toSutVector.length)
    (hvector : fromSutVector.length < uint32Size) :
    ∃ s', FromSutUpdater.updateRegisters cycle.visitor.activeRegisters fromSutVector m.model =
        .ok s' ∧
      (∀ id ∈ cycle.visitor.activeRegisters, ∃ received,
        (m.model.registers id).Served (s'.registers id) received) ∧
      ∀ id, id ∉ cycle.visitor.activeRegisters → s'.registers id = m.model.registers id := by
  have hscanned := hinv.scanned cycle hcycle
  have hcomparable : ∀ id ∈ cycle.visitor.activeRegisters, (m.model.registers id).Comparable := by
    intro id hid
    by_cases hbox : id = box
    · subst hbox
      exact hscanned.comparable hid
    · exact (hinv.uniform id (hscanned.sublist.subset hid) hbox).comparable
  obtain ⟨s', hrun, hserved, hothers, -⟩ := FromSutUpdater.updateFrom_defined
    (hscanned.sublist.nodup hnodup)
    (fun id hid => hinv.isRegister id (hscanned.sublist.subset hid)) hcomparable hvector
    ((Nat.zero_add _).trans (hscanned.length.symm.trans hlength.symm))
  refine ⟨s', hrun, fun id hid => ?_, hothers⟩
  obtain ⟨front, rest, hsplit⟩ := List.append_of_mem hid
  exact ⟨_, hserved front id rest hsplit⟩

omit [DecidableEq Thread] in
/-- A change of the black box alone. -/
theorem Manager.Invariant.setRegister (hinv : Manager.Invariant box channel hold m h) {r : Register}
    {h' : CallHistory Thread} {appData : Thread → ApplicationData} (hr : r.Follows hold h')
    (hrequests : ∀ thread, appData thread =
      ⟨(h'.queued thread).map Prod.fst, (h'.queued thread).filterMap Prod.snd⟩)
    (hscanning : h'.scanning = h.scanning)
    (hkept : h.scanning = some true → r = m.model.registers box) :
    Manager.Invariant box channel hold
      { m with model := m.model.setRegister box r, appData } h' where
  follows := by
    rw [SystemModel.setRegister_self]
    exact hr
  requests := hrequests
  isRegister := hinv.isRegister
  uniform id hid hbox := by
    rw [SystemModel.setRegister_other _ _ hbox]
    exact hinv.uniform id hid hbox
  scanning := hscanning.trans hinv.scanning
  scanned cycle hcycle := by
    apply (hinv.scanned cycle hcycle).congr
    intro id hid
    by_cases hbox : id = box
    · subst hbox
      rw [SystemModel.setRegister_self]
      apply hkept
      rw [hinv.scanning, hcycle, Option.map_some, List.contains_iff_mem.mpr hid]
    · exact SystemModel.setRegister_other _ _ hbox

theorem requests_update {appData : Thread → ApplicationData}
    {queued : Thread → List (Bits × Option Bits)}
    (hrequests : ∀ thread, appData thread =
      ⟨(queued thread).map Prod.fst, (queued thread).filterMap Prod.snd⟩)
    (thread : Thread) (requests : List (Bits × Option Bits)) (other : Thread) :
    Function.update appData thread ⟨requests.map Prod.fst, requests.filterMap Prod.snd⟩ other =
      ⟨(Function.update queued thread requests other).map Prod.fst,
        (Function.update queued thread requests other).filterMap Prod.snd⟩ := by
  by_cases hother : other = thread
  · subst hother
    rw [Function.update_self, Function.update_self]
  · rw [Function.update_of_ne hother, Function.update_of_ne hother, hrequests]

theorem Manager.Invariant.iScan (hinv : Manager.Invariant box channel hold m h) {thread : Thread}
    {value : Bits} {expectedValue : Option Bits} (hscan : m.iScan box thread value expectedValue = .ok m')
    (hallowed : h.Allows hold (.iScan thread value expectedValue)) :
    Manager.Invariant box channel hold m' (h.after hold (.iScan thread value expectedValue)) := by
  have hbox : ¬(m.model.registers box).isBlackBox = false := by
    rw [hinv.follows.isBlackBox]
    exact Bool.noConfusion
  have hwidth : (m.model.registers box).bitsCount = h.width := hinv.follows.width
  unfold Manager.iScan at hscan
  simp only [if_neg hbox] at hscan
  obtain ⟨r, hsized, hrest⟩ := bind_eq_ok.mp hscan
  obtain rfl := Except.ok.inj hrest
  have hqueued : ({ queuedWrites := (m.appData thread).queuedWrites ++ [value]
                    queuedReads := (m.appData thread).queuedReads ++ expectedValue.toList } :
      ApplicationData) =
        ⟨(h.queued thread ++ [(value, expectedValue)]).map Prod.fst,
          (h.queued thread ++ [(value, expectedValue)]).filterMap Prod.snd⟩ := by
    rw [hinv.requests, List.map_append, List.filterMap_append]
    cases expectedValue <;> rfl
  have hrequests := requests_update hinv.requests thread
    (h.queued thread ++ [(value, expectedValue)])
  rw [← hqueued] at hrequests
  by_cases hsame : value.length = h.width
  · rw [Register.matchSize, hwidth, if_neg (not_not.mpr hsame)] at hsized
    obtain rfl := Except.ok.inj hsized
    refine hinv.setRegister ?_ hrequests rfl fun _ => rfl
    refine { hinv.follows with
      width := hinv.follows.width.trans hsame.symm
      held := fun hheld => ?_ }
    rw [hinv.follows.held hheld, CallHistory.after]
    simp only [hsame, ne_eq, not_true_eq_false, decide_false, Bool.or_false]
  · rw [Register.matchSize, hwidth, if_pos hsame] at hsized
    refine hinv.setRegister ?_ hrequests rfl fun hscanning => absurd (hallowed hscanning) hsame
    have hresized := hinv.follows.resetSize hsized
    refine { hresized with held := fun hheld => ?_ }
    rw [hresized.held hheld, CallHistory.after]
    simp only [hsame, ne_eq, not_false_eq_true, decide_true, Bool.or_true]

theorem Manager.Invariant.iApply (hinv : Manager.Invariant box channel hold m h) {thread : Thread}
    (hfree : m.cycle = none) (happly : m.processQueuedRequests box thread = .ok m') :
    Manager.Invariant box channel hold m' (h.after hold (.iApply thread)) := by
  unfold Manager.processQueuedRequests at happly
  obtain ⟨r₁, hwrites, hrest⟩ := bind_eq_ok.mp happly
  obtain ⟨r₂, hreads, hreturn⟩ := bind_eq_ok.mp hrest
  obtain rfl := Except.ok.inj hreturn
  rw [hinv.requests] at hwrites hreads
  have hwritten := @Register.Follows.foldlM Thread _ _ hold _ Register.setToSut
    (CallHistory.written hold) (fun _ _ _ _ hr hset => hr.setToSut hset) _ hinv.follows hwrites
  have hawaiting := @Register.Follows.foldlM Thread _ _ hold _ Register.setExpected
    CallHistory.awaiting (fun _ _ _ _ hr hset => hr.setExpected hset) _ hwritten hreads
  refine hinv.setRegister { hawaiting with } (requests_update hinv.requests thread []) ?_ ?_
  · exact (@CallHistory.foldl_scanning _ CallHistory.awaiting (fun _ _ => rfl) _ _).trans
      (@CallHistory.foldl_scanning _ (CallHistory.written hold) (fun _ _ => rfl) _ _)
  · intro hscanning
    rw [hinv.scanning, hfree] at hscanning
    cases hscanning

omit [DecidableEq Thread] in
theorem Manager.Invariant.elsewhere (hinv : Manager.Invariant box channel hold m h)
    {model : SystemModel} (hchange : Manager.Elsewhere box m.model model) :
    Manager.Invariant box channel hold { m with model } h where
  follows := by
    rw [hchange.registers]
    exact hinv.follows
  requests := hinv.requests
  isRegister id hid := by
    rw [SystemModel.IsRegister, hchange.identifierMapping]
    exact hinv.isRegister id hid
  uniform id hid hbox := hchange.uniform id hbox (hinv.uniform id hid hbox)
  scanning := hinv.scanning
  scanned cycle hcycle := by
    have hscanned := hinv.scanned cycle hcycle
    refine { hscanned with length := hscanned.length.trans ?_, comparable := ?_ }
    · unfold FromSutUpdater.width
      rw [List.map_congr_left fun id _ => hchange.bitsCount id]
    · rw [hchange.registers]
      exact hscanned.comparable

theorem Manager.Invariant.build (hinv : Manager.Invariant box channel hold m h)
    {visitor : ToSutVisitor}
    (hvisit : ToSutVisitor.visit (m.configured box) false none channel .start = .ok visitor)
    (hallowed : h.Allows hold (.build (visitor.activeRegisters.contains box))) :
    Manager.Invariant box channel hold
      { m with
        model := m.configured box
        cycle := some ⟨visitor, (m.configured box).registers box⟩ }
      (h.after hold (.build (visitor.activeRegisters.contains box))) := by
  have hself : (m.configured box).registers box =
      ConfigureVisitor.visitRegister (m.model.registers box) := SystemModel.setRegister_self _ _ _
  have hother (id : Nat) (hid : id ≠ box) :
      (m.configured box).registers id = m.model.registers id :=
    SystemModel.setRegister_other _ _ hid
  have hwidth (hactive : box ∈ visitor.activeRegisters) : h.OneWidth hold := by
    rwa [List.contains_iff_mem.mpr hactive] at hallowed
  obtain ⟨ids, hcollects, hsub, -⟩ := ToSutVisitor.visit_collects hvisit
  have hactive : visitor.activeRegisters = ids := hcollects.activeRegisters
  have hsent : visitor.toSutVector =
      ids.flatMap fun id => ((m.configured box).registers id).sent false := hcollects.toSutVector
  have hone (hin : box ∈ visitor.activeRegisters) :
      ((m.configured box).registers box).OneWidth := by
    rw [hself]
    exact hinv.follows.oneWidth (hwidth hin)
  have hlengths : ∀ id ∈ ids, (((m.configured box).registers id).sent false).length =
      ((m.configured box).registers id).bitsCount := by
    intro id hid
    by_cases hbox : id = box
    · subst hbox
      exact (hone (hactive ▸ hid)).sent
    · rw [hother id hbox]
      exact (hinv.uniform id (hsub.subset hid) hbox).sent_length
  refine ⟨?_, hinv.requests, hinv.isRegister, fun id hid hbox => ?_, rfl, ?_⟩
  · change ((m.configured box).registers box).Follows hold _
    rw [hself]
    exact { hinv.follows.configured with }
  · change ((m.configured box).registers id).Uniform
    rw [hother id hbox]
    exact hinv.uniform id hid hbox
  · intro cycle hcycle
    obtain rfl := Option.some.inj hcycle
    refine ⟨hactive ▸ hsub, ?_, fun hin => ?_, hone⟩
    · change visitor.toSutVector.length =
        FromSutUpdater.width (m.configured box) visitor.activeRegisters
      rw [hsent, hactive, flatMap_length hlengths]
    · change ((m.configured box).registers box).Comparable
      rw [hself]
      exact hinv.follows.configured.comparable (hwidth hin).awaited

theorem Manager.Invariant.update (hinv : Manager.Invariant box channel hold m h)
    (hnodup : channel.registerIds.Nodup) {cycle : Cycle} {fromSutVector : Bits}
    {model : SystemModel}
    (hcycle : m.cycle = some cycle)
    (hlength : fromSutVector.length = cycle.visitor.toSutVector.length)
    (hvector : fromSutVector.length < uint32Size)
    (hupdate : FromSutUpdater.updateRegisters cycle.visitor.activeRegisters fromSutVector m.model =
      .ok model) :
    Manager.Invariant box channel hold { m with model, cycle := none } (h.after hold .update) := by
  obtain ⟨s', hrun, hserved, hothers⟩ := hinv.updates hnodup hcycle hlength hvector
  obtain rfl := Except.ok.inj (hupdate.symm.trans hrun)
  obtain ⟨hmapping, hkept⟩ := FromSutUpdater.updateFrom_keeps hupdate
  have hscanning : h.scanning = some (cycle.visitor.activeRegisters.contains box) := by
    rw [hinv.scanning, hcycle, Option.map_some]
  have hfollows : (model.registers box).Follows hold (h.after hold .update) ∧
      (h.after hold .update).queued = h.queued ∧ (h.after hold .update).scanning = none := by
    by_cases hin : box ∈ cycle.visitor.activeRegisters
    · obtain ⟨received, hreceived⟩ := hserved box hin
      rw [CallHistory.after, if_pos (by rw [hscanning, List.contains_iff_mem.mpr hin])]
      exact ⟨hinv.follows.served hreceived (hkept box).1 (hkept box).2 none, rfl, rfl⟩
    · have hnot : cycle.visitor.activeRegisters.contains box = false := by simpa using hin
      have hpassive : ¬h.scanning = some true := by
        rw [hscanning, hnot]
        exact Bool.noConfusion ∘ Option.some.inj
      rw [CallHistory.after, if_neg hpassive, hothers box hin]
      exact ⟨{ hinv.follows with }, rfl, rfl⟩
  obtain ⟨hfollows, hqueued, hended⟩ := hfollows
  refine ⟨hfollows, fun thread => ?_, fun id hid => ?_, fun id hid hbox => ?_, hended,
    fun cycle hnone => by cases hnone⟩
  · rw [hqueued]
    exact hinv.requests thread
  · rw [SystemModel.IsRegister, hmapping]
    exact hinv.isRegister id hid
  · by_cases hin : id ∈ cycle.visitor.activeRegisters
    · obtain ⟨received, hreceived⟩ := hserved id hin
      exact (hinv.uniform id hid hbox).served hreceived
    · rw [hothers id hin]
      exact hinv.uniform id hid hbox

theorem Manager.Invariant.step (hinv : Manager.Invariant box channel hold m h)
    (hnodup : channel.registerIds.Nodup) {event : Manager.Event Thread}
    (hstep : Manager.Step box channel m event m') (hallowed : h.Allows hold event) :
    Manager.Invariant box channel hold m' (h.after hold event) := by
  cases hstep with
  | iScan _ _ hscan => exact hinv.iScan hscan hallowed
  | iApply hfree happly => exact hinv.iApply hfree happly
  | elsewhere hchange => exact hinv.elsewhere hchange
  | build hfree hvisit => exact hinv.build hvisit hallowed
  | update hcycle hlength hvector hupdate =>
    exact hinv.update hnodup hcycle hlength hvector hupdate

omit [DecidableEq Thread] in
theorem Manager.Invariant.consistent (hinv : Manager.Invariant box channel hold m h)
    (hnodup : channel.registerIds.Nodup) : m.Consistent box where
  visited cycle hcycle := (hinv.scanned cycle hcycle).oneWidth
  updates cycle fromSutVector hcycle hlength hvector := by
    obtain ⟨model, hrun, -⟩ := hinv.updates hnodup hcycle hlength hvector
    exact ⟨model, hrun⟩

end Invariant

/-! ### Runs -/

/-- A model with a black box and nothing queued; the vectors of the other registers have one length each. -/
structure Manager.Initial {Thread : Type} (box : Nat) (channel : Nodes) (hold : Bool)
    (bypassSequence : Bits) (m : Manager Thread) : Prop where
  nodup : channel.registerIds.Nodup
  isRegister : ∀ id ∈ channel.registerIds, m.model.IsRegister id
  uniform : ∀ id ∈ channel.registerIds, id ≠ box → (m.model.registers id).Uniform
  blackBox : ∃ name bitsOrdering, m.model.registers box =
    .createBlackBox name bypassSequence hold bitsOrdering
  appData : m.appData = fun _ => ⟨[], []⟩
  cycle : m.cycle = none

section Runs

variable {Thread : Type} [DecidableEq Thread] {box : Nat} {channel : Nodes} {hold : Bool}
  {bypassSequence : Bits} {m : Manager Thread}

omit [DecidableEq Thread] in
theorem Manager.Initial.invariant (hinitial : m.Initial box channel hold bypassSequence) :
    Manager.Invariant box channel hold m (.start bypassSequence) where
  follows := by
    obtain ⟨name, bitsOrdering, hbox⟩ := hinitial.blackBox
    rw [hbox]
    exact Register.createBlackBox_follows name bypassSequence bitsOrdering
  requests thread := by
    rw [hinitial.appData]
    rfl
  isRegister := hinitial.isRegister
  uniform := hinitial.uniform
  scanning := by
    rw [hinitial.cycle]
    rfl
  scanned cycle hcycle := by
    rw [hinitial.cycle] at hcycle
    cases hcycle

/-- In a run whose steps are all allowed, every data cycle finds one width. -/
theorem blackBox_oneWidth (hinitial : m.Initial box channel hold bypassSequence)
    {events : List (Manager.Event Thread)} {m' : Manager Thread} {h : CallHistory Thread}
    (hrun : Run (Manager.AllowedStep box channel hold) (m, .start bypassSequence) events (m', h)) :
    m'.Consistent box := by
  have hinv : Manager.Invariant box channel hold m' h := by
    refine Run.invariant (I := fun state => Manager.Invariant box channel hold state.1 state.2)
      (C := fun _ => True) ?_ hrun hinitial.invariant fun _ _ => trivial
    intro state event state' hbefore _ hstep
    obtain ⟨hstep, hallowed, hafter⟩ := hstep
    rw [hafter]
    exact hbefore.step hinitial.nodup hstep hallowed
  exact hinv.consistent hinitial.nodup

end Runs

theorem Manager.AllowedStep.cons {Thread : Type} [DecidableEq Thread] {box : Nat} {channel : Nodes}
    {hold : Bool} {m m' : Manager Thread} {h : CallHistory Thread} {event : Manager.Event Thread}
    {events : List (Manager.Event Thread)} {state : Manager Thread × CallHistory Thread}
    (hstep : Manager.Step box channel m event m') (hallowed : h.Allows hold event)
    (hrest : Run (Manager.AllowedStep box channel hold) (m', h.after hold event) events state) :
    Run (Manager.AllowedStep box channel hold) (m, h) (event :: events) state :=
  .cons ⟨hstep, hallowed, rfl⟩ hrest

def boxOfTwoBits : Manager Nat where
  model :=
    { identifierMapping := [.register]
      registers := fun _ => .createBlackBox "box" [false, false] false .downto
      pendingCounts := fun _ => 0
      iRunLoopCounts := fun _ => 0 }
  appData _ := ⟨[], []⟩
  cycle := none

theorem boxOfTwoBits_initial : boxOfTwoBits.Initial 0 (.register 0 .none) false [false, false] where
  nodup := by decide
  isRegister := by decide
  uniform id hid hbox := absurd (List.mem_singleton.mp hid) hbox
  blackBox := ⟨"box", .downto, rfl⟩
  appData := rfl
  cycle := rfl

theorem blackBox_oneWidth_threeBits :
    ∃ m h, Run (Manager.AllowedStep 0 (.register 0 .none) false)
      (boxOfTwoBits, .start [false, false]) [.iScan 0 [true, false, true] (some [true, true, true]),
        .iApply 0, .build true, .iScan 1 [false, false, false] none] (m, h) ∧ m.Consistent 0 := by
  have hbuild := fun m hfree hvisit => @Manager.Step.build Nat _ 0 (.register 0 .none) m
    ⟨[true, false, true], [0], [], true, [true, true, true], [true, true, true]⟩ hfree hvisit
  have hrun : ∃ m h, Run (Manager.AllowedStep 0 (.register 0 .none) false)
      (boxOfTwoBits, .start [false, false]) [.iScan 0 [true, false, true] (some [true, true, true]),
        .iApply 0, .build true, .iScan 1 [false, false, false] none] (m, h) :=
    ⟨_, _, Manager.AllowedStep.cons (.iScan (by decide) (by decide) rfl) (fun h => by cases h)
      (Manager.AllowedStep.cons (.iApply rfl rfl) trivial
        (Manager.AllowedStep.cons (hbuild _ rfl rfl) ⟨by decide, by decide, by decide⟩
          (Manager.AllowedStep.cons (.iScan (by decide) (by decide) rfl) (fun _ => rfl) (.nil _))))⟩
  obtain ⟨m, h, hrun⟩ := hrun
  exact ⟨m, h, hrun, blackBox_oneWidth boxOfTwoBits_initial hrun⟩

/-- A thread scans three bits before a data cycle has sent the two bits of another thread. -/
theorem blackBox_twoWidths : ∃ m, Run (Manager.Step 0 (.register 0 .none)) boxOfTwoBits
    [.iScan 0 [true, true] none, .iApply 0, .iScan 1 [true, false, true] none, .build true] m ∧
      ¬m.Consistent 0 := by
  have hbuild := fun m hfree hvisit => @Manager.Step.build Nat _ 0 (.register 0 .none) m
    ⟨[true, true], [0], [], false, [false, false, false], [false, false, false]⟩ hfree hvisit
  refine ⟨_, .cons (.iScan (by decide) (by decide) rfl) (.cons (.iApply rfl rfl)
    (.cons (.iScan (by decide) (by decide) rfl) (.cons (hbuild _ rfl rfl) (.nil _)))), ?_⟩
  intro hconsistent
  have hone := hconsistent.visited _ rfl (by decide)
  exact absurd hone.sent (by decide)

end Mast
