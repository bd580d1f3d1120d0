import Mathlib.Algebra.BigOperators.Group.List.Basic
import Mathlib.Algebra.GroupWithZero.Nat

/-!
# Service behind multiplexers

A multiplexer lets some of its numbered paths through, depending on the value of a lever. A controller visits the paths in turn and moves the lever for each: towards a path with work, and away from an open path without. Whatever it does with an open path that has work, one of two things is reached. When nothing has work the lever comes to rest at its closed value, and when no open path has work the lever opens one that has.

A path makes progress when it is open, and moving the lever takes a turn of its own. `weight` measures what is left to do behind a multiplexer: it falls with each turn.
-/

namespace Multiplexers

variable {V : Type*} {paths : Nat}

/-- The lever of a multiplexer. A value is proper if the controller can have left the lever there. -/
structure Multiplexer (V : Type*) (paths : Nat) where
  opens : V → Nat → Bool
  choose : V → Nat → V
  drop : V → Nat → V
  closed : V
  Proper : V → Prop
  proper_closed : Proper closed
  proper_choose {v : V} {i : Nat} : Proper v → 0 < i → i ≤ paths → Proper (choose v i)
  proper_drop {v : V} {i : Nat} : Proper v → 0 < i → i ≤ paths → Proper (drop v i)
  opens_choose {v : V} {i : Nat} : Proper v → 0 < i → i ≤ paths → opens (choose v i) i = true
  /-- Choosing opens no other path, and at the closed value it keeps none open. -/
  opens_of_choose {v : V} {i j : Nat} : Proper v → 0 < i → i ≤ paths → 0 < j → j ≤ paths →
    opens (choose v i) j = true → j ≠ i → opens v j = true ∧ v ≠ closed
  opens_drop {v : V} {i j : Nat} : Proper v → 0 < i → i ≤ paths → 0 < j → j ≤ paths →
    opens v i = true → opens v j = true → j ≠ i → opens (drop v i) j = true
  /-- Dropping a path closes it and opens no other one, unless the closed value has an open path. -/
  opens_of_drop {v : V} {i j : Nat} : Proper v → 0 < i → i ≤ paths → 0 < j → j ≤ paths →
    opens v i = true → opens (drop v i) j = true → drop v i = closed ∨ j ≠ i ∧ opens v j = true
  drop_closed {i : Nat} : 0 < i → i ≤ paths → opens closed i = true → drop closed i = closed
  eq_closed {v : V} : Proper v → (∀ i, 0 < i → i ≤ paths → opens v i = false) → v = closed
  closed_unique {i j : Nat} : 0 < i → i ≤ paths → 0 < j → j ≤ paths →
    opens closed i = true → opens closed j = true → i = j

/-- What a controller does with a path that has work and is open already. -/
inductive Response
  | keep
  | choose
  | drop

namespace Multiplexer

variable (m : Multiplexer V paths) (policy : Response) (last : V)

def act (i : Nat) (v : V) : Response → V
  | .keep => v
  | .choose => m.choose v i
  | .drop => m.drop v i

/-- The lever once a path has been visited; `last` is the value that decides which paths are open. -/
def step (i : Nat) (work : Bool) (v : V) : V :=
  if work then
    if m.opens last i then m.act i v policy else m.choose v i
  else if m.opens v i then m.drop v i else v

/-- The lever once all the paths from a number on have been visited. -/
def settle : Nat → List Bool → V → V
  | _, [], v => v
  | i, work :: rest, v => settle (i + 1) rest (m.step policy last i work v)

/-- Whether the lever has been moved on the way, possibly there and back. -/
def moves [DecidableEq V] : Nat → List Bool → V → Bool
  | _, [], _ => false
  | i, work :: rest, v =>
    m.step policy last i work v ≠ v || moves (i + 1) rest (m.step policy last i work v)

variable {m policy last}

theorem proper_act {i : Nat} {v : V} (hproper : m.Proper v) (hpos : 0 < i) (hpath : i ≤ paths)
    (response : Response) : m.Proper (m.act i v response) := by
  cases response with
  | keep => exact hproper
  | choose => exact m.proper_choose hproper hpos hpath
  | drop => exact m.proper_drop hproper hpos hpath

theorem proper_step {i : Nat} {work : Bool} {v : V} (hproper : m.Proper v) (hpos : 0 < i)
    (hpath : i ≤ paths) : m.Proper (m.step policy last i work v) := by
  unfold step
  split
  · split
    · exact proper_act hproper hpos hpath policy
    · exact m.proper_choose hproper hpos hpath
  · split
    · exact m.proper_drop hproper hpos hpath
    · exact hproper

theorem proper_settle {i : Nat} {works : List Bool} {v : V} (hproper : m.Proper v) (hpos : 0 < i)
    (hpaths : i + works.length ≤ paths + 1) : m.Proper (m.settle policy last i works v) := by
  induction works generalizing i v with
  | nil => exact hproper
  | cons work rest ih =>
    rw [List.length_cons] at hpaths
    exact ih (proper_step hproper hpos (by omega)) (by omega) (by omega)

/-! ### Nothing to do -/

/-- At the closed value the controller leaves the lever alone when nothing has work. -/
theorem not_moves_closed [DecidableEq V] {i : Nat} {works : List Bool} (hpos : 0 < i)
    (hpaths : i + works.length ≤ paths + 1) (hidle : ∀ work ∈ works, work = false) :
    m.moves policy last i works m.closed = false := by
  induction works generalizing i with
  | nil => rfl
  | cons work rest ih =>
    rw [List.length_cons] at hpaths
    have hstep : m.step policy last i work m.closed = m.closed := by
      rw [step, hidle work List.mem_cons_self, if_neg Bool.false_ne_true]
      split
      · exact m.drop_closed hpos (by omega) ‹_›
      · rfl
    have hrest : m.moves policy last (i + 1) rest m.closed = false :=
      ih (by omega) (by omega) fun other hmem => hidle other (List.mem_cons_of_mem _ hmem)
    rw [moves, hstep, hrest]
    simp

/-- What holds of the lever when no visited path has work. -/
def Shut (m : Multiplexer V paths) (i : Nat) (v : V) : Prop :=
  m.Proper v ∧ (v = m.closed ∨ ∀ j, 0 < j → j < i → m.opens v j = false)

theorem Shut.step {i : Nat} {v : V} (hshut : m.Shut i v) (hpos : 0 < i) (hpath : i ≤ paths) :
    m.Shut (i + 1) (m.step policy last i false v) := by
  obtain ⟨hproper, hshut⟩ := hshut
  rw [Multiplexer.step, if_neg Bool.false_ne_true]
  by_cases hopen : m.opens v i = true
  · rw [if_pos hopen]
    refine ⟨m.proper_drop hproper hpos hpath, ?_⟩
    by_cases hclosed : m.drop v i = m.closed
    · exact .inl hclosed
    · refine .inr fun j hj hlt => Bool.eq_false_iff.mpr fun hopens => ?_
      have hdrop := m.opens_of_drop hproper hpos hpath hj (by omega) hopen hopens
      obtain ⟨hne, hbefore⟩ := hdrop.resolve_left hclosed
      rcases hshut with rfl | hnone
      · exact hclosed (m.drop_closed hpos hpath hopen)
      · rw [hnone j hj (by omega)] at hbefore
        cases hbefore
  · rw [if_neg hopen]
    refine ⟨hproper, hshut.imp_right fun hnone j hj hlt => ?_⟩
    by_cases hsame : j = i
    · rw [hsame]
      exact Bool.eq_false_iff.mpr hopen
    · exact hnone j hj (by omega)

theorem Shut.settle {i : Nat} {works : List Bool} {v : V} (hshut : m.Shut i v) (hpos : 0 < i)
    (hpaths : i + works.length ≤ paths + 1) (hidle : ∀ work ∈ works, work = false) :
    m.Shut (i + works.length) (m.settle policy last i works v) := by
  induction works generalizing i v with
  | nil => exact hshut
  | cons work rest ih =>
    rw [List.length_cons] at hpaths
    have hfirst := hidle work List.mem_cons_self
    subst hfirst
    have hstep : m.Shut (i + 1) (m.step policy last i false v) := hshut.step hpos (by omega)
    have hrest := ih hstep (by omega) (by omega) fun other hmem =>
      hidle other (List.mem_cons_of_mem _ hmem)
    rw [List.length_cons, Multiplexer.settle]
    rwa [show i + (rest.length + 1) = i + 1 + rest.length by omega]

/-- When nothing has work the lever comes to rest. -/
theorem settle_closed {works : List Bool} {v : V} (hproper : m.Proper v)
    (hpaths : works.length = paths) (hidle : ∀ work ∈ works, work = false) :
    m.settle policy last 1 works v = m.closed := by
  have hstart : m.Shut 1 v := ⟨hproper, .inr fun j hj hlt => absurd hlt (by omega)⟩
  obtain ⟨hproper', hclosed | hnone⟩ :
      m.Shut (1 + works.length) (m.settle policy last 1 works v) :=
    hstart.settle Nat.one_pos (by omega) hidle
  · exact hclosed
  · exact m.eq_closed hproper' fun i hi hle => hnone i hi (by omega)

/-! ### Something to do behind the closed paths -/

/-- What holds of the lever when no visited path with work was open: if there was one, it opens one of them, and it opens no visited path without work but by the closed value. -/
structure Heads (m : Multiplexer V paths) (i : Nat) (work : Nat → Bool) (v : V) : Prop where
  proper : m.Proper v
  opens : (∃ j, 0 < j ∧ j < i ∧ work j = true) →
    ∃ j, 0 < j ∧ j < i ∧ work j = true ∧ m.opens v j = true
  only : v = m.closed ∨ ∀ j, 0 < j → j < i → m.opens v j = true → work j = true

theorem Heads.step {i : Nat} {work : Nat → Bool} {v : V} (hheads : m.Heads i work v) (hpos : 0 < i)
    (hpath : i ≤ paths) (hshut : work i = true → m.opens last i = false) :
    m.Heads (i + 1) work (m.step policy last i (work i) v) := by
  obtain ⟨hproper, hopens, honly⟩ := hheads
  cases hwork : work i with
  | true =>
    rw [Multiplexer.step, if_pos rfl, hshut hwork, if_neg Bool.false_ne_true]
    have hchosen := m.opens_choose hproper hpos hpath
    refine ⟨m.proper_choose hproper hpos hpath, fun _ => ⟨i, hpos, by omega, hwork, hchosen⟩,
      .inr fun j hj hlt hopen => ?_⟩
    by_cases hsame : j = i
    · rwa [hsame]
    · obtain ⟨hbefore, hne⟩ := m.opens_of_choose hproper hpos hpath hj (by omega) hopen hsame
      exact honly.resolve_left hne j hj (by omega) hbefore
  | false =>
    rw [Multiplexer.step, if_neg Bool.false_ne_true]
    have hearlier : (∃ j, 0 < j ∧ j < i + 1 ∧ work j = true) →
        ∃ j, 0 < j ∧ j < i ∧ work j = true := by
      intro hsome
      obtain ⟨j, hj, hlt, hworkj⟩ := hsome
      refine ⟨j, hj, Nat.lt_of_le_of_ne (by omega) fun hsame => ?_, hworkj⟩
      rw [hsame, hwork] at hworkj
      cases hworkj
    by_cases hopen : m.opens v i = true
    · rw [if_pos hopen]
      refine ⟨m.proper_drop hproper hpos hpath, fun hsome => ?_, ?_⟩
      · obtain ⟨j, hj, hlt, hworkj, hopenj⟩ := hopens (hearlier hsome)
        exact ⟨j, hj, by omega, hworkj,
          m.opens_drop hproper hpos hpath hj (by omega) hopen hopenj (by omega)⟩
      · by_cases hclosed : m.drop v i = m.closed
        · exact .inl hclosed
        · refine .inr fun j hj hlt hopenj => ?_
          have hdrop := m.opens_of_drop hproper hpos hpath hj (by omega) hopen hopenj
          obtain ⟨hne, hbefore⟩ := hdrop.resolve_left hclosed
          have hv : v ≠ m.closed := by
            intro hv
            subst hv
            exact hclosed (m.drop_closed hpos hpath hopen)
          exact honly.resolve_left hv j hj (by omega) hbefore
    · rw [if_neg hopen]
      refine ⟨hproper, fun hsome => ?_, honly.imp_right fun honly j hj hlt hopenj => ?_⟩
      · obtain ⟨j, hj, hlt, hfound⟩ := hopens (hearlier hsome)
        exact ⟨j, hj, by omega, hfound⟩
      · refine honly j hj (Nat.lt_of_le_of_ne (by omega) fun hsame => ?_) hopenj
        rw [hsame] at hopenj
        exact hopen hopenj

theorem Heads.settle {i : Nat} {work : Nat → Bool} {works : List Bool} {v : V}
    (hheads : m.Heads i work v) (hpos : 0 < i) (hpaths : i + works.length ≤ paths + 1)
    (hworks : ∀ k (hk : k < works.length), works[k] = work (i + k))
    (hshut : ∀ j, i ≤ j → j < i + works.length → work j = true → m.opens last j = false) :
    m.Heads (i + works.length) work (m.settle policy last i works v) := by
  induction works generalizing i v with
  | nil => exact hheads
  | cons first rest ih =>
    rw [List.length_cons] at hpaths hshut
    have hfirst : first = work i := hworks 0 (by simp)
    have hstep : m.Heads (i + 1) work (m.step policy last i (work i) v) :=
      hheads.step hpos (by omega) (hshut i (by omega) (by omega))
    have hrest := ih hstep (by omega) (by omega) (fun k hk => by
        have hnext := hworks (k + 1) (by simpa using hk)
        rwa [List.getElem_cons_succ, show i + (k + 1) = i + 1 + k by omega] at hnext)
      fun j hle hlt => hshut j (by omega) (by omega)
    rw [List.length_cons, Multiplexer.settle, hfirst]
    rwa [show i + (rest.length + 1) = i + 1 + rest.length by omega]


/-! ### The last decision -/

/-- The controller may close the multiplexer in the end, if nothing has work or if it would leave a path open that is open already. -/
def Resolved (m : Multiplexer V paths) (last : V) (works : List Bool) (v v' : V) : Prop :=
  v' = v ∨ v' = m.closed ∧ ((∀ work ∈ works, work = false) ∨
    ∃ j, 0 < j ∧ j ≤ paths ∧ m.opens last j = true ∧ m.opens v j = true)

theorem Resolved.proper {works : List Bool} {v v' : V} (hproper : m.Proper v)
    (hresolved : m.Resolved last works v v') : m.Proper v' := by
  rcases hresolved with rfl | ⟨rfl, -⟩
  · exact hproper
  · exact m.proper_closed

theorem Resolved.closed {works : List Bool} {v v' : V} (hproper : m.Proper v)
    (hpaths : works.length = paths)
    (hresolved : m.Resolved last works (m.settle policy last 1 works v) v')
    (hidle : ∀ work ∈ works, work = false) : v' = m.closed := by
  rcases hresolved with rfl | ⟨rfl, -⟩
  · exact settle_closed hproper hpaths hidle
  · rfl

/-- When there is work but none behind an open path, the lever opens a path with work. -/
theorem Resolved.opens {works : List Bool} {v v' : V} (hproper : m.Proper v)
    (hpaths : works.length = paths)
    (hresolved : m.Resolved last works (m.settle policy last 1 works v) v')
    (hsome : ∃ k, ∃ (hk : k < works.length), works[k] = true)
    (hshut : ∀ k (hk : k < works.length), works[k] = true → m.opens last (k + 1) = false) :
    ∃ k, ∃ (hk : k < works.length), works[k] = true ∧ m.opens v' (k + 1) = true := by
  let work : Nat → Bool := fun j => works.getD (j - 1) false
  have hwork : ∀ k (hk : k < works.length), works[k] = work (1 + k) := by
    intro k hk
    simp [work, hk]
  have hnone : ∀ {j : Nat}, 0 < j → ¬j < 1 := by
    intro j hj
    omega
  have hstart : m.Heads 1 work v := by
    refine ⟨hproper, fun hsome => ?_, .inr fun j hj hlt => absurd hlt (hnone hj)⟩
    obtain ⟨j, hj, hlt, -⟩ := hsome
    exact absurd hlt (hnone hj)
  have hheads : m.Heads (1 + works.length) work (m.settle policy last 1 works v) :=
    hstart.settle Nat.one_pos (by omega) hwork fun j hle hlt hj => by
      obtain ⟨k, rfl⟩ := Nat.exists_eq_add_of_le hle
      rw [← hwork k (by omega)] at hj
      rw [Nat.add_comm]
      exact hshut k (by omega) hj
  obtain ⟨k, hk, hworkk⟩ := hsome
  obtain ⟨j, hj, hlt, hworkj, hopen⟩ :=
    hheads.opens ⟨1 + k, by omega, by omega, (hwork k hk).symm.trans hworkk⟩
  obtain ⟨t, rfl⟩ := Nat.exists_eq_add_of_le (show 1 ≤ j by omega)
  have ht : t < works.length := by omega
  have hfound : works[t] = true := (hwork t ht).trans hworkj
  rw [Nat.add_comm] at hopen
  refine ⟨t, by omega, hfound, ?_⟩
  rcases hresolved with rfl | ⟨rfl, hidle | ⟨i, hi, hle, hlast, hopeni⟩⟩
  · exact hopen
  · have hfalse := hidle _ (List.getElem_mem (show t < works.length by omega))
    rw [hfound] at hfalse
    cases hfalse
  · have hopened : work i = true := by
      rcases hheads.only with hclosed | honly
      · rw [hclosed] at hopen hopeni
        have hsame := m.closed_unique (by omega) (by omega) hi hle hopen hopeni
        rw [← hsame, Nat.add_comm]
        exact hworkj
      · exact honly i hi (by omega) hopeni
    obtain ⟨k, rfl⟩ := Nat.exists_eq_add_of_le (show 1 ≤ i by omega)
    rw [← hwork k (by omega)] at hopened
    have hfalse := hshut k (by omega) hopened
    rw [Nat.add_comm, hlast] at hfalse
    cases hfalse

end Multiplexer

/-! ### Levers that open one path at a time -/

/-- Each path has a value of its own, and the lever rests at a value that may be that of a path. -/
def exclusive [DecidableEq V] (code : Nat → V) (home : V)
    (hcode : ∀ {i j}, 0 < i → i ≤ paths → 0 < j → j ≤ paths → code i = code j → i = j) :
    Multiplexer V paths where
  opens v i := v = code i
  choose _ i := code i
  drop _ _ := home
  closed := home
  Proper v := v = home ∨ ∃ i, 0 < i ∧ i ≤ paths ∧ v = code i
  proper_closed := .inl rfl
  proper_choose _ hi hle := .inr ⟨_, hi, hle, rfl⟩
  proper_drop _ _ _ := .inl rfl
  opens_choose _ _ _ := decide_eq_true rfl
  opens_of_choose _ hi hle hj hle' hopen hne :=
    absurd (hcode hj hle' hi hle (of_decide_eq_true hopen).symm) hne
  opens_drop _ hi hle hj hle' hopen hopen' hne :=
    absurd (hcode hj hle' hi hle ((of_decide_eq_true hopen').symm.trans (of_decide_eq_true hopen)))
      hne
  opens_of_drop _ _ _ _ _ _ _ := .inl rfl
  drop_closed _ _ _ := rfl
  eq_closed hproper hshut := by
    rcases hproper with hhome | ⟨i, hi, hle, rfl⟩
    · exact hhome
    · exact absurd (decide_eq_true rfl) (Bool.eq_false_iff.mp (hshut i hi hle))
  closed_unique hi hle hj hle' hopen hopen' :=
    hcode hi hle hj hle' ((of_decide_eq_true hopen).symm.trans (of_decide_eq_true hopen'))

/-! ### What is left to do -/

def onOpen (opens : Nat → Bool) : Nat → List Nat → Bool
  | _, [] => false
  | i, part :: rest => opens i && part ≠ 0 || onOpen opens (i + 1) rest

/-- What is left to do behind a multiplexer, given what is left on each of its paths: twice as much, for the moves of the lever, and one more move when no open path has work. With nothing left on the paths only the lever itself may have to be moved, `own` times. -/
def weight (own : Nat) (opens : Nat → Bool) (parts : List Nat) : Nat :=
  if parts.sum = 0 then own
  else 2 * parts.sum + if onOpen opens 1 parts then 1 else 2

/-- Nothing grows, and what is active and left to do falls. -/
inductive Falls (active : Nat → Bool) : Nat → List Nat → List Nat → Prop
  | nil {i : Nat} : Falls active i [] []
  | cons {i part part' : Nat} {rest rest' : List Nat} (hle : part' ≤ part)
      (hlt : active i = true → part ≠ 0 → part' < part) (hrest : Falls active (i + 1) rest rest') :
      Falls active i (part :: rest) (part' :: rest')

namespace Falls

variable {active : Nat → Bool} {i : Nat} {parts parts' : List Nat}

theorem sum_le (h : Falls active i parts parts') : parts'.sum ≤ parts.sum := by
  induction h with
  | nil => exact Nat.le_refl _
  | cons hle _ _ ih =>
    rw [List.sum_cons, List.sum_cons]
    omega

theorem sum_lt (h : Falls active i parts parts') (hopen : onOpen active i parts = true) :
    parts'.sum < parts.sum := by
  induction h with
  | nil => cases hopen
  | @cons i part part' rest rest' hle hlt hrest ih =>
    rw [List.sum_cons, List.sum_cons]
    rcases Bool.or_eq_true_iff.mp hopen with hfirst | hlater
    · rw [Bool.and_eq_true, decide_eq_true_eq] at hfirst
      have hfall := hlt hfirst.1 hfirst.2
      have hle := hrest.sum_le
      omega
    · have hlater := ih hlater
      omega

/-- When everything is active, all falls as long as something is left. -/
theorem sum_lt_of_all (h : Falls active i parts parts') (hall : ∀ j, active j = true)
    (hleft : parts.sum ≠ 0) : parts'.sum < parts.sum := by
  induction h with
  | nil => exact absurd rfl hleft
  | @cons i part part' rest rest' hle hlt hrest ih =>
    rw [List.sum_cons] at hleft
    rw [List.sum_cons, List.sum_cons]
    by_cases hpart : part = 0
    · have hrest := ih (by omega)
      omega
    · have hfall := hlt (hall i) hpart
      have hle := hrest.sum_le
      omega

theorem length_eq (h : Falls active i parts parts') : parts'.length = parts.length := by
  induction h with
  | nil => rfl
  | cons _ _ _ ih => rw [List.length_cons, List.length_cons, ih]

/-- If the sum is the same, every part is. -/
theorem eq_of_sum_eq (h : Falls active i parts parts') (hsum : parts'.sum = parts.sum) :
    parts' = parts := by
  induction h with
  | nil => rfl
  | cons hle _ hrest ih =>
    rw [List.sum_cons, List.sum_cons] at hsum
    have hle' := hrest.sum_le
    rw [ih (by omega)]
    congr 1
    omega

end Falls

theorem onOpen_iff {opens : Nat → Bool} {i : Nat} {parts : List Nat} :
    onOpen opens i parts = true ↔
      ∃ k, ∃ (hk : k < parts.length), parts[k] ≠ 0 ∧ opens (i + k) = true := by
  induction parts generalizing i with
  | nil => simp [onOpen]
  | cons part rest ih =>
    unfold onOpen
    rw [Bool.or_eq_true, ih, Bool.and_eq_true, decide_eq_true_eq]
    constructor
    · intro h
      rcases h with ⟨hopen, hpart⟩ | ⟨k, hk, hpart, hopen⟩
      · exact ⟨0, by simp, hpart, hopen⟩
      · exact ⟨k + 1, by simpa using hk, hpart, by rwa [← Nat.add_assoc, Nat.add_right_comm]⟩
    · intro h
      obtain ⟨k, hk, hpart, hopen⟩ := h
      cases k with
      | zero => exact .inl ⟨hopen, hpart⟩
      | succ k =>
        refine .inr ⟨k, by simpa using hk, hpart, ?_⟩
        rwa [Nat.add_right_comm, Nat.add_assoc]

theorem weight_ne_zero {own : Nat} {opens : Nat → Bool} {parts : List Nat} :
    weight own opens parts ≠ 0 ↔ parts.sum ≠ 0 ∨ own ≠ 0 := by
  unfold weight
  split
  · simp [*]
  · split <;> simp [*]

theorem weight_le {own : Nat} {opens : Nat → Bool} {parts : List Nat} (hown : own ≤ 1) :
    weight own opens parts ≤ 2 * parts.sum + 2 := by
  unfold weight
  split
  · omega
  · split <;> omega

/-- When something is left but not on an open path, the lever opens a path where something is left. -/
theorem Multiplexer.Resolved.opens_left {m : Multiplexer V paths} {policy : Response} {last v v' : V}
    {parts : List Nat} (hproper : m.Proper v) (hpaths : parts.length = paths)
    (hresolved : m.Resolved last (parts.map (decide <| · ≠ 0))
      (m.settle policy last 1 (parts.map (decide <| · ≠ 0)) v) v')
    (hleft : parts.sum ≠ 0) (hshut : onOpen (m.opens last) 1 parts = false) :
    onOpen (m.opens v') 1 parts = true := by
  have hwork : ∀ {k : Nat} (hk : k < (parts.map (decide <| · ≠ 0)).length)
      (hk' : k < parts.length), (parts.map (decide <| · ≠ 0))[k] = true ↔ parts[k] ≠ 0 := by
    intro k hk hk'
    rw [List.getElem_map, decide_eq_true_iff]
  obtain ⟨k, hk, hworkk, hopen⟩ := hresolved.opens hproper (by rwa [List.length_map]) (by
      obtain ⟨part, hmem, hpart⟩ := List.exists_mem_ne_zero_of_sum_ne_zero hleft
      obtain ⟨k, hk, rfl⟩ := List.getElem_of_mem hmem
      exact ⟨k, by simpa using hk, (hwork (by simpa using hk) hk).mpr hpart⟩)
    fun k hk hworkk => by
      refine Bool.eq_false_iff.mpr fun hopen => ?_
      have hfound : onOpen (m.opens last) 1 parts = true :=
        onOpen_iff.mpr ⟨k, by simpa using hk, (hwork hk (by simpa using hk)).mp hworkk,
          by rwa [Nat.add_comm]⟩
      rw [hshut] at hfound
      cases hfound
  exact onOpen_iff.mpr ⟨k, by simpa using hk, (hwork hk (by simpa using hk)).mp hworkk,
    by rwa [Nat.add_comm]⟩

/-- The turn of a multiplexer that is active: the open paths make progress and the lever opens others. One that is not active waits. -/
theorem weight_falls {active : Bool} {opens opens' : Nat → Bool} {own own' : Nat}
    {parts parts' : List Nat} (hfalls : Falls (fun i => active && opens i) 1 parts parts')
    (hmoved : active = true → parts.sum ≠ 0 → onOpen opens 1 parts = false →
      onOpen opens' 1 parts = true)
    (hwaits : active = false → opens' = opens)
    (hidle : parts.sum = 0 → own' ≤ own ∧ (active = true → own ≠ 0 → own' < own))
    (hown : own' ≤ 1) :
    weight own' opens' parts' ≤ weight own opens parts ∧
      (active = true → weight own opens parts ≠ 0 →
        weight own' opens' parts' < weight own opens parts) := by
  have hle := hfalls.sum_le
  unfold weight
  by_cases hzero : parts.sum = 0
  · rw [if_pos hzero, if_pos (show parts'.sum = 0 by omega)]
    exact hidle hzero
  · rw [if_neg hzero]
    by_cases hzero' : parts'.sum = 0
    · rw [if_pos hzero']
      refine ⟨?_, fun _ _ => ?_⟩ <;> split <;> omega
    · rw [if_neg hzero']
      by_cases hsame : parts'.sum = parts.sum
      · have hparts := hfalls.eq_of_sum_eq hsame
        subst hparts
        cases active with
        | false =>
          rw [hwaits rfl]
          exact ⟨Nat.le_refl _, fun h => absurd h Bool.false_ne_true⟩
        | true =>
          cases hopen : onOpen opens 1 parts' with
          | true =>
            have hlt := hfalls.sum_lt (by simpa using hopen)
            omega
          | false =>
            rw [hmoved rfl hzero hopen]
            simp only [Bool.false_eq_true, if_false, if_true]
            omega
      · refine ⟨?_, fun _ _ => ?_⟩ <;> split <;> split <;> omega

end Multiplexers
