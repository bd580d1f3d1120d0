import Mathlib.Data.List.Basic
import Mathlib.Data.List.Range
import Mathlib.Data.Bool.Basic

/-!
# Shift lines

A line of cells is shifted by one cell at each cycle: a value enters before the first cell and the last one leaves. Between two cells, before the first one and after the last one there is a boundary, and a value that crosses a boundary may be changed there, depending on the cycle. Pending inputs, cells and outputs together are a tape whose values keep their places; only the window of the line moves over it.
-/

namespace ShiftLine

variable {α : Type*}

/-! ### Shifting -/

/-- Each value of a row crosses the boundary before it, `boundary` being that of the first one. -/
def crossFrom (cross : Nat → α → α) : (boundary : Nat) → List α → List α
  | _, [] => []
  | boundary, value :: row => cross boundary value :: crossFrom cross (boundary + 1) row

/-- One cycle: the cells, the value that enters included, with the value that leaves as the last one. -/
def shifted (cross : Nat → α → α) (input : α) (cells : List α) : List α :=
  crossFrom cross 0 (input :: cells)

/-- The cycles from `cycle` on, one for each input; the outputs are in the order they leave. -/
def scan (cross : Nat → Nat → α → α) : (cycle : Nat) → (inputs cells : List α) → List α × List α
  | _, [], cells => (cells, [])
  | cycle, input :: inputs, cells =>
    let row := shifted (cross cycle) input cells
    let rest := scan cross (cycle + 1) inputs (row.take cells.length)
    (rest.1, row.drop cells.length ++ rest.2)

@[simp] theorem crossFrom_length (cross : Nat → α → α) (boundary : Nat) (row : List α) :
    (crossFrom cross boundary row).length = row.length := by
  induction row generalizing boundary with
  | nil => rfl
  | cons value row ih => exact congrArg (· + 1) (ih _)

theorem crossFrom_getElem? (cross : Nat → α → α) (boundary : Nat) (row : List α) (k : Nat) :
    (crossFrom cross boundary row)[k]? = row[k]?.map (cross (boundary + k)) := by
  induction row generalizing boundary k with
  | nil => rfl
  | cons value row ih =>
    cases k with
    | zero => rfl
    | succ k =>
      rw [crossFrom, List.getElem?_cons_succ, List.getElem?_cons_succ, ih]
      congr 2
      omega

theorem shifted_length (cross : Nat → α → α) (input : α) (cells : List α) :
    (shifted cross input cells).length = cells.length + 1 := by
  rw [shifted, crossFrom_length, List.length_cons]

/-- The value that leaves is the last one of the row. -/
theorem shifted_split (cross : Nat → α → α) (input : α) (cells : List α) :
    (∃ output, (shifted cross input cells).drop cells.length = [output]) ∧
      ((shifted cross input cells).take cells.length).length = cells.length := by
  have hlength := shifted_length cross input cells
  constructor
  · exact List.length_eq_one_iff.mp (by rw [List.length_drop, hlength]; omega)
  · rw [List.length_take, hlength]
    omega

theorem scan_length (cross : Nat → Nat → α → α) (cycle : Nat) (inputs cells : List α) :
    (scan cross cycle inputs cells).1.length = cells.length ∧
      (scan cross cycle inputs cells).2.length = inputs.length := by
  induction inputs generalizing cycle cells with
  | nil => exact ⟨rfl, rfl⟩
  | cons input inputs ih =>
    obtain ⟨⟨output, hdrop⟩, hcells⟩ := shifted_split (cross cycle) input cells
    obtain ⟨hfinal, houtputs⟩ := ih (cycle + 1) ((shifted (cross cycle) input cells).take cells.length)
    rw [scan, hdrop]
    refine ⟨hfinal.trans hcells, ?_⟩
    rw [List.length_append, houtputs, List.length_cons]
    exact Nat.add_comm _ _

/-! ### The tape -/

/-- What the value at a place of the tape goes through while the window moves over it: in the `i`-th of `cycles` cycles, the window is at the place `cycles - 1 - i`. -/
def travel (cross : Nat → Nat → α → α) (cycle cycles cells place : Nat) (value : α) : α :=
  (List.range cycles).foldl
    (fun value i =>
      if cycles - 1 - i ≤ place ∧ place ≤ cycles - 1 - i + cells then
        cross (cycle + i) (place - (cycles - 1 - i)) value
      else value) value

theorem travel_succ (cross : Nat → Nat → α → α) (cycle cycles cells place : Nat) (value : α) :
    travel cross cycle (cycles + 1) cells place value =
      travel cross (cycle + 1) cycles cells place
        (if cycles ≤ place ∧ place ≤ cycles + cells then cross cycle (place - cycles) value
          else value) := by
  have hstep : (fun (value : α) (i : Nat) =>
      if cycles + 1 - 1 - (i + 1) ≤ place ∧ place ≤ cycles + 1 - 1 - (i + 1) + cells then
        cross (cycle + (i + 1)) (place - (cycles + 1 - 1 - (i + 1))) value
      else value) = fun value i =>
      if cycles - 1 - i ≤ place ∧ place ≤ cycles - 1 - i + cells then
        cross (cycle + 1 + i) (place - (cycles - 1 - i)) value
      else value := by
    funext value i
    have hshift : cycles + 1 - 1 - (i + 1) = cycles - 1 - i := by omega
    have hcycle : cycle + (i + 1) = cycle + 1 + i := by omega
    rw [hshift, hcycle]
  rw [travel, List.range_succ_eq_map, List.foldl_cons, List.foldl_map, travel]
  exact congrArg (fun f => List.foldl f _ (List.range cycles)) hstep

/-- A place that the window never reaches. -/
theorem travel_beyond (cross : Nat → Nat → α → α) (cycle cycles cells place : Nat) (value : α)
    (hbeyond : cycles + cells ≤ place) : travel cross cycle cycles cells place value = value := by
  induction cycles generalizing cycle with
  | zero => rfl
  | succ cycles ih =>
    rw [travel_succ, if_neg (by omega), ih]
    omega

theorem shifted_tape (cross : Nat → Nat → α → α) (cycle : Nat) (pending : List α) (input : α)
    (cells : List α) (place : Nat) :
    (pending ++ shifted (cross cycle) input cells)[place]? =
      (pending ++ input :: cells)[place]?.map fun value =>
        if pending.length ≤ place ∧ place ≤ pending.length + cells.length then
          cross cycle (place - pending.length) value
        else value := by
  by_cases hpending : place < pending.length
  · rw [List.getElem?_append_left hpending, List.getElem?_append_left hpending]
    have hbefore : ¬(pending.length ≤ place ∧ place ≤ pending.length + cells.length) := by omega
    simp only [if_neg hbefore]
    exact Option.map_id'.symm
  · have hreached : pending.length ≤ place := Nat.le_of_not_lt hpending
    rw [List.getElem?_append_right hreached, List.getElem?_append_right hreached, shifted,
      crossFrom_getElem?, Nat.zero_add]
    by_cases hlast : place ≤ pending.length + cells.length
    · simp only [if_pos (And.intro hreached hlast)]
    · have hnone : (input :: cells)[place - pending.length]? = none := by
        rw [List.getElem?_eq_none_iff, List.length_cons]
        omega
      rw [hnone]
      rfl

/-- The tape of a scan: what each value has gone through when the inputs are used up. -/
theorem scan_tape (cross : Nat → Nat → α → α) (cycle : Nat) (inputs cells : List α) (place : Nat) :
    ((scan cross cycle inputs cells).1 ++ (scan cross cycle inputs cells).2.reverse)[place]? =
      (inputs.reverse ++ cells)[place]?.map
        (travel cross cycle inputs.length cells.length place) := by
  induction inputs generalizing cycle cells with
  | nil =>
    rw [scan, List.reverse_nil, List.append_nil, List.nil_append]
    exact (congrFun Option.map_id _).symm
  | cons input inputs ih =>
    obtain ⟨⟨output, hdrop⟩, hcells⟩ := shifted_split (cross cycle) input cells
    have hrow := List.take_append_drop cells.length (shifted (cross cycle) input cells)
    rw [hdrop] at hrow
    have hrest := ih (cycle + 1) ((shifted (cross cycle) input cells).take cells.length)
    obtain ⟨hfinal, houtputs⟩ := scan_length cross (cycle + 1) inputs
      ((shifted (cross cycle) input cells).take cells.length)
    rw [hcells] at hrest hfinal
    have hrows : inputs.reverse ++ shifted (cross cycle) input cells =
        inputs.reverse ++ (shifted (cross cycle) input cells).take cells.length ++ [output] := by
      rw [List.append_assoc, hrow]
    have hwhole : inputs.reverse ++ [input] ++ cells = inputs.reverse ++ input :: cells :=
      List.append_assoc _ _ _
    have htape := shifted_tape cross cycle inputs.reverse input cells place
    rw [List.length_reverse, hrows] at htape
    have htravel : travel cross cycle (inputs.length + 1) cells.length place =
        travel cross (cycle + 1) inputs.length cells.length place ∘ fun value =>
          if inputs.length ≤ place ∧ place ≤ inputs.length + cells.length then
            cross cycle (place - inputs.length) value
          else value := funext fun value => travel_succ _ _ _ _ _ _
    have hscan : scan cross cycle (input :: inputs) cells =
        ((scan cross (cycle + 1) inputs
            ((shifted (cross cycle) input cells).take cells.length)).1,
          output :: (scan cross (cycle + 1) inputs
            ((shifted (cross cycle) input cells).take cells.length)).2) := by
      rw [scan, hdrop]
      rfl
    simp only [hscan, List.reverse_cons]
    rw [hwhole, List.length_cons, htravel, ← Option.map_map, ← htape,
      ← List.append_assoc (scan _ _ _ _).1]
    have hdone : ((scan cross (cycle + 1) inputs
        ((shifted (cross cycle) input cells).take cells.length)).1 ++
        (scan cross (cycle + 1) inputs
          ((shifted (cross cycle) input cells).take cells.length)).2.reverse).length =
        inputs.length + cells.length := by
      rw [List.length_append, List.length_reverse, hfinal, houtputs, Nat.add_comm]
    have hleft : (inputs.reverse ++ (shifted (cross cycle) input cells).take cells.length).length =
        inputs.length + cells.length := by
      rw [List.length_append, List.length_reverse, hcells]
    by_cases hplace : place < inputs.length + cells.length
    · rw [List.getElem?_append_left (Nat.lt_of_lt_of_eq hplace hdone.symm),
        List.getElem?_append_left (Nat.lt_of_lt_of_eq hplace hleft.symm)]
      exact hrest
    · have hreached : inputs.length + cells.length ≤ place := Nat.le_of_not_lt hplace
      have hbeyond : travel cross (cycle + 1) inputs.length cells.length place = id :=
        funext fun value => travel_beyond _ _ _ _ _ _ hreached
      rw [hbeyond, Option.map_id, id,
        List.getElem?_append_right (Nat.le_trans (Nat.le_of_eq hdone) hreached),
        List.getElem?_append_right (Nat.le_trans (Nat.le_of_eq hleft) hreached), hdone, hleft]

/-! ### Keys -/

def xorAll {ι : Type*} (f : ι → Bool) (l : List ι) : Bool := l.foldr (fun i rest => f i ^^ rest) false

theorem xorAll_xor {ι : Type*} (f g : ι → Bool) (l : List ι) :
    xorAll (fun i => f i ^^ g i) l = (xorAll f l ^^ xorAll g l) := by
  induction l with
  | nil => rfl
  | cons i l ih =>
    change (f i ^^ g i ^^ xorAll (fun i => f i ^^ g i) l) =
      ((f i ^^ xorAll f l) ^^ (g i ^^ xorAll g l))
    rw [ih, Bool.xor_assoc, Bool.xor_assoc, Bool.xor_left_comm (g i)]

theorem xorAll_congr {ι : Type*} {f g : ι → Bool} {l : List ι} (h : ∀ i ∈ l, f i = g i) :
    xorAll f l = xorAll g l := by
  induction l with
  | nil => rfl
  | cons i l ih =>
    change (f i ^^ xorAll f l) = (g i ^^ xorAll g l)
    rw [h i List.mem_cons_self, ih fun j hj => h j (List.mem_cons_of_mem _ hj)]

theorem xorAll_false {ι : Type*} (l : List ι) : xorAll (fun _ => false) l = false := by
  induction l with
  | nil => rfl
  | cons i l ih => exact (Bool.false_xor _).trans ih

theorem xorAll_append {ι : Type*} (f : ι → Bool) (l l' : List ι) :
    xorAll f (l ++ l') = (xorAll f l ^^ xorAll f l') := by
  induction l with
  | nil => exact (Bool.false_xor _).symm
  | cons i l ih =>
    change (f i ^^ xorAll f (l ++ l')) = ((f i ^^ xorAll f l) ^^ xorAll f l')
    rw [ih, Bool.xor_assoc]

/-- At most one index of the range counts. -/
theorem xorAll_range (n j : Nat) (value : Bool) :
    xorAll (fun i => if i = j then value else false) (List.range n) =
      if j < n then value else false := by
  induction n with
  | zero => rfl
  | succ n ih =>
    have hlast : xorAll (fun i => if i = j then value else false) [n] =
        if n = j then value else false := Bool.xor_false _
    rw [List.range_succ, xorAll_append, ih, hlast]
    by_cases hbefore : j < n
    · rw [if_pos hbefore, if_neg (Nat.ne_of_gt hbefore), if_pos (Nat.lt_succ_of_lt hbefore),
        Bool.xor_false]
    · by_cases hsame : n = j
      · rw [if_neg hbefore, if_pos hsame, if_pos (hsame ▸ Nat.lt_succ_self n), Bool.false_xor]
      · have hafter : ¬j < n + 1 := by omega
        rw [if_neg hbefore, if_neg hsame, if_neg hafter, Bool.false_xor]

/-- The keys that the value at a place meets while the window moves over it. -/
def travelKey (key : Nat → Nat → Bool) (cycles cells place : Nat) : Bool :=
  xorAll
    (fun i =>
      if cycles - 1 - i ≤ place ∧ place ≤ cycles - 1 - i + cells then
        key i (place - (cycles - 1 - i))
      else false) (List.range cycles)

theorem travel_xor (key : Nat → Nat → Bool) (cycles cells place : Nat) (value : Bool) :
    travel (fun cycle boundary value => value ^^ key cycle boundary) 0 cycles cells place value =
      (value ^^ travelKey key cycles cells place) := by
  rw [travel, travelKey]
  induction List.range cycles generalizing value with
  | nil => exact (Bool.xor_false _).symm
  | cons i rest ih =>
    rw [List.foldl_cons, ih]
    change _ = (value ^^ ((if _ then _ else false) ^^ xorAll _ rest))
    rw [Nat.zero_add, ← Bool.xor_assoc]
    split
    · rfl
    · rw [Bool.xor_false]

theorem travelKey_xor (key key' : Nat → Nat → Bool) (cycles cells place : Nat) :
    travelKey (fun cycle boundary => key cycle boundary ^^ key' cycle boundary) cycles cells place =
      (travelKey key cycles cells place ^^ travelKey key' cycles cells place) := by
  rw [travelKey, travelKey, travelKey, ← xorAll_xor]
  apply xorAll_congr
  intro i _
  split
  · rfl
  · rfl

theorem travelKey_false (cycles cells place : Nat) :
    travelKey (fun _ _ => false) cycles cells place = false := by
  have hnone : travelKey (fun _ _ => false) cycles cells place =
      xorAll (fun _ => false) (List.range cycles) := by
    apply xorAll_congr
    intro i _
    split
    · rfl
    · rfl
  rw [hnone, xorAll_false]

theorem travelKey_xorAll {ι : Type*} (key : ι → Nat → Nat → Bool) (l : List ι)
    (cycles cells place : Nat) :
    travelKey (fun cycle boundary => xorAll (fun i => key i cycle boundary) l) cycles cells place =
      xorAll (fun i => travelKey (key i) cycles cells place) l := by
  induction l with
  | nil => exact travelKey_false cycles cells place
  | cons i l ih =>
    have hfirst := travelKey_xor (key i) (fun cycle boundary => xorAll (fun i => key i cycle boundary) l)
      cycles cells place
    rw [ih] at hfirst
    exact hfirst

/-- The key of a single boundary. -/
def boundaryKey (boundary : Nat) (keystream : Nat → Bool) (cycle crossed : Nat) : Bool :=
  decide (boundary = crossed) && keystream cycle

theorem boundaryKey_other {boundary crossed : Nat} (h : boundary ≠ crossed)
    (keystream : Nat → Bool) (cycle : Nat) : boundaryKey boundary keystream cycle crossed = false := by
  rw [boundaryKey, decide_eq_false h, Bool.false_and]

theorem boundaryKey_same {boundary crossed : Nat} (h : boundary = crossed)
    (keystream : Nat → Bool) (cycle : Nat) :
    boundaryKey boundary keystream cycle crossed = keystream cycle := by
  rw [boundaryKey, decide_eq_true h, Bool.true_and]

/-- A single boundary is crossed once, in the cycle in which the window brings it to the place. -/
theorem travelKey_boundary (keystream : Nat → Bool) {boundary cells : Nat}
    (hboundary : boundary ≤ cells) (cycles place : Nat) :
    travelKey (boundaryKey boundary keystream) cycles cells place =
      if boundary ≤ place ∧ place < boundary + cycles then
        keystream (boundary + cycles - 1 - place)
      else false := by
  by_cases hcrossed : boundary ≤ place ∧ place < boundary + cycles
  · have honce : travelKey (boundaryKey boundary keystream) cycles cells place =
        xorAll (fun i => if i = boundary + cycles - 1 - place then
          keystream (boundary + cycles - 1 - place) else false) (List.range cycles) := by
      apply xorAll_congr
      intro i hi
      have hlt := List.mem_range.mp hi
      by_cases hnow : i = boundary + cycles - 1 - place
      · have hwindow : cycles - 1 - i ≤ place ∧ place ≤ cycles - 1 - i + cells := by omega
        have hsame : boundary = place - (cycles - 1 - i) := by omega
        rw [if_pos hwindow, if_pos hnow, boundaryKey_same hsame, hnow]
      · rw [if_neg hnow]
        by_cases hwindow : cycles - 1 - i ≤ place ∧ place ≤ cycles - 1 - i + cells
        · have hother : boundary ≠ place - (cycles - 1 - i) := by omega
          rw [if_pos hwindow, boundaryKey_other hother]
        · rw [if_neg hwindow]
    have hduring : boundary + cycles - 1 - place < cycles := by omega
    rw [if_pos hcrossed, honce, xorAll_range, if_pos hduring]
  · have hnever : travelKey (boundaryKey boundary keystream) cycles cells place =
        xorAll (fun _ => false) (List.range cycles) := by
      apply xorAll_congr
      intro i hi
      have hlt := List.mem_range.mp hi
      by_cases hwindow : cycles - 1 - i ≤ place ∧ place ≤ cycles - 1 - i + cells
      · have hother : boundary ≠ place - (cycles - 1 - i) := by omega
        rw [if_pos hwindow, boundaryKey_other hother]
      · rw [if_neg hwindow]
    rw [if_neg hcrossed, hnever, xorAll_false]

/-! ### Scrambled rows -/

def scramble (key : Nat → Bool) (bits : List Bool) : List Bool := bits.mapIdx fun i bit => bit ^^ key i

@[simp] theorem scramble_length (key : Nat → Bool) (bits : List Bool) :
    (scramble key bits).length = bits.length := List.length_mapIdx

theorem scramble_getElem? (key : Nat → Bool) (bits : List Bool) (i : Nat) :
    (scramble key bits)[i]? = bits[i]?.map (· ^^ key i) := List.getElem?_mapIdx

theorem scramble_congr {key key' : Nat → Bool} {bits : List Bool}
    (h : ∀ i, i < bits.length → key i = key' i) : scramble key bits = scramble key' bits := by
  apply List.ext_getElem?
  intro i
  rw [scramble_getElem?, scramble_getElem?]
  by_cases hi : i < bits.length
  · rw [h i hi]
  · rw [List.getElem?_eq_none (Nat.le_of_not_lt hi)]
    rfl

theorem scramble_false (bits : List Bool) : scramble (fun _ => false) bits = bits := by
  apply List.ext_getElem?
  intro i
  have hsame : (fun bit => bit ^^ false) = (id : Bool → Bool) := funext Bool.xor_false
  rw [scramble_getElem?, hsame, Option.map_id, id]

theorem scramble_scramble (key key' : Nat → Bool) (bits : List Bool) :
    scramble key' (scramble key bits) = scramble (fun i => key i ^^ key' i) bits := by
  apply List.ext_getElem?
  intro i
  rw [scramble_getElem?, scramble_getElem?, scramble_getElem?, Option.map_map]
  congr 1
  funext bit
  exact Bool.xor_assoc _ _ _

theorem scramble_append (key : Nat → Bool) (bits bits' : List Bool) :
    scramble key (bits ++ bits') =
      scramble key bits ++ scramble (fun i => key (bits.length + i)) bits' := by
  rw [scramble, List.mapIdx_append, scramble, scramble]
  simp only [Nat.add_comm]

/-- A row combined with a slice of a mask. -/
theorem zipWith_xor_slice {bits mask : List Bool} {offset : Nat}
    (hmask : offset + bits.length ≤ mask.length) :
    List.zipWith xor bits ((mask.drop offset).take bits.length) =
      scramble (fun i => mask.getD (offset + i) false) bits := by
  apply List.ext_getElem?
  intro i
  rw [scramble_getElem?, List.getElem?_zipWith]
  by_cases hi : i < bits.length
  · have hoffset : offset + i < mask.length := by omega
    rw [List.getElem?_take_of_lt hi, List.getElem?_drop, List.getElem?_eq_getElem hi,
      List.getElem?_eq_getElem hoffset, List.getD_eq_getElem?_getD, List.getElem?_eq_getElem hoffset]
    rfl
  · rw [List.getElem?_eq_none (Nat.le_of_not_lt hi)]
    rfl

/-- The same keys twice leave the row as it was. -/
theorem scramble_self (key : Nat → Bool) (bits : List Bool) :
    scramble key (scramble key bits) = bits := by
  rw [scramble_scramble]
  simp only [Bool.xor_self]
  exact scramble_false bits

/-- A scan of as many inputs as there are cells: what the cells hold then and what has left are the inputs and the old contents, with the keys they have met. -/
theorem scan_scrambles (key : Nat → Nat → Bool) {bits cells : List Bool}
    (hlength : bits.length = cells.length) :
    let scanned := scan (fun cycle boundary value => value ^^ key cycle boundary) 0 bits.reverse cells
    scanned.1 = scramble (fun i => travelKey key cells.length cells.length i) bits ∧
      scanned.2.reverse =
        scramble (fun i => travelKey key cells.length cells.length (cells.length + i)) cells := by
  intro scanned
  have htape (place : Nat) := scan_tape (fun cycle boundary value => value ^^ key cycle boundary) 0
    bits.reverse cells place
  obtain ⟨hheld, hout⟩ := scan_length (fun cycle boundary value => value ^^ key cycle boundary) 0
    bits.reverse cells
  have htravel (place : Nat) :
      travel (fun cycle boundary value => value ^^ key cycle boundary) 0 cells.length cells.length
        place = fun value => value ^^ travelKey key cells.length cells.length place :=
    funext fun value => travel_xor key _ _ _ value
  rw [List.reverse_reverse, List.length_reverse, hlength] at htape
  rw [List.length_reverse, hlength] at hout
  constructor
  · apply List.ext_getElem?
    intro i
    have hplace := htape i
    rw [scramble_getElem?]
    by_cases hi : i < cells.length
    · rwa [List.getElem?_append_left (Nat.lt_of_lt_of_eq hi hheld.symm),
        List.getElem?_append_left (Nat.lt_of_lt_of_eq hi hlength.symm), htravel] at hplace
    · have hpast : cells.length ≤ i := Nat.le_of_not_lt hi
      rw [List.getElem?_eq_none (Nat.le_trans (Nat.le_of_eq hheld) hpast),
        List.getElem?_eq_none (Nat.le_trans (Nat.le_of_eq hlength) hpast)]
      rfl
  · apply List.ext_getElem?
    intro i
    have hplace := htape (cells.length + i)
    rw [List.getElem?_append_right (Nat.le_trans (Nat.le_of_eq hheld) (Nat.le_add_right _ _)),
      List.getElem?_append_right (Nat.le_trans (Nat.le_of_eq hlength) (Nat.le_add_right _ _)), hheld,
      hlength, Nat.add_sub_cancel_left, htravel] at hplace
    rwa [scramble_getElem?]

end ShiftLine
