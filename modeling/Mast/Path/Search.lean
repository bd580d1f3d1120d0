import Mast.Lib.BreadthFirst
import Mast.Path.Lookup
import Mathlib.Data.List.TakeWhile

/-!
# What `FindNode` finds

A parent node sees the nodes below it that are not ignored in paths, through any number of parent nodes that are. `FindNode` goes down one name of the path at a time: it takes the first node with that name, in the order of a breadth-first visit, and forgets the others.
-/

namespace Mast

open BinaryVector (Text)

/-! ### The nodes a parent node sees -/

def SystemModelNode.name : SystemModelNode → Text
  | .register _ name => name
  | .parent node => node.name

namespace Siblings

def named : Siblings → List SystemModelNode
  | .none => []
  | .register id name next => .register id name :: next.named
  | .parent fields firstChild next =>
    if fields.ignoreForNodePath then next.named else .parent ⟨fields, firstChild⟩ :: next.named

def transparent : Siblings → List ParentNode
  | .none => []
  | .register _ _ next => next.transparent
  | .parent fields firstChild next =>
    if fields.ignoreForNodePath then ⟨fields, firstChild⟩ :: next.transparent else next.transparent

theorem transparent_size (siblings : Siblings) :
    (siblings.transparent.map ParentNode.size).sum ≤ siblings.size := by
  induction siblings with
  | none => exact Nat.le_refl 0
  | register id name next ih =>
    rw [transparent, size]
    omega
  | parent fields firstChild next _ ih =>
    rw [transparent, size]
    split_ifs
    · rw [List.map_cons, List.sum_cons]
      change 1 + firstChild.size + _ ≤ _
      omega
    · omega

end Siblings

namespace ParentNode

theorem next_size (p : ParentNode) :
    (p.firstChild.transparent.map ParentNode.size).sum < p.size := by
  have hsize := p.firstChild.transparent_size
  rw [ParentNode.size]
  omega

/-- A parent node shows its children, and leads on to those that are ignored in paths. -/
def paths : BreadthFirst ParentNode SystemModelNode where
  shown p := p.firstChild.named
  next p := p.firstChild.transparent
  size := ParentNode.size
  next_size := next_size

/-- A node that is not ignored is seen from a parent node. -/
abbrev Sees (p : ParentNode) (n : SystemModelNode) : Prop := paths.Shows p n

/-- The nodes a parent node sees, the nearest first. -/
def level (p : ParentNode) : List SystemModelNode := paths.visit [p]

theorem mem_level {p : ParentNode} {n : SystemModelNode} : n ∈ p.level ↔ p.Sees n := by
  rw [level, BreadthFirst.mem_visit]
  simp

/-- The node that is reached by taking at each level the first node with the next name. -/
def descend (p : ParentNode) : List Text → Option SystemModelNode
  | [] => some (.parent p)
  | name :: names =>
    match p.level.find? (·.name = name) with
    | none => none
    | some n =>
      if names = [] then some n
      else
        match n with
        | .register _ _ => none
        | .parent q => q.descend names

section

variable {p : ParentNode} {name : Text} {names : List Text}

theorem descend_missed (hmissed : p.level.find? (·.name = name) = none) :
    p.descend (name :: names) = none := by
  simp only [descend, hmissed]

theorem descend_last {n : SystemModelNode} (hfound : p.level.find? (·.name = name) = some n) :
    p.descend [name] = some n := by
  simp only [descend, hfound, if_pos]

theorem descend_register {id : Nat} {name' : Text} (hnames : names ≠ [])
    (hfound : p.level.find? (·.name = name) = some (.register id name')) :
    p.descend (name :: names) = none := by
  simp only [descend, hfound, if_neg hnames]

theorem descend_parent {q : ParentNode} (hnames : names ≠ [])
    (hfound : p.level.find? (·.name = name) = some (.parent q)) :
    p.descend (name :: names) = q.descend names := by
  simp only [descend, hfound, if_neg hnames]

end

end ParentNode

/-! ### One level of the search -/

namespace NodeSearch

theorem visitSiblings_missed {siblings : Siblings} {s : NodeSearch}
    (hmissed : siblings.named.find? (·.name = s.currentPathChunk) = none) :
    visitSiblings siblings s =
      (none, { s with parentsToProcess := s.parentsToProcess ++ siblings.transparent }) := by
  induction siblings generalizing s with
  | none => simp [visitSiblings, Siblings.transparent]
  | register id name next ih =>
    rw [Siblings.named, List.find?_cons] at hmissed
    split at hmissed
    · cases hmissed
    next hname =>
      have hname : name ≠ s.currentPathChunk := of_decide_eq_false hname
      rw [visitSiblings, if_neg hname, ih hmissed, Siblings.transparent]
  | parent fields firstChild next _ ih =>
    rw [Siblings.named] at hmissed
    rw [visitSiblings, Siblings.transparent]
    by_cases hignored : fields.ignoreForNodePath
    · rw [if_pos hignored] at hmissed
      rw [if_pos hignored, if_pos hignored, ih (by exact hmissed), List.append_assoc]
      rfl
    · rw [if_neg hignored, List.find?_cons] at hmissed
      split at hmissed
      · cases hmissed
      next hname =>
        have hname : fields.name ≠ s.currentPathChunk := of_decide_eq_false hname
        rw [if_neg hignored, if_neg hignored, if_neg hname, ih hmissed]

/-- The search once a node with the current name has been found and the path goes on. -/
def below (s : NodeSearch) (n : SystemModelNode) : NodeSearch :=
  { s.nextChunk with
    parentsToProcess :=
      match n with
      | .register _ _ => []
      | .parent q => [q] }

theorem visitSiblings_found {siblings : Siblings} {s : NodeSearch} {n : SystemModelNode}
    (hfound : siblings.named.find? (·.name = s.currentPathChunk) = some n) :
    (s.nextChunk.currentPathChunk = [] →
      (visitSiblings siblings s).1 = some n ∧
        (visitSiblings siblings s).2.reader = s.nextChunk.reader) ∧
    (s.nextChunk.currentPathChunk ≠ [] → visitSiblings siblings s = (none, s.below n)) := by
  induction siblings generalizing s with
  | none => cases hfound
  | register id name next ih =>
    rw [Siblings.named, List.find?_cons] at hfound
    split at hfound
    next hname =>
      have hname : name = s.currentPathChunk := of_decide_eq_true hname
      rw [visitSiblings, if_pos hname, ← Option.some.inj hfound]
      constructor
      · intro hlast
        rw [if_pos hlast]
        exact ⟨rfl, rfl⟩
      · intro hmore
        rw [if_neg hmore]
        rfl
    next hname =>
      have hname : name ≠ s.currentPathChunk := of_decide_eq_false hname
      rw [visitSiblings, if_neg hname]
      exact ih hfound
  | parent fields firstChild next _ ih =>
    rw [Siblings.named] at hfound
    rw [visitSiblings]
    by_cases hignored : fields.ignoreForNodePath
    · rw [if_pos hignored] at hfound
      rw [if_pos hignored]
      exact ih (s := { s with parentsToProcess := s.parentsToProcess ++ [⟨fields, firstChild⟩] })
        hfound
    · rw [if_neg hignored, List.find?_cons] at hfound
      rw [if_neg hignored]
      split at hfound
      next hname =>
        have hname : fields.name = s.currentPathChunk := of_decide_eq_true hname
        rw [if_pos hname, ← Option.some.inj hfound]
        constructor
        · intro hlast
          rw [if_pos hlast]
          exact ⟨rfl, rfl⟩
        · intro hmore
          rw [if_neg hmore]
          rfl
      next hname =>
        have hname : fields.name ≠ s.currentPathChunk := of_decide_eq_false hname
        rw [if_neg hname]
        exact ih hfound

open ParentNode (paths)

variable {p : ParentNode} {s : NodeSearch}

theorem visitParents_round {s' : NodeSearch} (hvalid : s.reader.notValidPath = false)
    (hvisit : visitSiblings p.firstChild s = (none, s')) :
    visitParents p s =
      match s'.parentsToProcess with
      | [] => (none, s')
      | front :: parents => visitParents front { s' with parentsToProcess := parents } := by
  rw [visitParents, if_neg (by rw [hvalid]; exact Bool.false_ne_true)]
  split
  next hfound => rw [hvisit] at hfound; cases hfound
  next s'' hmissed =>
    obtain rfl : s' = s'' := by
      rw [hvisit] at hmissed
      exact (Prod.mk.inj hmissed).2
    split
    next hparents => rw [hparents]
    next hparents => rw [hparents]

/-- What the search does once the nodes it may see at this level are known: nothing has the name. -/
theorem visitParents_missed (hvalid : s.reader.notValidPath = false)
    (hmissed : (paths.visit (p :: s.parentsToProcess)).find? (·.name = s.currentPathChunk) = none) :
    (visitParents p s).1 = none ∧ (visitParents p s).2.reader = s.reader := by
  generalize hqueue : p :: s.parentsToProcess = queue at hmissed
  induction queue using BreadthFirst.visit.induct paths generalizing p s with
  | case1 => cases hqueue
  | case2 front queue ih =>
    obtain ⟨rfl, rfl⟩ := List.cons.inj hqueue
    rw [BreadthFirst.visit, List.find?_append, Option.or_eq_none_iff] at hmissed
    have hvisit := visitSiblings_missed hmissed.1
    rw [visitParents_round hvalid hvisit]
    split
    next => exact ⟨rfl, rfl⟩
    next front' parents hparents => exact ih hvalid hparents.symm hmissed.2

/-- The search below a node that has been found, when the path goes on. -/
def goBelow (s : NodeSearch) (n : SystemModelNode) : Option SystemModelNode × NodeSearch :=
  match n with
  | .register _ _ => (none, s.below n)
  | .parent q => visitParents q { s.nextChunk with parentsToProcess := [] }

theorem visitParents_found {n : SystemModelNode} (hvalid : s.reader.notValidPath = false)
    (hfound : (paths.visit (p :: s.parentsToProcess)).find? (·.name = s.currentPathChunk) = some n) :
    (s.nextChunk.currentPathChunk = [] →
      (visitParents p s).1 = some n ∧ (visitParents p s).2.reader = s.nextChunk.reader) ∧
    (s.nextChunk.currentPathChunk ≠ [] → visitParents p s = s.goBelow n) := by
  generalize hqueue : p :: s.parentsToProcess = queue at hfound
  induction queue using BreadthFirst.visit.induct paths generalizing p s with
  | case1 => cases hqueue
  | case2 front queue ih =>
    obtain ⟨rfl, rfl⟩ := List.cons.inj hqueue
    rw [BreadthFirst.visit, List.find?_append] at hfound
    cases hhere : p.firstChild.named.find? (·.name = s.currentPathChunk) with
    | none =>
      have hvisit := visitSiblings_missed hhere
      have hbeyond := hfound
      rw [show (paths.shown p).find? (·.name = s.currentPathChunk) = none from hhere,
        Option.none_or] at hbeyond
      rw [visitParents_round hvalid hvisit]
      split
      next hparents =>
        rw [show s.parentsToProcess ++ paths.next p = [] from hparents, BreadthFirst.visit] at hbeyond
        cases hbeyond
      next front' parents hparents =>
        exact ih (s := { s with parentsToProcess := parents }) hvalid hparents.symm hbeyond
    | some m =>
      rw [show (paths.shown p).find? (·.name = s.currentPathChunk) = some m from hhere,
        Option.some_or] at hfound
      obtain rfl := Option.some.inj hfound
      obtain ⟨hlast, hmore⟩ := visitSiblings_found hhere
      constructor
      · intro hend
        obtain ⟨hnode, hreader⟩ := hlast hend
        rw [visitParents, if_neg (by rw [hvalid]; exact Bool.false_ne_true)]
        split
        next n s' hfound =>
          rw [hfound] at hnode hreader
          exact ⟨hnode, hreader⟩
        next s' hmissed =>
          rw [hmissed] at hnode
          cases hnode
      · intro hchunk
        rw [visitParents_round hvalid (hmore hchunk)]
        cases m <;> rfl

end NodeSearch

/-! ### Paths -/

def joinPath (names : List Text) : Text := ['.'].intercalate names

/-- A name that a path can spell. -/
def PlainName (name : Text) : Prop := name ≠ [] ∧ '.' ∉ name

theorem joinPath_singleton (name : Text) : joinPath [name] = name := by
  simp [joinPath, List.intercalate]

theorem joinPath_cons {name : Text} {names : List Text} (hnames : names ≠ []) :
    joinPath (name :: names) = name ++ '.' :: joinPath names := by
  obtain ⟨name', names, rfl⟩ := List.exists_cons_of_ne_nil hnames
  simp [joinPath, List.intercalate]

theorem joinPath_subset (name : Text) (names : List Text) : name ⊆ joinPath (name :: names) := by
  cases names with
  | nil =>
    rw [joinPath_singleton]
    exact List.Subset.refl name
  | cons name' names =>
    rw [joinPath_cons (List.cons_ne_nil _ _)]
    exact List.subset_append_left name _

theorem joinPath_ne_nil {names : List Text} (hnames : names ≠ [])
    (hplain : ∀ n ∈ names, PlainName n) : joinPath names ≠ [] := by
  obtain ⟨name, names, rfl⟩ := List.exists_cons_of_ne_nil hnames
  intro hnil
  have hsubset := joinPath_subset name names
  rw [hnil] at hsubset
  exact (hplain name List.mem_cons_self).1 (List.subset_nil.mp hsubset)

theorem joinPath_ne_dot {name : Text} {names : List Text} (hname : PlainName name) :
    joinPath (name :: names) ≠ ".".toList := by
  intro hdot
  have hsubset := joinPath_subset name names
  rw [hdot] at hsubset
  obtain ⟨c, cs, rfl⟩ := List.exists_cons_of_ne_nil hname.1
  obtain rfl : c = '.' := List.mem_singleton.mp (hsubset List.mem_cons_self)
  exact hname.2 List.mem_cons_self

/-- A text that is read as the given names; one dot may follow the last of them. -/
def Spells (text : Text) (names : List Text) : Prop :=
  text = [] ∧ names = [] ∨
    names ≠ [] ∧ (∀ n ∈ names, PlainName n) ∧
      (text = joinPath names ∨ text = joinPath names ++ ['.'])

theorem Spells.eq_nil {names : List Text} (h : Spells [] names) : names = [] := by
  rcases h with ⟨-, hnames⟩ | ⟨hnames, hplain, hempty | hempty⟩
  · exact hnames
  · exact absurd hempty.symm (joinPath_ne_nil hnames hplain)
  · cases (List.append_eq_nil_iff.mp hempty.symm).2

theorem Spells.singleton {name : Text} (hname : PlainName name) : Spells name [name] := by
  refine .inr ⟨List.cons_ne_nil _ _, fun n hn => ?_, .inl (joinPath_singleton name).symm⟩
  rwa [List.mem_singleton.mp hn]

theorem Spells.cons {name text : Text} {names : List Text} (hname : PlainName name)
    (h : Spells text names) : Spells (name ++ '.' :: text) (name :: names) := by
  refine .inr ⟨List.cons_ne_nil _ _, ?_⟩
  rcases h with ⟨rfl, rfl⟩ | ⟨hnames, hplain, htext⟩
  · refine ⟨fun n hn => ?_, .inr (by rw [joinPath_singleton])⟩
    rwa [List.mem_singleton.mp hn]
  · refine ⟨List.forall_mem_cons.mpr ⟨hname, hplain⟩, ?_⟩
    rw [joinPath_cons hnames]
    rcases htext with rfl | rfl
    · exact .inl rfl
    · exact .inr (by rw [List.append_assoc]; rfl)

namespace PathReader

/-- What the reader does with the rest of a path: it stops, refuses a dot, or takes a name with the dot after it. -/
theorem extractNextChunk_cases (reader : PathReader) :
    reader.rest = [] ∧ reader.extractNextChunk = ([], reader) ∨
      (reader.extractNextChunk.1 ≠ [] ∧ reader.extractNextChunk.2.notValidPath = true) ∨
      ∃ name, PlainName name ∧
        (reader.rest = name ∧ reader.extractNextChunk = (name, ⟨[], reader.notValidPath⟩) ∨
          ∃ text, reader.rest = name ++ '.' :: text ∧
            reader.extractNextChunk = (name, ⟨text, reader.notValidPath⟩)) := by
  obtain ⟨rest, notValidPath⟩ := reader
  unfold extractNextChunk
  split
  next hrest => exact .inl ⟨hrest, rfl⟩
  next hrest => exact .inr (.inl ⟨by decide, rfl⟩)
  next text hempty hdot =>
    refine .inr (.inr ⟨rest.takeWhile (· ≠ '.'), ⟨?_, ?_⟩, ?_⟩)
    · intro hnil
      cases rest with
      | nil => exact hempty rfl
      | cons c rest =>
        by_cases hc : c = '.'
        · exact hdot rest (by rw [hc])
        · simp [hc] at hnil
    · intro hmem
      exact absurd (List.mem_takeWhile_imp hmem) (by decide)
    · have hsplit := List.takeWhile_append_dropWhile (p := (· ≠ '.')) (l := rest)
      cases hdrop : rest.dropWhile (· ≠ '.') with
      | nil =>
        rw [hdrop, List.append_nil] at hsplit
        exact .inl ⟨hsplit.symm, rfl⟩
      | cons c text =>
        have hc := List.head?_dropWhile_not (· ≠ '.') rest
        rw [hdrop] at hc hsplit
        obtain rfl : c = '.' := by simpa using hc
        exact .inr ⟨text, hsplit.symm, rfl⟩

theorem extractNextChunk_name {name : Text} (hname : PlainName name) (after : Text)
    (hafter : after.takeWhile (· ≠ '.') = []) (notValidPath : Bool) :
    extractNextChunk ⟨name ++ after, notValidPath⟩ = (name, ⟨after.drop 1, notValidPath⟩) := by
  obtain ⟨hne, hdot⟩ := hname
  have hplain : ∀ c ∈ name, decide (c ≠ '.') = true := by
    intro c hc
    exact decide_eq_true (ne_of_mem_of_not_mem hc hdot)
  have hdrop : after.dropWhile (· ≠ '.') = after := by
    have hsplit := List.takeWhile_append_dropWhile (p := (· ≠ '.')) (l := after)
    rwa [hafter, List.nil_append] at hsplit
  unfold extractNextChunk
  split
  next hrest => exact absurd (List.append_eq_nil_iff.mp hrest).1 hne
  next text hrest =>
    obtain ⟨c, cs, rfl⟩ := List.exists_cons_of_ne_nil hne
    obtain rfl : c = '.' := (List.cons.inj hrest).1
    exact absurd List.mem_cons_self hdot
  next =>
    rw [List.takeWhile_append_of_pos hplain, List.dropWhile_append_of_pos hplain, hafter, hdrop,
      List.append_nil]

end PathReader

namespace NodeSearch

open PathReader ParentNode

variable {p : ParentNode} {s : NodeSearch}

theorem nextChunk_end (hrest : s.reader.rest = []) : s.nextChunk = { s with currentPathChunk := [] } := by
  obtain ⟨chunk, ⟨rest, notValidPath⟩, parents⟩ := s
  obtain rfl : rest = [] := hrest
  rfl

theorem nextChunk_names {name : Text} {names : List Text} (hplain : ∀ n ∈ name :: names, PlainName n)
    (hrest : s.reader.rest = joinPath (name :: names)) :
    s.nextChunk = { s with currentPathChunk := name,
                           reader := ⟨joinPath names, s.reader.notValidPath⟩ } := by
  obtain ⟨chunk, ⟨rest, notValidPath⟩, parents⟩ := s
  obtain rfl : rest = joinPath (name :: names) := hrest
  have hname := hplain name List.mem_cons_self
  have hread : extractNextChunk ⟨joinPath (name :: names), notValidPath⟩ =
      (name, ⟨joinPath names, notValidPath⟩) := by
    cases names with
    | nil =>
      have hread := extractNextChunk_name hname [] rfl notValidPath
      rw [joinPath_singleton]
      rwa [List.append_nil] at hread
    | cons name' names =>
      rw [joinPath_cons (List.cons_ne_nil _ _)]
      exact extractNextChunk_name hname _ (by simp) notValidPath
  rw [nextChunk, hread]

theorem visitParents_names {name : Text} {names : List Text} (hplain : ∀ n ∈ names, PlainName n)
    (hvalid : s.reader.notValidPath = false) (hparents : s.parentsToProcess = [])
    (hname : s.currentPathChunk = name) (hrest : s.reader.rest = joinPath names) :
    (visitParents p s).1 = p.descend (name :: names) ∧
      (visitParents p s).2.reader.notValidPath = false := by
  induction names generalizing p s name with
  | nil =>
    cases hlevel : p.level.find? (·.name = name) with
    | none =>
      have hmissed := visitParents_missed (p := p) hvalid (by rwa [hparents, hname])
      rw [descend_missed hlevel, hmissed.2]
      exact ⟨hmissed.1, hvalid⟩
    | some n =>
      have hend := nextChunk_end hrest
      obtain ⟨hlast, -⟩ := visitParents_found (p := p) (n := n) hvalid (by rwa [hparents, hname])
      obtain ⟨hnode, hreader⟩ := hlast (by rw [hend])
      rw [descend_last hlevel, hreader, hend]
      exact ⟨hnode, hvalid⟩
  | cons name' names ih =>
    cases hlevel : p.level.find? (·.name = name) with
    | none =>
      have hmissed := visitParents_missed (p := p) hvalid (by rwa [hparents, hname])
      rw [descend_missed hlevel, hmissed.2]
      exact ⟨hmissed.1, hvalid⟩
    | some n =>
      have hnext := nextChunk_names hplain hrest
      obtain ⟨-, hmore⟩ := visitParents_found (p := p) (n := n) hvalid (by rwa [hparents, hname])
      rw [hmore (by rw [hnext]; exact (hplain name' List.mem_cons_self).1)]
      cases n with
      | register id name'' =>
        rw [descend_register (List.cons_ne_nil _ _) hlevel]
        refine ⟨rfl, ?_⟩
        change s.nextChunk.reader.notValidPath = false
        rw [hnext]
        exact hvalid
      | parent q =>
        rw [descend_parent (List.cons_ne_nil _ _) hlevel]
        apply ih (fun n hn => hplain n (List.mem_cons_of_mem _ hn))
        · rw [hnext]
          exact hvalid
        · rfl
        · rw [hnext]
        · rw [hnext]

end NodeSearch

/-- A path of plain names leads to the node that is reached level by level. -/
theorem ParentNode.findNode_joinPath {p : ParentNode} {names : List Text} (hnames : names ≠ [])
    (hplain : ∀ n ∈ names, PlainName n) : p.findNode (joinPath names) = p.descend names := by
  obtain ⟨name, names, rfl⟩ := List.exists_cons_of_ne_nil hnames
  have hstart := NodeSearch.nextChunk_names (s := ⟨[], ⟨joinPath (name :: names), false⟩, []⟩)
    hplain rfl
  obtain ⟨hfound, hvalid⟩ := NodeSearch.visitParents_names (p := p)
    (s := ⟨name, ⟨joinPath names, false⟩, []⟩)
    (fun n hn => hplain n (List.mem_cons_of_mem _ hn)) rfl rfl rfl rfl
  rw [findNode, if_neg (joinPath_ne_dot (hplain name List.mem_cons_self))]
  simp only [hstart]
  rw [hvalid, if_neg Bool.false_ne_true, hfound]

/-! ### Soundness -/

namespace NodeSearch

open PathReader ParentNode

variable {p : ParentNode} {s : NodeSearch}

/-- What the search finds is reached level by level along what it has read. -/
theorem visitParents_sound {n : SystemModelNode} (hvalid : s.reader.notValidPath = false)
    (hparents : s.parentsToProcess = []) (hfound : (visitParents p s).1 = some n) :
    ∃ names, Spells s.reader.rest names ∧ p.descend (s.currentPathChunk :: names) = some n := by
  generalize hlength : s.reader.rest.length = length
  induction length using Nat.strong_induction_on generalizing p s with
  | _ length ih =>
    cases hlevel : p.level.find? (·.name = s.currentPathChunk) with
    | none =>
      have hmissed := visitParents_missed (p := p) hvalid (by rwa [hparents])
      rw [hmissed.1] at hfound
      cases hfound
    | some m =>
      obtain ⟨hlast, hmore⟩ := visitParents_found (p := p) (n := m) hvalid (by rwa [hparents])
      -- a chunk is left to read: the search goes on below a parent node
      have hbelow : ∀ {chunk text : Text}, chunk ≠ [] → text.length < s.reader.rest.length →
          s.reader.extractNextChunk = (chunk, ⟨text, false⟩) →
          ∃ names, Spells text names ∧ p.descend (s.currentPathChunk :: chunk :: names) = some n := by
        intro chunk text hchunk hshorter hread
        have hnext : s.nextChunk = { s with currentPathChunk := chunk, reader := ⟨text, false⟩ } := by
          rw [nextChunk, hread]
        rw [hmore (by rw [hnext]; exact hchunk)] at hfound
        cases m with
        | register id name => cases hfound
        | parent q =>
          simp only [goBelow, hnext] at hfound
          obtain ⟨names, hspells, hdescend⟩ :=
            ih text.length (hlength ▸ hshorter) rfl rfl hfound rfl
          refine ⟨names, hspells, ?_⟩
          rwa [descend_parent (List.cons_ne_nil _ _) hlevel]
      rcases s.reader.extractNextChunk_cases with ⟨hend, hread⟩ | ⟨hchunk, hrefused⟩ |
        ⟨name, hname, ⟨hrest, hread⟩ | ⟨text, hrest, hread⟩⟩
      · obtain ⟨hnode, -⟩ := hlast (by rw [nextChunk, hread])
        rw [hnode] at hfound
        exact ⟨[], .inl ⟨hend, rfl⟩, (descend_last hlevel).trans hfound⟩
      · rw [hmore hchunk] at hfound
        cases m with
        | register id name => cases hfound
        | parent q =>
          rw [goBelow, visitParents, if_pos (by exact hrefused)] at hfound
          cases hfound
      · rw [hvalid] at hread
        have hshorter : ([] : Text).length < s.reader.rest.length := by
          rw [hrest]
          exact List.length_pos_iff.mpr hname.1
        obtain ⟨names, hspells, hdescend⟩ := hbelow hname.1 hshorter hread
        rw [hspells.eq_nil] at hdescend
        refine ⟨[name], ?_, hdescend⟩
        rw [hrest]
        exact Spells.singleton hname
      · rw [hvalid] at hread
        have hshorter : text.length < s.reader.rest.length := by
          rw [hrest, List.length_append, List.length_cons]
          omega
        obtain ⟨names, hspells, hdescend⟩ := hbelow hname.1 hshorter hread
        refine ⟨name :: names, ?_, hdescend⟩
        rw [hrest]
        exact hspells.cons hname

end NodeSearch

/-- A node that a path leads to is reached level by level along the names of the path. -/
theorem ParentNode.findNode_sound {p : ParentNode} {path : Text} {n : SystemModelNode}
    (hfound : p.findNode path = some n) :
    path = ".".toList ∧ n = .parent p ∨
      ∃ names, names ≠ [] ∧ p.descend names = some n ∧
        (path = joinPath names ∨ path = joinPath names ++ ['.']) := by
  rw [findNode] at hfound
  split at hfound
  next hdot => exact .inl ⟨hdot, (Option.some.inj hfound).symm⟩
  next =>
    right
    simp only at hfound
    split at hfound
    · cases hfound
    next hfinal =>
      rcases (PathReader.mk path false).extractNextChunk_cases with ⟨hempty, hread⟩ |
        ⟨-, hrefused⟩ | ⟨name, hname, ⟨hrest, hread⟩ | ⟨text, hrest, hread⟩⟩
      · rw [NodeSearch.nextChunk, hread] at hfound
        obtain ⟨names, hspells, hdescend⟩ := NodeSearch.visitParents_sound (s := ⟨[], ⟨path, false⟩, []⟩)
          rfl rfl hfound
        obtain rfl : path = [] := hempty
        rw [hspells.eq_nil] at hdescend
        exact ⟨[[]], List.cons_ne_nil _ _, hdescend, .inl rfl⟩
      · rw [NodeSearch.visitParents, if_pos (by exact hrefused)] at hfound
        cases hfound
      · rw [NodeSearch.nextChunk, hread] at hfound
        obtain ⟨names, hspells, hdescend⟩ := NodeSearch.visitParents_sound (s := ⟨name, ⟨[], false⟩, []⟩)
          rfl rfl hfound
        rw [hspells.eq_nil] at hdescend
        obtain rfl : path = name := hrest
        exact ⟨[path], List.cons_ne_nil _ _, hdescend, .inl (joinPath_singleton path).symm⟩
      · rw [NodeSearch.nextChunk, hread] at hfound
        obtain ⟨names, hspells, hdescend⟩ := NodeSearch.visitParents_sound
          (s := ⟨name, ⟨text, false⟩, []⟩) rfl rfl hfound
        obtain rfl : path = name ++ '.' :: text := hrest
        rcases hspells.cons hname with ⟨hnil, -⟩ | ⟨hnames, -, hpath⟩
        · cases (List.append_eq_nil_iff.mp hnil).2
        · exact ⟨name :: names, hnames, hdescend, hpath⟩

end Mast
