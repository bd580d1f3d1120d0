import Mast.Path.NamesChecker
import Mathlib.Data.List.Nodup

/-!
# Lookups in checked trees

In a tree that the names checker accepts no two registers have the same logical path. When no parent node shares its logical path with another node either, a parent node sees one node of each name at most, and the greedy search finds the node that a path is the logical path of.
-/

namespace Mast

open BinaryVector (Text)

/-! ### Logical paths -/

namespace Siblings

/-- The nodes that are not ignored in paths with the names that lead to them, below given names. -/
def logicalPaths (above : List Text) : Siblings → List (List Text × SystemModelNode)
  | .none => []
  | .register id name next => (above ++ [name], .register id name) :: next.logicalPaths above
  | .parent fields firstChild next =>
    if fields.ignoreForNodePath then firstChild.logicalPaths above ++ next.logicalPaths above
    else
      (above ++ [fields.name], .parent ⟨fields, firstChild⟩) ::
        firstChild.logicalPaths (above ++ [fields.name]) ++ next.logicalPaths above

def parentNodes : Siblings → List ParentNode
  | .none => []
  | .register _ _ next => next.parentNodes
  | .parent fields firstChild next =>
    ⟨fields, firstChild⟩ :: firstChild.parentNodes ++ next.parentNodes

end Siblings

def SystemModelNode.isRegister : SystemModelNode → Bool
  | .register _ _ => true
  | .parent _ => false

namespace ParentNode

def parentNodes (p : ParentNode) : List ParentNode := p :: p.firstChild.parentNodes

/-- The names that every logical path of the tree begins with. -/
def above (p : ParentNode) : List Text := if p.ignoreForNodePath then [] else [p.name]

def logicalPaths (root : ParentNode) : List (List Text × SystemModelNode) :=
  root.firstChild.logicalPaths root.above

/-- No parent node that is not ignored has the logical path of another node. -/
def ParentsApart (root : ParentNode) : Prop :=
  root.logicalPaths.Pairwise fun a b => a.1 = b.1 → a.2.isRegister ∧ b.2.isRegister

/-- The names of the nodes that are not ignored, from below a parent node down to a node. -/
inductive Descendant : ParentNode → List Text → SystemModelNode → Prop
  | sees {p : ParentNode} {n : SystemModelNode} (h : p.Sees n) : Descendant p [n.name] n
  | inside {p q : ParentNode} {names : List Text} {n : SystemModelNode} (hq : p.Sees (.parent q))
      (h : Descendant q names n) : Descendant p (q.name :: names) n

theorem Descendant.names_ne_nil {p : ParentNode} {names : List Text} {n : SystemModelNode}
    (h : p.Descendant names n) : names ≠ [] := by
  cases h <;> exact List.cons_ne_nil _ _

theorem descendant_of_descend {p : ParentNode} {names : List Text} {n : SystemModelNode}
    (hnames : names ≠ []) (hdescend : p.descend names = some n) : p.Descendant names n := by
  induction names generalizing p with
  | nil => exact absurd rfl hnames
  | cons name names ih =>
    cases hlevel : p.level.find? (·.name = name) with
    | none =>
      rw [descend_missed hlevel] at hdescend
      cases hdescend
    | some m =>
      have hsees := mem_level.mp (List.mem_of_find?_eq_some hlevel)
      have hfound := List.find?_some hlevel
      obtain rfl : m.name = name := of_decide_eq_true hfound
      by_cases hlast : names = []
      · subst hlast
        rw [descend_last hlevel] at hdescend
        obtain rfl := Option.some.inj hdescend
        exact .sees hsees
      · cases m with
        | register id name =>
          rw [descend_register hlast hlevel] at hdescend
          cases hdescend
        | parent q =>
          rw [descend_parent hlast hlevel] at hdescend
          exact .inside hsees (ih hlast hdescend)

end ParentNode

/-! ### The nodes of a name are unique -/

namespace Siblings

variable {siblings : Siblings} {above : List Text}

theorem logicalPaths_of_named {n : SystemModelNode} (hn : n ∈ siblings.named) :
    (above ++ [n.name], n) ∈ siblings.logicalPaths above := by
  induction siblings with
  | none => cases hn
  | register id name next ih =>
    rcases List.mem_cons.mp hn with rfl | hn
    · exact List.mem_cons_self
    · exact List.mem_cons_of_mem _ (ih hn)
  | parent fields firstChild next _ ih =>
    rw [named] at hn
    rw [logicalPaths]
    by_cases hignored : fields.ignoreForNodePath
    · rw [if_pos hignored] at hn ⊢
      exact List.mem_append_right _ (ih hn)
    · rw [if_neg hignored] at hn ⊢
      rcases List.mem_cons.mp hn with rfl | hn
      · exact List.mem_cons_self
      · exact List.mem_append_right _ (ih hn)

theorem logicalPaths_of_transparent {q : ParentNode} (hq : q ∈ siblings.transparent) :
    (q.firstChild.logicalPaths above).Sublist (siblings.logicalPaths above) := by
  induction siblings with
  | none => cases hq
  | register id name next ih => exact (ih hq).cons _
  | parent fields firstChild next _ ih =>
    rw [transparent] at hq
    rw [logicalPaths]
    by_cases hignored : fields.ignoreForNodePath
    · rw [if_pos hignored] at hq ⊢
      rcases List.mem_cons.mp hq with rfl | hq
      · exact List.sublist_append_left _ _
      · exact (ih hq).trans (List.sublist_append_right _ _)
    · rw [if_neg hignored] at hq ⊢
      exact (ih hq).trans (List.sublist_append_right _ _)

theorem logicalPaths_below_named {q : ParentNode} (hq : .parent q ∈ siblings.named) :
    (q.firstChild.logicalPaths (above ++ [q.name])).Sublist (siblings.logicalPaths above) := by
  induction siblings with
  | none => cases hq
  | register id name next ih =>
    rcases List.mem_cons.mp hq with hq | hq
    · cases hq
    · exact (ih hq).cons _
  | parent fields firstChild next _ ih =>
    rw [named] at hq
    rw [logicalPaths]
    by_cases hignored : fields.ignoreForNodePath
    · rw [if_pos hignored] at hq ⊢
      exact (ih hq).trans (List.sublist_append_right _ _)
    · rw [if_neg hignored] at hq ⊢
      rcases List.mem_cons.mp hq with hq | hq
      · obtain rfl := SystemModelNode.parent.inj hq
        exact ((List.sublist_cons_self _ _).trans (List.sublist_append_left _ _))
      · exact (ih hq).trans (List.sublist_append_right _ _)

theorem exists_logicalPaths_of_parentNodes {p : ParentNode} (hp : p ∈ siblings.parentNodes)
    (above : List Text) :
    ∃ above', (p.firstChild.logicalPaths above').Sublist (siblings.logicalPaths above) := by
  induction siblings generalizing above with
  | none => cases hp
  | register id name next ih =>
    obtain ⟨above', hsub⟩ := ih hp above
    exact ⟨above', hsub.cons _⟩
  | parent fields firstChild next ihChild ihNext =>
    rw [parentNodes, List.cons_append, List.mem_cons, List.mem_append] at hp
    rw [logicalPaths]
    by_cases hignored : fields.ignoreForNodePath
    · rw [if_pos hignored]
      rcases hp with rfl | hp | hp
      · exact ⟨above, List.sublist_append_left _ _⟩
      · obtain ⟨above', hsub⟩ := ihChild hp above
        exact ⟨above', hsub.trans (List.sublist_append_left _ _)⟩
      · obtain ⟨above', hsub⟩ := ihNext hp above
        exact ⟨above', hsub.trans (List.sublist_append_right _ _)⟩
    · rw [if_neg hignored]
      rcases hp with rfl | hp | hp
      · exact ⟨above ++ [fields.name],
          (List.sublist_cons_self _ _).trans (List.sublist_append_left _ _)⟩
      · obtain ⟨above', hsub⟩ := ihChild hp (above ++ [fields.name])
        exact ⟨above', (hsub.cons _).trans (List.sublist_append_left _ _)⟩
      · obtain ⟨above', hsub⟩ := ihNext hp above
        exact ⟨above', hsub.trans (List.sublist_append_right _ _)⟩

end Siblings

namespace ParentNode

/-- No two nodes below a parent node have the same logical path. -/
def PathsApart (p : ParentNode) : Prop :=
  ∃ above, ((p.firstChild.logicalPaths above).map Prod.fst).Nodup

variable {p q : ParentNode} {n : SystemModelNode}

theorem Sees.logicalPaths (h : p.Sees n) (above : List Text) :
    (above ++ [n.name], n) ∈ p.firstChild.logicalPaths above := by
  induction h with
  | here hshown => exact Siblings.logicalPaths_of_named hshown
  | beyond hnext _ ih => exact (Siblings.logicalPaths_of_transparent hnext).subset ih

theorem Sees.logicalPaths_below (h : p.Sees (.parent q)) (above : List Text) :
    (q.firstChild.logicalPaths (above ++ [q.name])).Sublist (p.firstChild.logicalPaths above) := by
  generalize hm : SystemModelNode.parent q = m at h
  induction h with
  | here hshown =>
    subst hm
    exact Siblings.logicalPaths_below_named hshown
  | beyond hnext _ ih => exact (ih hm).trans (Siblings.logicalPaths_of_transparent hnext)

theorem PathsApart.below (hapart : p.PathsApart) (hq : p.Sees (.parent q)) : q.PathsApart := by
  obtain ⟨above, hnodup⟩ := hapart
  exact ⟨above ++ [q.name], hnodup.sublist ((hq.logicalPaths_below above).map _)⟩

theorem PathsApart.unique {m : SystemModelNode} (hapart : p.PathsApart) (hn : p.Sees n)
    (hm : p.Sees m) (hname : m.name = n.name) : m = n := by
  obtain ⟨above, hnodup⟩ := hapart
  have hsame := List.inj_on_of_nodup_map hnodup (hm.logicalPaths above) (hn.logicalPaths above)
    (by rw [hname])
  exact (Prod.mk.inj hsame).2

/-- The first node with the name of a node that is seen is that node. -/
theorem PathsApart.level_find (hapart : p.PathsApart) (hn : p.Sees n) :
    p.level.find? (·.name = n.name) = some n := by
  cases hlevel : p.level.find? (·.name = n.name) with
  | none =>
    have hnone := List.find?_eq_none.mp hlevel n (mem_level.mpr hn)
    simp at hnone
  | some m =>
    have hm := mem_level.mp (List.mem_of_find?_eq_some hlevel)
    have hname := List.find?_some hlevel
    rw [hapart.unique hn hm (of_decide_eq_true hname)]

theorem PathsApart.descend_eq {names : List Text} (hapart : p.PathsApart)
    (h : p.Descendant names n) : p.descend names = some n := by
  induction h with
  | sees hn => exact descend_last (hapart.level_find hn)
  | @inside p q names n hq h ih =>
    have hlevel : p.level.find? (·.name = q.name) = some (.parent q) := hapart.level_find hq
    rw [descend_parent h.names_ne_nil hlevel]
    exact ih (hapart.below hq)

end ParentNode

/-! ### What the checker has compared -/

theorem joinPath_append_singleton (above : List Text) (name : Text) :
    joinPath (above ++ [name]) = above.flatMap (· ++ ['.']) ++ name := by
  induction above with
  | nil => exact joinPath_singleton name
  | cons first above ih =>
    rw [List.cons_append, joinPath_cons (List.append_ne_nil_of_right_ne_nil _ (List.cons_ne_nil _ _)),
      ih, List.flatMap_cons]
    simp

/-- The texts of the logical paths of registers. -/
def leafTexts (paths : List (List Text × SystemModelNode)) : List Text :=
  (paths.filter (·.2.isRegister)).map (joinPath ·.1)

namespace NamesChecker

variable {c : NamesChecker}

/-- A report changes nothing but the reports. -/
structure Reports (c c' : NamesChecker) : Prop where
  currentPathNodes : c'.currentPathNodes = c.currentPathNodes
  currentLogicalPath : c'.currentLogicalPath = c.currentLogicalPath
  leafPaths : c'.leafPaths = c.leafPaths
  errorsCount : c.errorsCount ≤ c'.errorsCount

theorem Reports.refl (c : NamesChecker) : c.Reports c := ⟨rfl, rfl, rfl, Nat.le_refl _⟩

theorem report_reports (severity : Severity) (node : Nat) (message : String) :
    c.Reports (c.report severity node message) := by
  refine ⟨rfl, rfl, rfl, ?_⟩
  rw [errorsCount, errorsCount, report, List.countP_append]
  exact Nat.le_add_right _ _

theorem report_error_ne_zero (node : Nat) (message : String) :
    (c.report .error node message).errorsCount ≠ 0 := by
  simp [errorsCount, report]

theorem reportSiblingName_reports (id : Nat) (name : Text) (isParent ignored : Bool)
    (names : SiblingNames) : c.Reports (c.reportSiblingName id name isParent ignored names) := by
  unfold reportSiblingName
  split_ifs <;> first | exact report_reports _ _ _ | exact .refl c

/-- The checker once it has visited siblings. -/
structure Visited (siblings : Siblings) (c c' : NamesChecker) : Prop where
  currentPathNodes : c'.currentPathNodes = c.currentPathNodes
  currentLogicalPath : c'.currentLogicalPath = c.currentLogicalPath
  errorsCount : c.errorsCount ≤ c'.errorsCount
  leafPaths : c'.leafPaths.map Prod.fst =
    c.leafPaths.map Prod.fst ++ leafTexts (siblings.logicalPaths c.currentPathNodes)
  apart : c'.errorsCount = 0 → (c.leafPaths.map Prod.fst).Nodup → (c'.leafPaths.map Prod.fst).Nodup

/-- The path text is the one `RebuildLogicalPath` makes. -/
def PathRebuilt (c : NamesChecker) : Prop :=
  c.currentLogicalPath = c.currentPathNodes.flatMap (· ++ ['.'])

theorem reportLeafPath_reports (id : Nat) (leafPath : Text) (hasReportedAnError : Bool) :
    c.Reports (c.reportLeafPath id leafPath hasReportedAnError) := by
  simp only [reportLeafPath]
  split
  · exact .refl c
  · split
    · exact .refl c
    · exact report_reports _ _ _
    · exact report_reports _ _ _

/-- A logical path that has been seen before is an error, unless one has been reported already. -/
theorem reportLeafPath_new {id : Nat} {leafPath : Text}
    (herrors : (c.reportLeafPath id leafPath false).errorsCount = 0) :
    leafPath ∉ c.leafPaths.map Prod.fst := by
  intro hmem
  obtain ⟨⟨path, other⟩, hseen, rfl⟩ := List.mem_map.mp hmem
  have hsame : (path, other) ∈ c.leafPaths.filter (·.1 = path) :=
    List.mem_filter.mpr ⟨hseen, decide_eq_true rfl⟩
  simp only [reportLeafPath, Bool.false_eq_true, if_false] at herrors
  split at herrors
  next hnone => rw [hnone] at hsame; cases hsame
  next => exact report_error_ne_zero _ _ herrors
  next => exact report_error_ne_zero _ _ herrors

theorem checkLeaf_visited {c' : NamesChecker} {reported : Bool} (id : Nat) (name : Text)
    (hrebuilt : c.PathRebuilt) (hreports : c.Reports c')
    (hreported : reported = true → c'.errorsCount ≠ 0) :
    Visited (.register id name .none) c (c'.checkLeaf id name reported) := by
  have hleaf := reportLeafPath_reports (c := c') id (c'.currentLogicalPath ++ name) reported
  have hpath : c'.currentLogicalPath ++ name = joinPath (c.currentPathNodes ++ [name]) := by
    rw [hreports.currentLogicalPath, hrebuilt, joinPath_append_singleton]
  refine ⟨hleaf.currentPathNodes.trans hreports.currentPathNodes,
    hleaf.currentLogicalPath.trans hreports.currentLogicalPath,
    hreports.errorsCount.trans hleaf.errorsCount, ?_, fun herrors hnodup => ?_⟩
  · change (_ ++ [_]).map Prod.fst = _
    rw [List.map_append, hleaf.leafPaths, hreports.leafPaths]
    simp [leafTexts, Siblings.logicalPaths, SystemModelNode.isRegister, hpath]
  · change ((_ ++ [_]).map Prod.fst).Nodup
    have hbefore := Nat.eq_zero_of_le_zero (hleaf.errorsCount.trans (Nat.le_of_eq herrors))
    obtain rfl : reported = false := Bool.eq_false_iff.mpr fun h => hreported h hbefore
    have hnew := reportLeafPath_new herrors
    rw [hreports.leafPaths] at hnew
    rw [List.map_append, hleaf.leafPaths, hreports.leafPaths]
    exact List.nodup_append_comm.mp (List.nodup_cons.mpr ⟨hnew, hnodup⟩)

theorem pushParentPath_rebuilt (fields : ParentFields) (hrebuilt : c.PathRebuilt) :
    (c.pushParentPath fields).PathRebuilt := by
  unfold pushParentPath
  split
  · exact hrebuilt
  · rfl

theorem Visited.trans {c' c'' : NamesChecker} {siblings siblings' siblings'' : Siblings}
    (hpaths : ∀ above, leafTexts (siblings''.logicalPaths above) =
      leafTexts (siblings.logicalPaths above) ++ leafTexts (siblings'.logicalPaths above))
    (h : Visited siblings c c') (h' : Visited siblings' c' c'') : Visited siblings'' c c'' where
  currentPathNodes := h'.currentPathNodes.trans h.currentPathNodes
  currentLogicalPath := h'.currentLogicalPath.trans h.currentLogicalPath
  errorsCount := h.errorsCount.trans h'.errorsCount
  leafPaths := by
    rw [h'.leafPaths, h.leafPaths, h.currentPathNodes, hpaths, List.append_assoc]
  apart herrors hnodup := by
    have hzero := Nat.eq_zero_of_le_zero (h'.errorsCount.trans (Nat.le_of_eq herrors))
    exact h'.apart herrors (h.apart hzero hnodup)

theorem leafTexts_append (paths paths' : List (List Text × SystemModelNode)) :
    leafTexts (paths ++ paths') = leafTexts paths ++ leafTexts paths' := by
  simp [leafTexts]

/-- The visit of the children of a parent node, with its name on the stack meanwhile. -/
theorem visited_inside {fields : ParentFields} {firstChild : Siblings} {c' inner : NamesChecker}
    (hrebuilt : c.PathRebuilt) (hreports : c.Reports c')
    (hinner : Visited firstChild (c'.pushParentPath fields) inner) :
    Visited (.parent fields firstChild .none) c (inner.popParentPath fields) := by
  obtain ⟨hnodes, hlogical, herrors, hleaves, hapart⟩ := hinner
  by_cases hignored : fields.ignoreForNodePath
  · rw [pushParentPath, if_pos hignored] at hnodes hlogical herrors hleaves hapart
    rw [popParentPath, if_pos hignored]
    refine ⟨hnodes.trans hreports.currentPathNodes, hlogical.trans hreports.currentLogicalPath,
      hreports.errorsCount.trans herrors, ?_, fun hzero hnodup => hapart hzero ?_⟩
    · rw [hleaves, hreports.leafPaths, hreports.currentPathNodes, Siblings.logicalPaths,
        if_pos hignored, Siblings.logicalPaths, List.append_nil]
    · rwa [hreports.leafPaths]
  · rw [pushParentPath, if_neg hignored] at hnodes hlogical herrors hleaves hapart
    rw [popParentPath, if_neg hignored]
    have hstack : inner.currentPathNodes.dropLast = c.currentPathNodes := by
      rw [hnodes]
      exact List.dropLast_concat.trans hreports.currentPathNodes
    refine ⟨hstack, ?_, hreports.errorsCount.trans herrors, ?_, fun hzero hnodup => hapart hzero ?_⟩
    · change inner.currentPathNodes.dropLast.flatMap (· ++ ['.']) = _
      rw [hstack, hrebuilt]
    · change inner.leafPaths.map Prod.fst = _
      rw [hleaves, Siblings.logicalPaths, if_neg hignored, Siblings.logicalPaths, List.append_nil]
      change c'.leafPaths.map Prod.fst ++
        leafTexts (firstChild.logicalPaths (c'.currentPathNodes ++ [fields.name])) = _
      rw [hreports.leafPaths, hreports.currentPathNodes]
      rfl
    · change (c'.leafPaths.map Prod.fst).Nodup
      rwa [hreports.leafPaths]

/-- The checker compares the logical paths of all registers. -/
theorem checkSiblings_visited (siblings : Siblings) (names : SiblingNames)
    (hrebuilt : c.PathRebuilt) : Visited siblings c (checkSiblings siblings names c) := by
  induction siblings generalizing names c with
  | none => exact ⟨rfl, rfl, Nat.le_refl _, (List.append_nil _).symm, fun _ h => h⟩
  | register id name next ih =>
    have hreports := reportSiblingName_reports (c := c) id name false false names
    have hreported : decide ((c.reportSiblingName id name false false names).errorsCount ≠
        c.errorsCount) = true → (c.reportSiblingName id name false false names).errorsCount ≠ 0 := by
      intro h
      have hcount := hreports.errorsCount
      have hne := of_decide_eq_true h
      omega
    have hleaf := checkLeaf_visited id name hrebuilt hreports hreported
    refine hleaf.trans (fun above => ?_) (ih _ ?_)
    · rw [← leafTexts_append]
      rfl
    · rw [PathRebuilt, hleaf.currentLogicalPath, hleaf.currentPathNodes]
      exact hrebuilt
  | parent fields firstChild next ihChild ihNext =>
    have hreports := reportSiblingName_reports (c := c) fields.id fields.name true
      fields.ignoreForNodePath names
    have hchecked : (c.reportSiblingName fields.id fields.name true fields.ignoreForNodePath
        names).PathRebuilt := by
      rw [PathRebuilt, hreports.currentLogicalPath, hreports.currentPathNodes]
      exact hrebuilt
    have hinside := visited_inside hrebuilt hreports
      (ihChild ⟨[], []⟩ (pushParentPath_rebuilt fields hchecked))
    refine hinside.trans (fun above => ?_) (ihNext _ ?_)
    · rw [← leafTexts_append, Siblings.logicalPaths, Siblings.logicalPaths]
      split_ifs
      · rw [Siblings.logicalPaths, List.append_nil]
      · rw [Siblings.logicalPaths, List.append_nil]
    · rw [PathRebuilt, hinside.currentLogicalPath, hinside.currentPathNodes]
      exact hrebuilt

/-- The registers of an accepted tree have different logical paths. -/
theorem Accepts.leaves_apart {root : ParentNode} (haccepts : Accepts root) :
    (leafTexts root.logicalPaths).Nodup := by
  have hstart : start.PathRebuilt := rfl
  have hvisited := visited_inside hstart (Reports.refl start)
    (checkSiblings_visited root.firstChild ⟨[], []⟩
      (pushParentPath_rebuilt root.toParentFields hstart))
  have hnodup := hvisited.apart haccepts List.nodup_nil
  rw [hvisited.leafPaths] at hnodup
  change (leafTexts ((Siblings.parent root.toParentFields root.firstChild .none).logicalPaths
    [])).Nodup at hnodup
  rw [Siblings.logicalPaths] at hnodup
  rw [ParentNode.logicalPaths, ParentNode.above]
  split_ifs at hnodup ⊢
  · rwa [Siblings.logicalPaths, List.append_nil] at hnodup
  · rwa [Siblings.logicalPaths, List.append_nil] at hnodup

end NamesChecker

namespace ParentNode

variable {root p : ParentNode}

/-- In an accepted tree whose parent nodes are apart no two nodes have the same logical path. -/
theorem logicalPaths_nodup (haccepts : NamesChecker.Accepts root) (hapart : root.ParentsApart) :
    (root.logicalPaths.map Prod.fst).Nodup := by
  have hleaves := haccepts.leaves_apart
  rw [leafTexts, List.Nodup, List.pairwise_map, List.pairwise_filter] at hleaves
  rw [List.Nodup, List.pairwise_map]
  refine List.Pairwise.imp₂ ?_ hapart hleaves
  intro a b hregisters hdifferent hsame
  have ⟨ha, hb⟩ := hregisters hsame
  exact hdifferent ha hb (by rw [hsame])

theorem pathsApart (haccepts : NamesChecker.Accepts root) (hapart : root.ParentsApart)
    (hp : p ∈ root.parentNodes) : p.PathsApart := by
  have hnodup := logicalPaths_nodup haccepts hapart
  rcases List.mem_cons.mp hp with rfl | hp
  · exact ⟨_, hnodup⟩
  · obtain ⟨above, hsub⟩ := Siblings.exists_logicalPaths_of_parentNodes hp root.above
    exact ⟨above, hnodup.sublist (hsub.map _)⟩

end ParentNode

end Mast
