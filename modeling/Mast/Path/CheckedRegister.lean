import Mast.Path.Checked

/-!
# Register lookups in checked trees

`FindRegister` looks the parent node up by `FindNode`, then searches a register depth first through the parent nodes that are ignored in paths. Without aliases it finds a register that the parent node sees, so in a checked tree both lookups agree on the logical path of a register.
-/

namespace Mast

open BinaryVector (Text)

/-! ### The register name of a path -/

namespace Utility

theorem backToken_append {front name : Text} (hname : '.' ∉ name) :
    backToken (front ++ '.' :: name) '.' = name := by
  have hplain : ∀ c ∈ name.reverse, decide (c ≠ '.') = true := by
    intro c hc
    exact decide_eq_true (ne_of_mem_of_not_mem (List.mem_reverse.mp hc) hname)
  rw [backToken, List.reverse_append, List.reverse_cons, List.append_assoc,
    List.takeWhile_append_of_pos hplain]
  simp

theorem frontTokens_append {front name : Text} (hname : '.' ∉ name) :
    frontTokens (front ++ '.' :: name) '.' = front := by
  have hplain : ∀ c ∈ name.reverse, decide (c ≠ '.') = true := by
    intro c hc
    exact decide_eq_true (ne_of_mem_of_not_mem (List.mem_reverse.mp hc) hname)
  rw [frontTokens, if_pos (by simp), List.reverse_append, List.reverse_cons, List.append_assoc,
    List.dropWhile_append_of_pos hplain]
  simp

theorem backToken_plain {name : Text} (hname : '.' ∉ name) : backToken name '.' = name := by
  rw [backToken, List.takeWhile_eq_self_iff.mpr, List.reverse_reverse]
  intro c hc
  exact decide_eq_true (ne_of_mem_of_not_mem (List.mem_reverse.mp hc) hname)

theorem frontTokens_plain {name : Text} (hname : '.' ∉ name) : frontTokens name '.' = name :=
  if_neg hname

end Utility

/-! ### The registers a parent node sees -/

namespace Siblings

variable {siblings : Siblings} {name : Text}

theorem directRegister_sound {r : RegisterInterface}
    (hfound : siblings.directRegister name = some r) :
    ∃ id, r = .register id name ∧ .register id name ∈ siblings.named := by
  induction siblings with
  | none => cases hfound
  | register id name' next ih =>
    rw [directRegister] at hfound
    split at hfound
    next hname =>
      subst hname
      exact ⟨id, (Option.some.inj hfound).symm, List.mem_cons_self⟩
    next =>
      obtain ⟨id', hr, hmem⟩ := ih hfound
      exact ⟨id', hr, List.mem_cons_of_mem _ hmem⟩
  | parent fields firstChild next _ ih =>
    obtain ⟨id, hr, hmem⟩ := ih hfound
    refine ⟨id, hr, ?_⟩
    rw [named]
    split
    · exact hmem
    · exact List.mem_cons_of_mem _ hmem

theorem directRegister_complete {id : Nat} (hmem : .register id name ∈ siblings.named) :
    siblings.directRegister name ≠ Option.none := by
  induction siblings with
  | none => cases hmem
  | register id' name' next ih =>
    rw [directRegister]
    split
    · exact Option.some_ne_none _
    next hname =>
      rcases List.mem_cons.mp hmem with hsame | hmem
      · exact absurd (SystemModelNode.register.inj hsame).2.symm hname
      · exact ih hmem
  | parent fields firstChild next _ ih =>
    rw [named] at hmem
    rw [directRegister]
    split at hmem
    · exact ih hmem
    · rcases List.mem_cons.mp hmem with hsame | hmem
      · cases hsame
      · exact ih hmem

end Siblings

namespace ParentNode

def NoAliases (p : ParentNode) : Prop := ∀ q ∈ p.parentNodes, q.aliases = []

end ParentNode

namespace Siblings

variable {siblings : Siblings} {name : Text}

theorem findAlias_none {fields : ParentFields} (halias : fields.aliases = []) (name : Text) :
    fields.findAlias name = Option.none := by
  rw [ParentFields.findAlias, halias]
  rfl

theorem ignoredRegister_sound (haliases : ∀ q ∈ siblings.parentNodes, q.aliases = [])
    {r : RegisterInterface} (hfound : siblings.ignoredRegister name = some r) :
    ∃ q ∈ siblings.transparent, ∃ id, r = .register id name ∧ q.Sees (.register id name) := by
  induction siblings with
  | none => cases hfound
  | register id name' next ih => exact ih haliases hfound
  | parent fields firstChild next ihChild ihNext =>
    rw [parentNodes, List.cons_append, List.forall_mem_cons, List.forall_mem_append] at haliases
    obtain ⟨halias, hchild, hnext⟩ := haliases
    rw [ignoredRegister] at hfound
    rw [transparent]
    split at hfound
    next hignored =>
      rw [if_pos hignored]
      rw [findAlias_none halias, Option.none_or] at hfound
      rcases Option.or_eq_some_iff.mp hfound with hhere | ⟨-, hlater⟩
      · rcases Option.or_eq_some_iff.mp hhere with hdirect | ⟨-, hignored⟩
        · obtain ⟨id, hr, hmem⟩ := directRegister_sound hdirect
          exact ⟨_, List.mem_cons_self, id, hr, .here hmem⟩
        · obtain ⟨q, hq, id, hr, hsees⟩ := ihChild hchild hignored
          exact ⟨_, List.mem_cons_self, id, hr, .beyond hq hsees⟩
      · obtain ⟨q, hq, hsees⟩ := ihNext hnext hlater
        exact ⟨q, List.mem_cons_of_mem _ hq, hsees⟩
    next hignored =>
      rw [if_neg hignored]
      exact ihNext hnext hfound

theorem ignoredRegister_complete {q : ParentNode} {id : Nat} (hq : q ∈ siblings.transparent)
    (hsees : q.Sees (.register id name)) : siblings.ignoredRegister name ≠ Option.none := by
  induction siblings generalizing q with
  | none => cases hq
  | register id' name' next ih => exact ih hq hsees
  | parent fields firstChild next ihChild ihNext =>
    rw [transparent] at hq
    rw [ignoredRegister]
    split at hq
    next hignored =>
      rw [if_pos hignored]
      intro hnone
      obtain ⟨hhere, hnext⟩ := Option.or_eq_none_iff.mp hnone
      obtain ⟨-, hinner⟩ := Option.or_eq_none_iff.mp hhere
      obtain ⟨hdirect, hdeeper⟩ := Option.or_eq_none_iff.mp hinner
      rcases List.mem_cons.mp hq with rfl | hq
      · cases hsees with
        | here hshown => exact directRegister_complete hshown hdirect
        | beyond hbelow h => exact ihChild hbelow h hdeeper
      · exact ihNext hq hsees hnext
    next hignored =>
      rw [if_neg hignored]
      exact ihNext hq hsees

end Siblings

namespace ParentNode

variable {p : ParentNode} {name : Text}

theorem findRegisterChildByName_sound (haliases : p.NoAliases) {r : RegisterInterface}
    (hfound : p.findRegisterChildByName name = some r) :
    ∃ id, r = .register id name ∧ p.Sees (.register id name) := by
  obtain ⟨halias, hbelow⟩ := List.forall_mem_cons.mp haliases
  rw [findRegisterChildByName, Siblings.findAlias_none halias, Option.none_or] at hfound
  rcases Option.or_eq_some_iff.mp hfound with hdirect | ⟨-, hignored⟩
  · obtain ⟨id, hr, hmem⟩ := Siblings.directRegister_sound hdirect
    exact ⟨id, hr, .here hmem⟩
  · obtain ⟨q, hq, id, hr, hsees⟩ := Siblings.ignoredRegister_sound hbelow hignored
    exact ⟨id, hr, .beyond hq hsees⟩

theorem PathsApart.findRegisterChildByName_eq {id : Nat} (hapart : p.PathsApart)
    (haliases : p.NoAliases) (hsees : p.Sees (.register id name)) :
    p.findRegisterChildByName name = some (.register id name) := by
  cases hfound : p.findRegisterChildByName name with
  | none =>
    rw [findRegisterChildByName] at hfound
    obtain ⟨hdirect, hdeeper⟩ := Option.or_eq_none_iff.mp (Option.or_eq_none_iff.mp hfound).2
    cases hsees with
    | here hshown => exact absurd hdirect (Siblings.directRegister_complete hshown)
    | beyond hnext h => exact absurd hdeeper (Siblings.ignoredRegister_complete hnext h)
  | some r =>
    obtain ⟨id', rfl, hsees'⟩ := findRegisterChildByName_sound haliases hfound
    obtain ⟨rfl, -⟩ := SystemModelNode.register.inj (hapart.unique hsees hsees' rfl)
    rfl

/-- A path down to a node goes through the parent node that sees it. -/
theorem Descendant.last {names : List Text} {n : SystemModelNode} (h : p.Descendant names n) :
    names = [n.name] ∧ p.Sees n ∨
      ∃ front q, names = front ++ [n.name] ∧ p.Descendant front (.parent q) ∧ q.Sees n := by
  induction h with
  | sees hn => exact .inl ⟨rfl, hn⟩
  | @inside p q names n hq h ih =>
    right
    rcases ih with ⟨hnames, hn⟩ | ⟨front, q', hnames, hfront, hn⟩
    · exact ⟨[q.name], q, by rw [hnames]; rfl, .sees hq, hn⟩
    · exact ⟨q.name :: front, q', by rw [hnames]; rfl, .inside hq hfront, hn⟩

theorem PathsApart.descendant {names : List Text} {q : ParentNode} (hapart : p.PathsApart)
    (h : p.Descendant names (.parent q)) : q.PathsApart := by
  generalize hn : SystemModelNode.parent q = n at h
  induction h with
  | sees hsees =>
    subst hn
    exact hapart.below hsees
  | inside hq _ ih => exact ih (hapart.below hq) hn

theorem parentNodes_of_named {siblings : Siblings} {q : ParentNode}
    (hq : .parent q ∈ siblings.named) : q.parentNodes ⊆ siblings.parentNodes := by
  induction siblings with
  | none => cases hq
  | register id name next ih =>
    rcases List.mem_cons.mp hq with hq | hq
    · cases hq
    · exact ih hq
  | parent fields firstChild next _ ih =>
    rw [Siblings.named] at hq
    rw [Siblings.parentNodes]
    have hnext := List.subset_append_right (⟨fields, firstChild⟩ :: firstChild.parentNodes)
      next.parentNodes
    split at hq
    · exact List.Subset.trans (ih hq) hnext
    · rcases List.mem_cons.mp hq with hq | hq
      · obtain rfl := SystemModelNode.parent.inj hq
        exact List.subset_append_left _ _
      · exact List.Subset.trans (ih hq) hnext

theorem parentNodes_of_transparent {siblings : Siblings} {q : ParentNode}
    (hq : q ∈ siblings.transparent) : q.parentNodes ⊆ siblings.parentNodes := by
  induction siblings with
  | none => cases hq
  | register id name next ih => exact ih hq
  | parent fields firstChild next _ ih =>
    rw [Siblings.transparent] at hq
    rw [Siblings.parentNodes]
    have hnext := List.subset_append_right (⟨fields, firstChild⟩ :: firstChild.parentNodes)
      next.parentNodes
    split at hq
    · rcases List.mem_cons.mp hq with rfl | hq
      · exact List.subset_append_left _ _
      · exact List.Subset.trans (ih hq) hnext
    · exact List.Subset.trans (ih hq) hnext

theorem NoAliases.below {q : ParentNode} (haliases : p.NoAliases) (hq : p.Sees (.parent q)) :
    q.NoAliases := by
  generalize hn : SystemModelNode.parent q = n at hq
  induction hq with
  | here hshown =>
    subst hn
    intro q' hq'
    exact haliases q' (List.mem_cons_of_mem _ (parentNodes_of_named hshown hq'))
  | beyond hnext _ ih =>
    refine ih (fun q' hq' => ?_) hn
    exact haliases q' (List.mem_cons_of_mem _ (parentNodes_of_transparent hnext hq'))

theorem NoAliases.descendant {names : List Text} {q : ParentNode} (haliases : p.NoAliases)
    (h : p.Descendant names (.parent q)) : q.NoAliases := by
  generalize hn : SystemModelNode.parent q = n at h
  induction h with
  | sees hsees =>
    subst hn
    exact haliases.below hsees
  | inside hq _ ih => exact ih (haliases.below hq) hn

/-! ### Both lookups -/

theorem PathsApart.findNode_eq {names : List Text} {n : SystemModelNode} (hapart : p.PathsApart)
    (hn : p.Descendant names n) (hplain : ∀ name ∈ names, PlainName name) :
    p.findNode (joinPath names) = some n :=
  (findNode_joinPath hn.names_ne_nil hplain).trans (hapart.descend_eq hn)

theorem joinPath_append {front : List Text} (hfront : front ≠ []) (name : Text) :
    joinPath (front ++ [name]) = joinPath front ++ '.' :: name := by
  induction front with
  | nil => exact absurd rfl hfront
  | cons first front ih =>
    by_cases hlast : front = []
    · subst hlast
      rw [joinPath_singleton, List.singleton_append, joinPath_cons (List.cons_ne_nil _ _),
        joinPath_singleton]
    · rw [List.cons_append, joinPath_cons (List.append_ne_nil_of_left_ne_nil hlast _), ih hlast,
        joinPath_cons hlast, List.append_assoc]
      rfl

theorem PathsApart.findRegister_eq {names : List Text} {id : Nat} (hapart : p.PathsApart)
    (haliases : p.NoAliases) (hn : p.Descendant names (.register id name))
    (hplain : ∀ name ∈ names, PlainName name) :
    p.findRegister (joinPath names) = .ok (some (.register id name)) := by
  rcases hn.last with ⟨rfl, hsees⟩ | ⟨front, q, rfl, hfront, hsees⟩
  · have hname : PlainName name := hplain name (List.mem_singleton.mpr rfl)
    rw [findRegister, show joinPath [(SystemModelNode.register id name).name] = name from
      joinPath_singleton name]
    simp only [Utility.frontTokens_plain hname.2, Utility.backToken_plain hname.2, if_true,
      if_neg hname.1]
    rw [hapart.findRegisterChildByName_eq haliases hsees]
  · have hname : PlainName name := hplain name (List.mem_append_right _ (List.mem_singleton.mpr rfl))
    have hfrontPlain : ∀ name ∈ front, PlainName name := fun name' h =>
      hplain name' (List.mem_append_left _ h)
    have hlength : (joinPath front).length ≠ (joinPath front ++ '.' :: name).length := by
      rw [List.length_append, List.length_cons]
      omega
    rw [findRegister, show joinPath (front ++ [(SystemModelNode.register id name).name]) =
      joinPath front ++ '.' :: name from joinPath_append hfront.names_ne_nil name]
    simp only [Utility.frontTokens_append hname.2, Utility.backToken_append hname.2,
      if_neg hlength, if_neg hname.1, if_neg (joinPath_ne_nil hfront.names_ne_nil hfrontPlain)]
    rw [hapart.findNode_eq hfront hfrontPlain]
    simp only
    rw [(hapart.descendant hfront).findRegisterChildByName_eq (haliases.descendant hfront) hsees]

/-- In a tree that the names checker accepts, and whose parent nodes do not share their logical paths, a logical path leads to its node, from any parent node; what a path leads to has that logical path, up to a dot at the end; and a register is found as a node is. -/
theorem pathLookup_checked {root : ParentNode} (haccepts : NamesChecker.Accepts root)
    (hapart : root.ParentsApart) (hp : p ∈ root.parentNodes) :
    (∀ names n, p.Descendant names n → (∀ name ∈ names, PlainName name) →
      p.findNode (joinPath names) = some n) ∧
    (∀ path n, p.findNode path = some n →
      path = ".".toList ∧ n = .parent p ∨
        ∃ names, p.Descendant names n ∧ (path = joinPath names ∨ path = joinPath names ++ ['.'])) ∧
    (p.NoAliases → ∀ names id name, p.Descendant names (.register id name) →
      (∀ name ∈ names, PlainName name) →
        p.findRegister (joinPath names) = .ok (some (.register id name))) := by
  have hpaths := pathsApart haccepts hapart hp
  refine ⟨fun names n => hpaths.findNode_eq, fun path n hfound => ?_,
    fun haliases names id name => hpaths.findRegister_eq haliases⟩
  rcases findNode_sound hfound with hself | ⟨names, hnames, hdescend, hpath⟩
  · exact .inl hself
  · exact .inr ⟨names, descendant_of_descend hnames hdescend, hpath⟩

/-! ### Two segments behind ignored multiplexers -/

def segment (id : Nat) (name reg : Text) : ParentNode :=
  ⟨⟨id, name, false, []⟩, .register (id + 1) reg .none⟩

/-- A multiplexer that is ignored in paths, in front of a segment. -/
def segmentMux (id : Nat) (name reg : Text) : ParentNode :=
  ⟨⟨id, "mux".toList, true, []⟩,
    .parent (segment (id + 1) name reg).toParentFields (segment (id + 1) name reg).firstChild .none⟩

/-- Two of them, the first segment named `x`. -/
def twoSegments (name : Text) : ParentNode :=
  ⟨⟨0, "top".toList, false, []⟩,
    .parent (segmentMux 1 ['x'] ['a']).toParentFields (segmentMux 1 ['x'] ['a']).firstChild
      (.parent (segmentMux 4 name ['b']).toParentFields (segmentMux 4 name ['b']).firstChild .none)⟩

section

variable (id : Nat) (name reg : Text)

theorem twoSegments_level : (twoSegments name).level =
    [.parent (segment 2 ['x'] ['a']), .parent (segment 5 name ['b'])] := by
  simp [level, BreadthFirst.visit, paths, twoSegments, segmentMux, segment, Siblings.named,
    Siblings.transparent]

theorem segment_level : (segment id name reg).level = [.register (id + 1) reg] := by
  simp [level, BreadthFirst.visit, paths, segment, Siblings.named, Siblings.transparent]

theorem second_descendant : (twoSegments name).Descendant [name, ['b']] (.register 6 ['b']) := by
  have hsegment : (twoSegments name).Sees (.parent (segment 5 name ['b'])) := by
    rw [← mem_level, twoSegments_level]
    exact List.mem_cons_of_mem _ List.mem_cons_self
  have hreg : (segment 5 name ['b']).Sees (.register 6 ['b']) := .here List.mem_cons_self
  exact .inside hsegment (.sees hreg)

end

/-- The second register is behind the second segment of the name `x`. -/
theorem pathLookup_incomplete :
    ¬∀ root p : ParentNode, NamesChecker.Accepts root → p ∈ root.parentNodes →
      ∀ names n, p.Descendant names n → (∀ name ∈ names, PlainName name) →
        p.findNode (joinPath names) = some n := by
  intro hlookup
  have hplain : ∀ name ∈ [['x'], ['b']], PlainName name := by
    unfold PlainName
    decide
  have hfound := hlookup (twoSegments ['x']) (twoSegments ['x']) (by decide) List.mem_cons_self
    [['x'], ['b']] _ (second_descendant ['x']) hplain
  rw [findNode_joinPath (List.cons_ne_nil _ _) hplain, descend_parent (List.cons_ne_nil _ _)
    (q := segment 2 ['x'] ['a']) (by rw [twoSegments_level]; rfl),
    descend_missed (by rw [segment_level]; rfl)] at hfound
  cases hfound

/-- With another name for it the register is found. -/
theorem pathLookup_checked_second :
    (twoSegments ['y']).findNode "y.b".toList = some (.register 6 ['b']) ∧
      (twoSegments ['y']).findRegister "y.b".toList = .ok (some (.register 6 ['b'])) := by
  have haccepts : NamesChecker.Accepts (twoSegments ['y']) := by decide
  have hapart : (twoSegments ['y']).ParentsApart := by
    unfold ParentsApart
    decide
  have hplain : ∀ name ∈ [['y'], ['b']], PlainName name := by
    unfold PlainName
    decide
  have haliases : (twoSegments ['y']).NoAliases := by
    unfold NoAliases
    decide
  obtain ⟨hcomplete, -, hregister⟩ := pathLookup_checked haccepts hapart List.mem_cons_self
  exact ⟨hcomplete [['y'], ['b']] _ (second_descendant ['y']) hplain,
    hregister haliases [['y'], ['b']] 6 ['b'] (second_descendant ['y']) hplain⟩

end ParentNode

end Mast
