import Mast.Tree.Links

/-!
# Disconnecting a node

In a well-formed tree the loops of the source end and find what they look for. However a child is disconnected, the lists of children lose it and nothing else, but its own link to the next sibling stays as it was.
-/

namespace Mast

open Fuel SiblingLists

namespace ModelTree

variable {t t' : ModelTree} {children : Nat → List Nat} {a b n p q parent : Nat}
  {start previous stop : Option Nat} {l r : List Nat}

/-! ### What the loops find -/

theorem appendSibling_ends (sibling : Nat)
    (hleads : Leads t.nextSibling (some a) (l ++ [b]) none) :
    Ends (fun fuel => t.appendSibling fuel a sibling) (t.setNextSibling b (some sibling)) := by
  induction l generalizing a with
  | nil =>
    obtain ⟨hfirst, hend⟩ := hleads
    obtain rfl := Option.some.inj hfirst
    refine Ends.succ ((ends_some _).congr fun fuel => ?_)
    rw [appendSibling, hend]
  | cons first rest ih =>
    obtain ⟨hfirst, hrest⟩ := hleads
    obtain rfl := Option.some.inj hfirst
    obtain ⟨following, hfollowing⟩ := hrest.start_some
    rw [hfollowing] at hrest
    refine Ends.succ ((ih hrest).congr fun fuel => ?_)
    rw [appendSibling, hfollowing]

/-- The node before a child, when the list is walked from a node whose previous sibling is given. -/
def before (previous : Option Nat) (l : List Nat) : Option Nat := l.getLast?.or previous

theorem before_cons : before previous (a :: l) = before (some a) l := by
  cases l with
  | nil => rfl
  | cons b l => simp [before, List.getLast?_eq_some_getLast]

theorem childPosition_ends (hleads : Leads t.nextSibling (some a) (l ++ n :: r) stop)
    (hn : n ∉ l) :
    Ends (fun fuel => t.childPosition parent n fuel previous a) (.ok (before previous l, n)) := by
  induction l generalizing a previous with
  | nil =>
    obtain rfl := Option.some.inj hleads.1
    refine Ends.succ ((ends_some _).congr fun fuel => ?_)
    rw [childPosition, if_pos rfl]
    rfl
  | cons first rest ih =>
    obtain ⟨hfirst, hrest⟩ := hleads
    obtain rfl := Option.some.inj hfirst
    obtain ⟨following, hfollowing⟩ := hrest.start_some
    rw [hfollowing] at hrest
    rw [before_cons]
    refine Ends.succ ((ih hrest fun h => hn (List.mem_cons_of_mem _ h)).congr fun fuel => ?_)
    rw [childPosition, if_neg (Ne.symm (List.ne_of_not_mem_cons hn)), hfollowing]

theorem channelPosition_ends {currentId : Nat}
    (hleads : Leads t.nextSibling (some a) (l ++ n :: r) stop) :
    Ends (fun fuel => t.channelPosition (currentId + l.length) fuel previous a currentId)
      (.ok (before previous l, n)) := by
  induction l generalizing a previous currentId with
  | nil =>
    obtain rfl := Option.some.inj hleads.1
    refine Ends.succ ((ends_some _).congr fun fuel => ?_)
    exact if_pos rfl
  | cons first rest ih =>
    obtain ⟨hfirst, hrest⟩ := hleads
    obtain rfl := Option.some.inj hfirst
    obtain ⟨following, hfollowing⟩ := hrest.start_some
    rw [hfollowing] at hrest
    have hlater : currentId + (a :: rest).length = currentId + 1 + rest.length := by
      rw [List.length_cons]
      omega
    have hnext := @ih following (some a) (currentId + 1) hrest
    rw [before_cons, hlater]
    refine Ends.succ (hnext.congr fun fuel => ?_)
    rw [channelPosition, if_neg (by omega), hfollowing]

theorem hasDirectChild_ends (hleads : Leads t.nextSibling start l none) :
    Ends (fun fuel => t.hasDirectChild n fuel start) (decide (n ∈ l)) := by
  induction l generalizing start with
  | nil =>
    subst hleads
    exact Ends.succ (ends_some _)
  | cons first rest ih =>
    obtain ⟨rfl, hrest⟩ := hleads
    refine Ends.succ ?_
    by_cases hfirst : first = n
    · subst hfirst
      refine (ends_some _).congr fun fuel => ?_
      rw [hasDirectChild, if_pos rfl, decide_eq_true List.mem_cons_self]
    · have hsame : decide (n ∈ first :: rest) = decide (n ∈ rest) := by
        simp [Ne.symm hfirst]
      rw [hsame]
      refine (ih hrest).congr fun fuel => ?_
      rw [hasDirectChild, if_neg hfirst]

/-! ### Well-formed trees -/

/-- The links give each node its list of children, and no node has two parents or is below itself. -/
structure WellFormed (t : ModelTree) (children : Nat → List Nat) : Prop where
  lists : ∀ p, Leads t.nextSibling (t.firstChild p) (children p) none
  hierarchy : Hierarchy children
  parents : ∀ p, t.isParent p = false → children p = []
  root : ∀ r, t.root = some r → ∀ p, r ∉ children p

theorem WellFormed.findParentInChildren_ends (hwell : t.WellFormed children) (hn : n ∈ children p)
    (hleads : Leads t.nextSibling start l none)
    (hfind : ∀ c ∈ l, (InSubtree children c p →
        Ends (fun fuel => t.findParentOfNode n fuel c) (some p)) ∧
      (¬InSubtree children c p → Ends (fun fuel => t.findParentOfNode n fuel c) none)) :
    ((∃ c ∈ l, InSubtree children c p) →
        Ends (fun fuel => t.findParentInChildren n fuel start) (some p)) ∧
      ((¬∃ c ∈ l, InSubtree children c p) →
        Ends (fun fuel => t.findParentInChildren n fuel start) none) := by
  induction l generalizing start with
  | nil =>
    subst hleads
    exact ⟨fun ⟨c, hc, _⟩ => absurd hc List.not_mem_nil, fun _ => Ends.succ (ends_some _)⟩
  | cons c rest ih =>
    obtain ⟨rfl, hrest⟩ := hleads
    obtain ⟨hinside, houtside⟩ := hfind c List.mem_cons_self
    have hlater := ih hrest fun d hd => hfind d (List.mem_cons_of_mem _ hd)
    by_cases hc : InSubtree children c p
    · have hparent : t.isParent c = true := by
        by_contra hleaf
        have hnone := hwell.parents c (Bool.eq_false_iff.mpr hleaf)
        rcases hc.cases_head with rfl | ⟨d, hd, -⟩
        · exact absurd hn (hnone ▸ List.not_mem_nil)
        · exact absurd hd (hnone ▸ List.not_mem_nil)
      refine ⟨fun _ => Ends.succ ?_, fun hnone => absurd ⟨c, List.mem_cons_self, hc⟩ hnone⟩
      simp only [findParentInChildren, hparent, if_true]
      exact Ends.bind (hinside hc) (ends_some _)
    · have hhead : Ends (fun fuel => if t.isParent c then t.findParentOfNode n fuel c else some none)
          none := by
        split
        · exact houtside hc
        · exact ends_some _
      simp only [List.exists_mem_cons_iff, hc, false_or]
      refine ⟨fun hsome => Ends.succ ?_, fun hnone => Ends.succ ?_⟩
      · simp only [findParentInChildren]
        exact Ends.bind hhead (hlater.1 hsome)
      · simp only [findParentInChildren]
        exact Ends.bind hhead (hlater.2 hnone)

theorem WellFormed.findParentOfNode_ends (hwell : t.WellFormed children) (hn : n ∈ children p)
    (a : Nat) :
    (InSubtree children a p → Ends (fun fuel => t.findParentOfNode n fuel a) (some p)) ∧
      (¬InSubtree children a p → Ends (fun fuel => t.findParentOfNode n fuel a) none) := by
  induction a using hwell.hierarchy.wellFounded.induction with
  | _ a ih =>
    have hdirect := hasDirectChild_ends (n := n) (hwell.lists a)
    by_cases hna : n ∈ children a
    · obtain rfl := hwell.hierarchy.oneParent hna hn
      rw [decide_eq_true hna] at hdirect
      exact ⟨fun _ => Ends.succ (hdirect.bind (ends_some _)),
        fun houtside => absurd Relation.ReflTransGen.refl houtside⟩
    · rw [decide_eq_false hna] at hdirect
      have hne : a ≠ p := by
        intro hsame
        exact hna (hsame ▸ hn)
      have hloop := hwell.findParentInChildren_ends hn (hwell.lists a) fun c hc => ih c hc
      rw [inSubtree_iff hne]
      exact ⟨fun hsome => Ends.succ (hdirect.bind (hloop.1 hsome)),
        fun hnone => Ends.succ (hdirect.bind (hloop.2 hnone))⟩

/-! ### Disconnecting a child -/

def without (children : Nat → List Nat) (p n : Nat) : Nat → List Nat :=
  Function.update children p ((children p).erase n)

/-- A child is in no list of children any more, but leads to the siblings that followed it. -/
structure Disconnected (t t' : ModelTree) (children : Nat → List Nat) (p n : Nat) (r : List Nat) :
    Prop where
  lists : ∀ x, Leads t'.nextSibling (t'.firstChild x) (without children p n x) none
  siblings : Leads t'.nextSibling (some n) (n :: r) none
  appenders : t'.optionalChildAppender = (t.resetChildAppender p n).optionalChildAppender
  isParent : t'.isParent = t.isParent
  root : t'.root = t.root

theorem erase_middle (hn : n ∉ l) : (l ++ n :: r).erase n = l ++ r := by
  rw [List.erase_append_right _ hn, List.erase_cons_head]

theorem WellFormed.nodup (hwell : t.WellFormed children) (hchildren : children p = l ++ n :: r) :
    n ∉ l ∧ n ∉ r ∧ l.Disjoint r := by
  have hnodup := (hwell.lists p).nodup
  rw [hchildren] at hnodup
  obtain ⟨-, hright, hdisjoint⟩ := List.nodup_append'.mp hnodup
  exact ⟨fun hn => hdisjoint hn List.mem_cons_self, (List.nodup_cons.mp hright).1,
    fun _ hal har => hdisjoint hal (List.mem_cons_of_mem _ har)⟩

theorem WellFormed.disconnectSibling (hwell : t.WellFormed children)
    (hchildren : children p = l ++ n :: r) :
    Disconnected t (t.disconnectSibling p (before none l) n) children p n r := by
  obtain ⟨hl, hr, hdisjoint⟩ := hwell.nodup hchildren
  have herase : without children p n p = l ++ r := by
    rw [without, Function.update_self, hchildren, erase_middle hl]
  have hother {x : Nat} (hx : x ≠ p) : without children p n x = children x :=
    Function.update_of_ne hx _ _
  have hlist := hwell.lists p
  rw [hchildren] at hlist
  rcases List.eq_nil_or_concat l with rfl | ⟨l, b, rfl⟩
  · -- the first child
    obtain ⟨hfirst, hafter⟩ := hlist
    refine ⟨fun x => ?_, ?_, resetChildAppender_childAppender _ _ _ _ rfl,
      resetChildAppender_isParent _ _ _, resetChildAppender_root _ _ _⟩
    · simp only [ModelTree.disconnectSibling, resetChildAppender_firstChild,
        resetChildAppender_nextSibling]
      change Leads t.nextSibling (Function.update t.firstChild p (t.nextSibling n) x) _ none
      by_cases hx : x = p
      · subst hx
        rwa [herase, Function.update_self]
      · rw [hother hx, Function.update_of_ne hx]
        exact hwell.lists x
    · simp only [ModelTree.disconnectSibling, resetChildAppender_nextSibling]
      exact ⟨rfl, hafter⟩
  · -- a child after another one
    have hb : before none (l.concat b) = some b := by simp [before]
    rw [List.concat_eq_append] at hchildren herase hlist hl hdisjoint
    have hbl : b ∉ l := by
      have hnodup := (hwell.lists p).nodup
      rw [hchildren, List.append_assoc] at hnodup
      intro hmem
      exact (List.nodup_append'.mp hnodup).2.2 hmem List.mem_cons_self
    have hbn : n ≠ b := fun hsame => hl (hsame ▸ List.mem_append_right _ List.mem_cons_self)
    have hbr : b ∉ r := fun hmem => hdisjoint (List.mem_append_right _ List.mem_cons_self) hmem
    obtain ⟨middle, hbefore, hn, hafter⟩ := leads_append.mp hlist
    have hbmem : b ∈ children p := by simp [hchildren]
    refine ⟨fun x => ?_, ?_, ?_, ?_, ?_⟩
    all_goals simp only [ModelTree.disconnectSibling, resetChildAppender_firstChild,
        resetChildAppender_nextSibling, resetChildAppender_isParent, resetChildAppender_root, hb]
    · change Leads (Function.update t.nextSibling b (t.nextSibling n)) (t.firstChild x) _ none
      by_cases hx : x = p
      · subst hx
        rw [herase]
        exact leads_append.mpr ⟨_, hbefore.update_last hbl, hafter.update hbr⟩
      · rw [hother hx]
        exact (hwell.lists x).update fun hmem => hx (hwell.hierarchy.oneParent hmem hbmem)
    · change Leads (Function.update t.nextSibling b (t.nextSibling n)) _ _ none
      refine ⟨rfl, ?_⟩
      rw [Function.update_of_ne hbn]
      exact hafter.update hbr
    · exact resetChildAppender_childAppender _ _ _ _ rfl
    · rfl
    · rfl

/-- The ways to disconnect a child. -/
inductive Disconnection
  | child
  | channel (channelId : Nat)
  | node (parentNode : Option Nat)

namespace Disconnection

/-- The disconnected node and the tree without it. -/
def run (t : ModelTree) (p n : Nat) : Disconnection → Nat → Option (Except Fault (Nat × ModelTree))
  | .child, fuel => (t.disconnectChild p (some n) fuel).bind fun t => some (t.map (n, ·))
  | .channel channelId, fuel => t.disconnectChannel p channelId fuel
  | .node parentNode, fuel =>
    (t.disconnectNode (some n) parentNode fuel).bind fun t => some (t.map (n, ·))

/-- The call is for the child of the parent: by its position, or by a search from a node above it. -/
def Names (t : ModelTree) (children : Nat → List Nat) (p n : Nat) : Disconnection → Prop
  | .child => True
  | .channel channelId => 0 < channelId ∧ (children p)[channelId - 1]? = some n
  | .node parentNode => ∃ a, parentNode.or t.root = some a ∧ InSubtree children a p

end Disconnection

theorem WellFormed.disconnectChild_ends (hwell : t.WellFormed children)
    (hchildren : children p = l ++ n :: r) :
    Ends (t.disconnectChild p (some n)) (.ok (t.disconnectSibling p (before none l) n)) := by
  have hlist := hwell.lists p
  rw [hchildren] at hlist
  obtain ⟨first, hfirst⟩ := hlist.start_some
  rw [hfirst] at hlist
  change Ends (fun fuel => t.disconnectChild p (some n) fuel) _
  simp only [disconnectChild, hfirst]
  exact (childPosition_ends hlist (hwell.nodup hchildren).1).bind (ends_some _)

theorem WellFormed.disconnectChannel_ends (hwell : t.WellFormed children)
    (hchildren : children p = l ++ n :: r) :
    Ends (t.disconnectChannel p (l.length + 1))
      (.ok (n, t.disconnectSibling p (before none l) n)) := by
  have hlist := hwell.lists p
  rw [hchildren] at hlist
  obtain ⟨first, hfirst⟩ := hlist.start_some
  rw [hfirst] at hlist
  have hposition := @channelPosition_ends t first n none none l r 1 hlist
  rw [Nat.add_comm] at hposition
  have hid : l.length + 1 ≠ 0 := Nat.succ_ne_zero _
  change Ends (fun fuel => t.disconnectChannel p (l.length + 1) fuel) _
  simp only [disconnectChannel, hfirst, if_neg hid]
  exact hposition.bind (ends_some _)

theorem WellFormed.disconnectNode_ends (hwell : t.WellFormed children)
    (hchildren : children p = l ++ n :: r) {parentNode : Option Nat}
    (hbelow : parentNode.or t.root = some a) (hp : InSubtree children a p) :
    Ends (t.disconnectNode (some n) parentNode)
      (.ok (t.disconnectSibling p (before none l) n)) := by
  have hn : n ∈ children p := by simp [hchildren]
  have hroot : t.root ≠ some n := fun h => hwell.root n h p hn
  have hdirect := hasDirectChild_ends (n := n) (hwell.lists a)
  have hparent : Ends (fun fuel => if decide (n ∈ children a) then some (some a)
      else t.findParentOfNode n fuel a) (some p) := by
    by_cases hna : n ∈ children a
    · obtain rfl := hwell.hierarchy.oneParent hna hn
      simp only [decide_eq_true hna, if_true]
      exact ends_some _
    · simp only [decide_eq_false hna, Bool.false_eq_true, if_false]
      exact (hwell.findParentOfNode_ends hn a).1 hp
  change Ends (fun fuel => t.disconnectNode (some n) parentNode fuel) _
  simp only [disconnectNode, if_neg hroot, hbelow]
  exact hdirect.bind (hparent.bind (hwell.disconnectChild_ends hchildren))

/-- However the child is disconnected, the links change in the same way. -/
theorem Disconnection.run_ends (hwell : t.WellFormed children)
    (hchildren : children p = l ++ n :: r) {call : Disconnection}
    (hcall : call.Names t children p n) :
    Ends (call.run t p n) (.ok (n, t.disconnectSibling p (before none l) n)) := by
  cases call with
  | child => exact (hwell.disconnectChild_ends hchildren).bind (ends_some _)
  | channel channelId =>
    obtain ⟨hpos, hchannel⟩ := hcall
    have hn : (children p)[l.length]? = some n := by simp [hchildren]
    have hindex := (List.getElem?_inj (List.getElem?_eq_some_iff.mp hn).1 (hwell.lists p).nodup).mp
      (hn.trans hchannel.symm)
    obtain rfl : channelId = l.length + 1 := by omega
    exact hwell.disconnectChannel_ends hchildren
  | node parentNode =>
    obtain ⟨a, hstart, hp⟩ := hcall
    exact (hwell.disconnectNode_ends hchildren hstart hp).bind (ends_some _)

end ModelTree

end Mast
