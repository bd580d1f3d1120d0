import Mast.Tree.Disconnect

/-!
# Moving a node

A node that is disconnected keeps its link to the next sibling. Appended elsewhere, it is followed by what followed it before, so that it moves alone exactly when it was the last child.
-/

namespace Mast

open Fuel SiblingLists

namespace ModelTree

variable {t t' : ModelTree} {children : Nat → List Nat} {a b n p q : Nat} {l r : List Nat}

/-! ### Appending the child again -/

/-- The places where a parent node takes a node. -/
inductive Placement
  | append
  | prepend

namespace Placement

def run (t : ModelTree) (q n : Nat) : Placement → Nat → Option ModelTree
  | .append, fuel => t.appendChild fuel q n
  | .prepend, fuel => t.prependChild fuel q n

def insert (n : Nat) : Placement → List Nat → List Nat
  | .append, l => l ++ [n]
  | .prepend, l => n :: l

theorem mem_insert (place : Placement) : a ∈ place.insert n l ↔ a = n ∨ a ∈ l := by
  cases place with
  | append => simp [insert, or_comm]
  | prepend => exact List.mem_cons

end Placement

/-- The parent node that effectively takes a node, in place of the one that is asked. -/
inductive Appends (childAppender : Nat → Option Nat) : Nat → Nat → Prop
  | self {q : Nat} (hnone : childAppender q = none) : Appends childAppender q q
  | handedOn {q a q' : Nat} (hsome : childAppender q = some a) (hrest : Appends childAppender a q') :
    Appends childAppender q q'

theorem Appends.none {childAppender : Nat → Option Nat} {q q' : Nat}
    (happends : Appends childAppender q q') : childAppender q' = none := by
  induction happends with
  | self hnone => exact hnone
  | handedOn _ _ ih => exact ih

theorem Placement.run_handedOn {place : Placement} {q q' : Nat}
    (happends : Appends t.optionalChildAppender q q') (hrun : Ends (place.run t q' n) t') :
    Ends (place.run t q n) t' := by
  induction happends with
  | self _ => exact hrun
  | handedOn hsome _ ih =>
    refine Ends.succ ((ih hrun).congr fun fuel => ?_)
    cases place with
    | append => simp only [run, appendChild, hsome]
    | prepend => simp only [run, prependChild, hsome]

/-- The links after a node has been appended to the children of a node. -/
def appended (t : ModelTree) (q n : Nat) (lastChild : Option Nat) : ModelTree :=
  match lastChild with
  | some lastChild => t.setNextSibling lastChild (some n)
  | none => t.setFirstChild q (some n)

/-- The links after a node, and the siblings that follow it up to a last one, have been put before the children of a node. -/
def prepended (t : ModelTree) (q n last : Nat) : ModelTree :=
  match t.firstChild q with
  | some firstChild => (t.setNextSibling last (some firstChild)).setFirstChild q (some n)
  | none => t.setFirstChild q (some n)

theorem appendChild_ends (hnone : t.optionalChildAppender q = none)
    (hleads : Leads t.nextSibling (t.firstChild q) l none) :
    Ends (fun fuel => t.appendChild fuel q n) (t.appended q n l.getLast?) := by
  refine Ends.succ ?_
  simp only [appendChild, hnone]
  rcases List.eq_nil_or_concat l with rfl | ⟨l, b, rfl⟩
  · have hfirst : t.firstChild q = none := hleads
    rw [hfirst]
    exact ends_some _
  · rw [List.concat_eq_append] at hleads ⊢
    obtain ⟨first, hfirst⟩ := hleads.start_some
    rw [hfirst] at hleads ⊢
    rw [List.getLast?_concat]
    exact appendSibling_ends n hleads

theorem prependChild_ends (hnone : t.optionalChildAppender q = none)
    (hleads : Leads t.nextSibling (some n) (l ++ [b]) none) :
    Ends (fun fuel => t.prependChild fuel q n) (t.prepended q n b) := by
  refine Ends.succ ?_
  simp only [prependChild, hnone, prepended]
  cases t.firstChild q with
  | none => exact ends_some _
  | some first => exact (appendSibling_ends first hleads).bind (ends_some _)

section Lists

variable (hlists : ∀ x, Leads t.nextSibling (t.firstChild x) (children x) none)
  (hchildren : Hierarchy children) (hfree : ∀ x, n ∉ children x)
  (hlast : t.nextSibling n = none)
include hlists hchildren hfree hlast

theorem appended_lists (x : Nat) :
    Leads (t.appended q n (children q).getLast?).nextSibling
      ((t.appended q n (children q).getLast?).firstChild x)
      (Function.update children q (children q ++ [n]) x) none := by
  rcases List.eq_nil_or_concat (children q) with hnil | ⟨l, b, hq⟩
  · rw [hnil]
    change Leads t.nextSibling (Function.update t.firstChild q (some n) x) _ none
    by_cases hx : x = q
    · subst hx
      rw [Function.update_self, Function.update_self]
      exact ⟨rfl, hlast⟩
    · rw [Function.update_of_ne hx, Function.update_of_ne hx]
      exact hlists x
  · rw [List.concat_eq_append] at hq
    have hb : b ∈ children q := by simp [hq]
    have hbn : n ≠ b := fun hsame => hfree q (hsame ▸ hb)
    rw [hq, List.getLast?_concat]
    change Leads (Function.update t.nextSibling b (some n)) (t.firstChild x) _ none
    by_cases hx : x = q
    · subst hx
      rw [Function.update_self]
      have hlist := hlists x
      rw [hq] at hlist
      have hbl : b ∉ l := by
        intro hmem
        exact (List.nodup_append'.mp hlist.nodup).2.2 hmem List.mem_cons_self
      refine leads_append.mpr ⟨_, hlist.update_last hbl, rfl, ?_⟩
      rwa [leads_nil, Function.update_of_ne hbn]
    · rw [Function.update_of_ne hx]
      exact (hlists x).update fun hmem => hx (hchildren.oneParent hmem hb)

omit hchildren in
theorem prepended_lists (x : Nat) :
    Leads (t.prepended q n n).nextSibling ((t.prepended q n n).firstChild x)
      (Function.update children q (n :: children q) x) none := by
  have hlist := hlists q
  rw [prepended]
  cases hfirst : t.firstChild q with
  | none =>
    rw [hfirst] at hlist
    have hnil : children q = [] := hlist.unique rfl
    rw [hnil]
    change Leads t.nextSibling (Function.update t.firstChild q (some n) x) _ none
    by_cases hx : x = q
    · subst hx
      rw [Function.update_self, Function.update_self]
      exact ⟨rfl, hlast⟩
    · rw [Function.update_of_ne hx, Function.update_of_ne hx]
      exact hlists x
  | some first =>
    rw [hfirst] at hlist
    change Leads (Function.update t.nextSibling n (some first))
      (Function.update t.firstChild q (some n) x) _ none
    by_cases hx : x = q
    · subst hx
      rw [Function.update_self, Function.update_self]
      refine ⟨rfl, ?_⟩
      rw [Function.update_self]
      exact hlist.update (hfree x)
    · rw [Function.update_of_ne hx, Function.update_of_ne hx]
      exact (hlists x).update (hfree x)

end Lists

theorem appended_root (last : Option Nat) : (t.appended q n last).root = t.root := by
  cases last <;> rfl

theorem appended_isParent (last : Option Nat) : (t.appended q n last).isParent = t.isParent := by
  cases last <;> rfl

theorem prepended_root : (t.prepended q n b).root = t.root := by
  rw [prepended]
  split <;> rfl

theorem prepended_isParent : (t.prepended q n b).isParent = t.isParent := by
  rw [prepended]
  split <;> rfl

/-- The lists of children after a child has been moved. -/
def moved (children : Nat → List Nat) (p n q : Nat) (place : Placement) : Nat → List Nat :=
  Function.update (without children p n) q (place.insert n (without children p n q))

/-- The child is disconnected, and once it has been appended to a node the tree has the lists of children that it should have. -/
def MovesOnly (t : ModelTree) (children : Nat → List Nat) (p n : Nat) (call : Disconnection)
    (place : Placement) (q q' : Nat) : Prop :=
  ∃ t' t'', Ends (call.run t p n) (.ok (n, t')) ∧ Ends (place.run t' q n) t'' ∧
    t''.WellFormed (moved children p n q' place)

section Moving

variable {call : Disconnection} {place : Placement} {q' : Nat}

theorem without_subset (x : Nat) (hmem : a ∈ without children p n x) : a ∈ children x := by
  by_cases hx : x = p
  · subst hx
    rw [without, Function.update_self] at hmem
    exact List.mem_of_mem_erase hmem
  · rwa [without, Function.update_of_ne hx] at hmem

theorem WellFormed.not_mem_without (hwell : t.WellFormed children) (hn : n ∈ children p) (x : Nat) :
    n ∉ without children p n x := by
  intro hmem
  obtain rfl := hwell.hierarchy.oneParent (without_subset x hmem) hn
  rw [without, Function.update_self] at hmem
  exact (hwell.lists x).nodup.not_mem_erase hmem

theorem inSubtree_without (hbelow : InSubtree (without children p n) a b) :
    InSubtree children a b :=
  Relation.ReflTransGen.mono (fun x _ => without_subset x) _ _ hbelow

theorem WellFormed.movesOnly (hwell : t.WellFormed children) (hchildren : children p = l ++ [n])
    (hcall : call.Names t children p n)
    (happends : Appends (t.resetChildAppender p n).optionalChildAppender q q')
    (hparent : t.isParent q' = true) (houtside : ¬InSubtree children n q') :
    MovesOnly t children p n call place q q' := by
  have hn : n ∈ children p := by simp [hchildren]
  have hdisconnected := hwell.disconnectSibling hchildren
  have hfree := hwell.not_mem_without hn
  have hhierarchy : Hierarchy (without children p n) :=
    hwell.hierarchy.mono fun x a => without_subset x
  have hlast := hdisconnected.siblings.2
  have hnone := happends.none
  rw [← hdisconnected.appenders] at happends hnone
  have hmoved : Hierarchy (moved children p n q' place) :=
    hhierarchy.attach hfree (fun hbelow => houtside (inSubtree_without hbelow))
      fun _ => place.mem_insert
  have hparents (x : Nat) (hx : t.isParent x = false) : moved children p n q' place x = [] := by
    have hne : x ≠ q' := fun hsame => Bool.false_ne_true (hx.symm.trans (hsame ▸ hparent))
    rw [moved, Function.update_of_ne hne]
    refine List.eq_nil_iff_forall_not_mem.mpr fun a ha => ?_
    exact absurd (without_subset x ha) (hwell.parents x hx ▸ List.not_mem_nil)
  have hroot (r : Nat) (hr : t.root = some r) (x : Nat) : r ∉ moved children p n q' place x := by
    intro hmem
    by_cases hx : x = q'
    · subst hx
      rw [moved, Function.update_self] at hmem
      rcases place.mem_insert.mp hmem with rfl | hold
      · exact hwell.root r hr p hn
      · exact hwell.root r hr x (without_subset x hold)
    · rw [moved, Function.update_of_ne hx] at hmem
      exact hwell.root r hr x (without_subset x hmem)
  have hrun := Disconnection.run_ends hwell hchildren hcall
  cases place with
  | append =>
    refine ⟨_, _, hrun, Placement.run_handedOn happends
      (appendChild_ends hnone (hdisconnected.lists q')), ?_, hmoved, ?_, ?_⟩
    · exact appended_lists hdisconnected.lists hhierarchy hfree hlast
    · rw [appended_isParent, hdisconnected.isParent]
      exact hparents
    · rw [appended_root, hdisconnected.root]
      exact hroot
  | prepend =>
    refine ⟨_, _, hrun, Placement.run_handedOn happends
      (prependChild_ends (l := []) hnone hdisconnected.siblings), ?_, hmoved, ?_, ?_⟩
    · exact prepended_lists hdisconnected.lists hfree hlast
    · rw [prepended_isParent, hdisconnected.isParent]
      exact hparents
    · rw [prepended_root, hdisconnected.root]
      exact hroot

/-- A child that is not the last one takes the siblings behind it along. -/
theorem WellFormed.not_movesOnly (hwell : t.WellFormed children)
    (hchildren : children p = l ++ n :: r) (hr : r ≠ []) (hcall : call.Names t children p n)
    (happends : Appends (t.resetChildAppender p n).optionalChildAppender q q') :
    ¬MovesOnly t children p n call place q q' := by
  intro ⟨t', t'', hrun, hplace, hmoved⟩
  have hn : n ∈ children p := by simp [hchildren]
  have hdisconnected := hwell.disconnectSibling hchildren
  have hsame := hrun.unique (Disconnection.run_ends hwell hchildren hcall)
  obtain rfl : t' = _ := congrArg Prod.snd (Except.ok.inj hsame)
  have hfree := hwell.not_mem_without hn
  have hnone := happends.none
  rw [← hdisconnected.appenders] at happends hnone
  obtain ⟨following, hfollowing⟩ : ∃ following,
      (t.disconnectSibling p (before none l) n).nextSibling n = some following := by
    obtain ⟨-, hrest⟩ := hdisconnected.siblings
    obtain ⟨following, rest, rfl⟩ := List.exists_cons_of_ne_nil hr
    exact ⟨following, hrest.1⟩
  have hlist := hmoved.lists q'
  rw [moved, Function.update_self] at hlist
  generalize t.disconnectSibling p (before none l) n = t' at *
  cases place with
  | append =>
    obtain rfl := hplace.unique (Placement.run_handedOn happends
      (appendChild_ends hnone (hdisconnected.lists q')))
    have hend : (t'.appended q' n (without children p n q').getLast?).nextSibling n = none :=
      hlist.next_last
    cases hlast : (without children p n q').getLast? with
    | none =>
      rw [hlast] at hend
      exact Option.some_ne_none _ (hfollowing.symm.trans hend)
    | some b =>
      have hbn := ne_of_mem_of_not_mem (List.mem_of_getLast? hlast) (hfree q')
      rw [hlast] at hend
      change Function.update t'.nextSibling b (some n) n = none at hend
      rw [Function.update_of_ne hbn.symm, hfollowing] at hend
      exact Option.some_ne_none _ hend
  | prepend =>
    obtain ⟨r, b, rfl⟩ := (List.eq_nil_or_concat r).resolve_left hr
    rw [List.concat_eq_append] at hdisconnected hchildren
    obtain rfl := hplace.unique (Placement.run_handedOn happends
      (prependChild_ends (l := n :: r) hnone hdisconnected.siblings))
    rw [prepended] at hlist hmoved
    cases hfirst : t'.firstChild q' with
    | none =>
      -- the node becomes the first child, still linked to its former sibling
      have hempty := hdisconnected.lists q'
      rw [hfirst] at hempty
      have hnil : without children p n q' = [] := hempty.unique (leads_nil.mpr rfl)
      rw [hfirst, hnil] at hlist
      exact Option.some_ne_none _ (hfollowing.symm.trans hlist.2)
    | some first =>
      -- the former last child is linked to the first one of the other node
      rw [hfirst] at hmoved
      obtain ⟨m, hm⟩ : ∃ m, moved children p n q' .prepend p = m ++ [b] := by
        have herase : without children p n p = l ++ r ++ [b] := by
          rw [without, Function.update_self, hchildren, erase_middle (hwell.nodup hchildren).1,
            List.append_assoc]
        by_cases hp : p = q'
        · subst hp
          rw [moved, Function.update_self, herase]
          exact ⟨n :: (l ++ r), rfl⟩
        · rw [moved, Function.update_of_ne hp, herase]
          exact ⟨_, rfl⟩
      have hend := hmoved.lists p
      rw [hm] at hend
      have hlink := hend.next_last
      change Function.update t'.nextSibling b (some first) b = none at hlink
      rw [Function.update_self] at hlink
      exact Option.some_ne_none _ hlink

/-- Disconnected and appended elsewhere, a child moves alone exactly when it was the last one. -/
theorem movesOnly_iff (hwell : t.WellFormed children) (hn : n ∈ children p)
    (hcall : call.Names t children p n)
    (happends : Appends (t.resetChildAppender p n).optionalChildAppender q q')
    (hparent : t.isParent q' = true) (houtside : ¬InSubtree children n q') :
    MovesOnly t children p n call place q q' ↔ (children p).getLast? = some n := by
  obtain ⟨l, r, hchildren⟩ := List.append_of_mem hn
  rcases List.eq_nil_or_concat r with rfl | ⟨r, b, rfl⟩
  · rw [hchildren, List.getLast?_concat]
    exact iff_of_true (hwell.movesOnly hchildren hcall happends hparent houtside) rfl
  · have hnr := (hwell.nodup hchildren).2.1
    rw [List.concat_eq_append] at hchildren hnr
    have hlast : (children p).getLast? = some b := by
      rw [hchildren, ← List.cons_append, ← List.append_assoc, List.getLast?_concat]
    refine iff_of_false (hwell.not_movesOnly hchildren (by simp) hcall happends) fun hsame => ?_
    obtain rfl := Option.some.inj (hlast.symm.trans hsame)
    exact hnr (List.mem_append_right _ List.mem_cons_self)

end Moving

/-! ### A root with two chains, the first of two registers -/

def twoChainsChildren : Nat → List Nat
  | 0 => [1, 2]
  | 1 => [3, 4]
  | _ => []

def twoChains : ModelTree where
  root := some 0
  name := fun node => toString node
  isParent := fun node => decide (node < 3)
  firstChild
    | 0 => some 1
    | 1 => some 3
    | _ => none
  nextSibling
    | 1 => some 2
    | 3 => some 4
    | _ => none
  optionalChildAppender := fun _ => none

theorem mem_twoChainsChildren (hmem : a ∈ twoChainsChildren p) :
    p = (a - 1) / 2 ∧ 0 < a ∧ a < 5 := by
  match p with
  | 0 => rcases List.mem_pair.mp hmem with rfl | rfl <;> decide
  | 1 => rcases List.mem_pair.mp hmem with rfl | rfl <;> decide
  | _ + 2 => exact absurd hmem List.not_mem_nil

theorem twoChains_wellFormed : twoChains.WellFormed twoChainsChildren where
  lists
    | 0 => ⟨rfl, rfl, rfl⟩
    | 1 => ⟨rfl, rfl, rfl⟩
    | _ + 2 => rfl
  hierarchy :=
    { oneParent := fun hp hq => (mem_twoChainsChildren hp).1.trans (mem_twoChainsChildren hq).1.symm
      wellFounded := Subrelation.wf
        (fun hmem => by
          obtain ⟨rfl, hpos, hsmall⟩ := mem_twoChainsChildren hmem
          change 5 - _ < 5 - _
          omega)
        (measure fun a => 5 - a).wf }
  parents
    | 0, h => absurd h (by decide)
    | 1, h => absurd h (by decide)
    | _ + 2, _ => rfl
  root := fun r hr p hmem => by
    obtain rfl := Option.some.inj hr
    exact absurd (mem_twoChainsChildren hmem).2.1 (by decide)

theorem not_inSubtree_twoChains (ha : 2 < a) : ¬InSubtree twoChainsChildren a 2 := by
  intro hbelow
  rcases hbelow.cases_head with rfl | ⟨c, hc, -⟩
  · exact absurd ha (by decide)
  · obtain ⟨rfl, -, hc⟩ := mem_twoChainsChildren hc
    omega

theorem movesOnly_second_register :
    MovesOnly twoChains twoChainsChildren 1 4 (.channel 2) .append 2 2 ↔
      (twoChainsChildren 1).getLast? = some 4 :=
  movesOnly_iff twoChains_wellFormed (by decide) ⟨by decide, rfl⟩ (.self rfl) rfl
    (not_inSubtree_twoChains (by decide))

/-- The first register, moved to the second chain, takes the second register along. -/
theorem not_movesOnly_first_register :
    twoChains.WellFormed twoChainsChildren ∧ 3 ∈ twoChainsChildren 1 ∧
      Appends (twoChains.resetChildAppender 1 3).optionalChildAppender 2 2 ∧
      ¬InSubtree twoChainsChildren 3 2 ∧
      ¬MovesOnly twoChains twoChainsChildren 1 3 .child .append 2 2 :=
  ⟨twoChains_wellFormed, by decide, .self rfl, not_inSubtree_twoChains (by decide),
    twoChains_wellFormed.not_movesOnly (l := []) (r := [4]) rfl (by decide) trivial (.self rfl)⟩

end ModelTree

end Mast
