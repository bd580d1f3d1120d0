import Mast.Checker.Visits

/-!
# Walks are searches

Without what it reports, a walk is the depth-first search of the links, whose marks are at the managed nodes that have been found. So the walk from the root comes to its end exactly when the search arrives at no place on a circle.
-/

namespace Mast.NodeGraph

open Relation SiblingLists DepthFirst

variable {g : NodeGraph} {root p q n m : Nat} {start link : Option Nat} {c c₁ c' : SystemModelChecker}
  {marked marked' : List Nat} {rest : List (Nat × Nat)} {x y : Nat × Nat}

/-- The search has left its marks at the nodes that the checker has found. -/
def Agrees (g : NodeGraph) (c : SystemModelChecker) (marked : List Nat) : Prop :=
  ∀ n, g.Managed n → (n ∈ marked ↔ ∃ q, g.parentOf c n = some q)

theorem agrees_nil (hnone : ∀ n, g.parentOf c n = none) : g.Agrees c [] := by
  intro n _
  simp [hnone n]

theorem exists_agrees (c : SystemModelChecker) : ∃ marked, g.Agrees c marked := by
  refine ⟨g.identifierMapping.reduceOption.filter fun n => (g.parentOf c n).isSome, fun n hn => ?_⟩
  rw [List.mem_filter, List.reduceOption_mem_iff, Option.isSome_iff_exists]
  exact and_iff_right (List.mem_of_getElem? hn)

theorem Agrees.adopt (hmarked : g.Agrees c marked) (hn : g.Managed n) :
    g.Agrees (g.adopt p n c) (n :: marked) := by
  intro m hm
  by_cases hne : m = n
  · subst hne
    exact ⟨fun _ => ⟨p, parentOf_adopt_self⟩, fun _ => List.mem_cons_self⟩
  · rw [parentOf_adopt hn hm hne, List.mem_cons, or_iff_right hne]
    exact hmarked m hm

theorem Agrees.findAgain (hmarked : g.Agrees c marked) (hn : g.Managed n)
    (hq : g.parentOf c n = some q) : g.Agrees (g.findAgain p n q c) marked := by
  intro m hm
  rw [parentOf_findAgain hn hm hq]
  exact hmarked m hm

/-! ### Steps of the search -/

theorem mark_unnoticed (h : g.Unnoticed p n) : g.search.mark (p, n) = none :=
  if_pos h

theorem mark_managed (hne : n ≠ p) (hmanaged : g.Managed n) : g.search.mark (p, n) = some n :=
  if_neg (not_or.mpr ⟨hne, not_not.mpr hmanaged⟩)

theorem next_self : g.search.next (p, p) = places p (g.nextSibling p) := by
  simp [search]

theorem next_of_ne (hne : n ≠ p) :
    g.search.next (p, n) = places n (g.below n) ++ places p (g.nextSibling n) := by
  simp [search, hne]

theorem advance_itself :
    g.search.advance ⟨(p, p) :: rest, marked⟩ = ⟨places p (g.nextSibling p) ++ rest, marked⟩ := by
  rw [Graph.advance_unmarked (mark_unnoticed (.inl rfl)), next_self]

theorem advance_unmanaged (hne : n ≠ p) (hmanaged : ¬g.Managed n) :
    g.search.advance ⟨(p, n) :: rest, marked⟩ =
      ⟨places n (g.below n) ++ (places p (g.nextSibling n) ++ rest), marked⟩ := by
  rw [Graph.advance_unmarked (mark_unnoticed (.inr hmanaged)), next_of_ne hne, List.append_assoc]

theorem advance_managed (hne : n ≠ p) (hmanaged : g.Managed n) (hn : n ∉ marked) :
    g.search.advance ⟨(p, n) :: rest, marked⟩ =
      ⟨places n (g.below n) ++ (places p (g.nextSibling n) ++ rest), n :: marked⟩ := by
  rw [Graph.advance_first (mark_managed hne hmanaged) hn, next_of_ne hne, List.append_assoc]

/-! ### From walks to searches -/

theorem finishes_place
    (hrest : g.search.Finishes (g.search.advance ⟨(p, n) :: rest, marked⟩) marked') :
    g.search.Finishes ⟨places p (some n) ++ rest, marked⟩ marked' :=
  .advance hrest

/-- The search goes the way of the walk, and on to what is pending behind it. -/
theorem Walks.searches (hwalk : g.Walks p start c c') (hmarked : g.Agrees c marked) :
    ∃ marked₁, g.Agrees c' marked₁ ∧ ∀ rest marked',
      g.search.Finishes ⟨rest, marked₁⟩ marked' →
        g.search.Finishes ⟨places p start ++ rest, marked⟩ marked' := by
  induction hwalk generalizing marked with
  | stop p c => exact ⟨marked, hmarked, fun rest marked' h => h⟩
  | itself hrest ih =>
    obtain ⟨marked₁, hmarked₁, hgoes⟩ := ih hmarked
    refine ⟨marked₁, hmarked₁, fun rest marked' h => finishes_place ?_⟩
    rw [advance_itself]
    exact hgoes rest marked' h
  | again hne hmanaged hparent =>
    refine ⟨marked, hmarked.findAgain hmanaged hparent, fun rest marked' h => finishes_place ?_⟩
    rw [Graph.advance_again (mark_managed hne hmanaged) ((hmarked _ hmanaged).mpr ⟨_, hparent⟩)]
    exact h
  | unmanaged hne hmanaged haccept hbelow hrest ihbelow ihrest =>
    obtain ⟨marked₁, hmarked₁, hdown⟩ := ihbelow hmarked
    obtain ⟨marked₂, hmarked₂, hon⟩ := ihrest hmarked₁
    refine ⟨marked₂, hmarked₂, fun rest marked' h => finishes_place ?_⟩
    rw [advance_unmanaged hne hmanaged]
    exact hdown _ marked' (hon rest marked' h)
  | @first p n c c₁ c' findings hne hmanaged hparent haccept hbelow hrest ihbelow ihrest =>
    have hn : n ∉ marked := by
      rw [hmarked n hmanaged, hparent]
      exact nofun
    obtain ⟨marked₁, hmarked₁, hdown⟩ := ihbelow (hmarked.adopt hmanaged)
    obtain ⟨marked₂, hmarked₂, hon⟩ := ihrest hmarked₁
    refine ⟨marked₂, hmarked₂, fun rest marked' h => finishes_place ?_⟩
    rw [advance_managed hne hmanaged hn]
    exact hdown _ marked' (hon rest marked' h)

theorem Walks.finishes (hwalk : g.Walks p start c c') (hmarked : g.Agrees c marked) :
    ∃ marked', g.search.Finishes ⟨places p start, marked⟩ marked' := by
  obtain ⟨marked₁, -, hgoes⟩ := hwalk.searches hmarked
  have hfinishes := hgoes [] marked₁ (.done marked₁)
  rw [List.append_nil] at hfinishes
  exact ⟨marked₁, hfinishes⟩

/-- A walk that ends is on no circle. -/
theorem Walks.not_onCircle (hwalk : g.Walks p (some n) c c') : ¬g.search.OnCircle (p, n) := by
  obtain ⟨marked, hmarked⟩ := g.exists_agrees c
  obtain ⟨marked', hfinishes⟩ := hwalk.finishes hmarked
  exact hfinishes.not_onCircle List.mem_cons_self

theorem Walks.not_onCircle_of_arrives (hwalk : g.Walks root (g.below root) c c')
    (hnone : ∀ n, g.parentOf c n = none) (hx : g.Arrives root x) : ¬g.search.OnCircle x := by
  obtain ⟨marked', hfinishes⟩ := hwalk.finishes (agrees_nil hnone)
  exact hfinishes.not_onCircle_of_arrives hx

/-! ### From searches to walks -/

def WalksAll (g : NodeGraph) : List (Nat × Nat) → SystemModelChecker → SystemModelChecker → Prop
  | [], c, c' => c' = c
  | (p, n) :: rest, c, c' => ∃ c₁, g.Walks p (some n) c c₁ ∧ g.WalksAll rest c₁ c'

/-- The walk along a link, before those from the other places. -/
theorem WalksAll.along (h : g.WalksAll (places p link ++ rest) c c') :
    ∃ c₁, g.Walks p link c c₁ ∧ g.WalksAll rest c₁ c' := by
  cases link with
  | none => exact ⟨c, .stop p c, h⟩
  | some n => exact h

/-- A parent and one of its children, below the root. -/
def IsPlace (g : NodeGraph) (root : Nat) (x : Nat × Nat) : Prop :=
  g.Reached root x.1 ∧ g.ChildOf x.1 x.2

theorem IsPlace.next (hx : g.IsPlace root (p, n)) (hy : y ∈ g.search.next (p, n)) :
    g.IsPlace root y := by
  obtain ⟨q, m⟩ := y
  have hon (hm : (q, m) ∈ places p (g.nextSibling n)) : g.IsPlace root (q, m) := by
    obtain ⟨hsame, hlink⟩ := mem_places.mp hm
    obtain rfl : q = p := hsame
    exact ⟨hx.1, hx.2.next hlink⟩
  by_cases hne : n = p
  · subst hne
    rw [next_self] at hy
    exact hon hy
  · rw [next_of_ne hne] at hy
    rcases List.mem_append.mp hy with hm | hm
    · obtain ⟨hsame, hlink⟩ := mem_places.mp hm
      obtain rfl : q = n := hsame
      have hfirst := below_eq_some.mp hlink
      exact ⟨hx.1.child hx.2, childOf_first hfirst.1 hfirst.2⟩
    · exact hon hm

theorem isPlace_root (hx : x ∈ places root (g.below root)) : g.IsPlace root x := by
  obtain ⟨p, n⟩ := x
  obtain ⟨hsame, hn⟩ := mem_places.mp hx
  obtain rfl : p = root := hsame
  exact ⟨ReflTransGen.refl, childOf_first (below_eq_some.mp hn).1 (below_eq_some.mp hn).2⟩

/-- Where the search finishes the walk does, when the nodes that it visits are accepted. -/
theorem walksAll_of_finishes {s : DepthFirst.Search (Nat × Nat) Nat}
    (hfinishes : g.search.Finishes s marked')
    (haccept : ∀ n, g.Reached root n → ∃ findings, g.accept n = .ok findings)
    (hplaces : ∀ x ∈ s.pending, g.IsPlace root x) (hmarked : g.Agrees c s.marked) :
    ∃ c', g.WalksAll s.pending c c' := by
  induction hfinishes generalizing c with
  | done marked => exact ⟨c, rfl⟩
  | @advance x rest marked marked' hrest ih =>
    obtain ⟨p, n⟩ := x
    obtain ⟨hplace, hplaces⟩ := List.forall_mem_cons.mp hplaces
    obtain ⟨findings, hfindings⟩ := haccept n (hplace.1.child hplace.2)
    have hnext (y : Nat × Nat) (hy : y ∈ (g.search.advance ⟨(p, n) :: rest, marked⟩).pending) :
        g.IsPlace root y := by
      rcases Graph.mem_advance hy with hy | hy
      · exact hplace.next hy
      · exact hplaces y hy
    by_cases hne : n = p
    · subst hne
      rw [advance_itself] at ih hnext
      obtain ⟨c', hall⟩ := ih hnext (c := c.report [.appendedIntoItself n]) hmarked
      obtain ⟨c₁, hwalk, hall⟩ := hall.along
      exact ⟨c', c₁, .itself hwalk, hall⟩
    by_cases hmanaged : g.Managed n
    · cases hparent : g.parentOf c n with
      | some q =>
        have hn : n ∈ marked := (hmarked n hmanaged).mpr ⟨q, hparent⟩
        rw [Graph.advance_again (mark_managed hne hmanaged) hn] at ih hnext
        obtain ⟨c', hall⟩ := ih hnext (c := g.findAgain p n q c) (hmarked.findAgain hmanaged hparent)
        exact ⟨c', _, .again hne hmanaged hparent, hall⟩
      | none =>
        have hn : n ∉ marked := by
          rw [hmarked n hmanaged, hparent]
          exact nofun
        rw [advance_managed hne hmanaged hn] at ih hnext
        obtain ⟨c', hall⟩ := ih hnext (c := (g.adopt p n c).report (findings ++ g.childless n))
          (hmarked.adopt hmanaged)
        obtain ⟨c₁, hbelow, hall⟩ := hall.along
        obtain ⟨c₂, hwalk, hall⟩ := hall.along
        exact ⟨c', c₂, .first hne hmanaged hparent hfindings hbelow hwalk, hall⟩
    · rw [advance_unmanaged hne hmanaged] at ih hnext
      obtain ⟨c', hall⟩ := ih hnext
        (c := c.report (g.unmanaged n :: (findings ++ g.childless n))) hmarked
      obtain ⟨c₁, hbelow, hall⟩ := hall.along
      obtain ⟨c₂, hwalk, hall⟩ := hall.along
      exact ⟨c', c₂, .unmanaged hne hmanaged hfindings hbelow hwalk, hall⟩

/-! ### The walk from the root -/

/-- The places of a graph are finitely many. -/
def allPlaces (g : NodeGraph) : Finset (Nat × Nat) :=
  Finset.range g.nodesCount ×ˢ Finset.range g.nodesCount

theorem IsPlace.mem_allPlaces (hroot : g.root = some root) (hx : g.IsPlace root x) :
    x ∈ g.allPlaces :=
  Finset.mem_product.mpr
    ⟨Finset.mem_range.mpr (hx.1.lt hroot), Finset.mem_range.mpr hx.2.lt⟩

theorem Checkable.accept_ok (h : g.Checkable root) (hn : g.Reached root n) :
    ∃ findings, g.accept n = .ok findings := by
  rw [accept]
  cases hkind : g.kind n with
  | linker selector =>
    obtain ⟨count, hcount⟩ := exists_directChildrenCount.mpr (h.linkers n selector hn hkind)
    dsimp only
    rw [visitLinker, hcount]
    exact ⟨_, rfl⟩
  | accessInterface | accessInterfaceTranslator | chain | register | streamer => exact ⟨_, rfl⟩

theorem Checkable.walks (h : g.Checkable root) (hroot : g.root = some root)
    (hnone : ∀ n, g.parentOf c n = none) : ∃ c', g.Walks root (g.below root) c c' := by
  classical
  obtain ⟨marked', hfinishes⟩ := Graph.finishes_of_not_onCircle
    (s := ⟨places root (g.below root), []⟩) (g.allPlaces.filter (g.IsPlace root))
    (fun x hx y hy => by
      have hplace := (Finset.mem_filter.mp hx).2.next hy
      exact Finset.mem_filter.mpr ⟨hplace.mem_allPlaces hroot, hplace⟩)
    (fun x hx => Finset.mem_filter.mpr
      ⟨(isPlace_root hx).mem_allPlaces hroot, isPlace_root hx⟩)
    h.noCircle
  obtain ⟨c', hall⟩ := walksAll_of_finishes hfinishes (fun n => h.accept_ok)
    (fun x => isPlace_root) (agrees_nil hnone)
  rw [← List.append_nil (places root (g.below root))] at hall
  obtain ⟨c₁, hwalk, -⟩ := hall.along
  exact ⟨c₁, hwalk⟩

end Mast.NodeGraph
