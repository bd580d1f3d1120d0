import Mathlib

/-!
# Breadth-first visits

A node shows some values and leads on to smaller nodes. The breadth-first visit of a queue of nodes takes the nodes in turn and puts those they lead to at the end of the queue. It lists exactly the values that are shown by a node that can be reached from the queue.
-/

/-- What nodes show and where they lead; the nodes that a node leads to are together smaller. -/
structure BreadthFirst (α β : Type*) where
  shown : α → List β
  next : α → List α
  size : α → Nat
  next_size (a : α) : ((next a).map size).sum < size a

namespace BreadthFirst

variable {α β : Type*} (g : BreadthFirst α β)

/-- The values that the nodes of a queue and those beyond them show, in the order of the visit. -/
def visit : List α → List β
  | [] => []
  | a :: queue => g.shown a ++ visit (queue ++ g.next a)
termination_by queue => (queue.map g.size).sum
decreasing_by
  have hsize := g.next_size a
  simp only [List.map_append, List.sum_append, List.map_cons, List.sum_cons]
  omega

inductive Shows (g : BreadthFirst α β) : α → β → Prop
  | here {a : α} {b : β} (hshown : b ∈ g.shown a) : Shows g a b
  | beyond {a a' : α} {b : β} (hnext : a' ∈ g.next a) (h : Shows g a' b) : Shows g a b

variable {g}

theorem mem_visit {queue : List α} {b : β} : b ∈ g.visit queue ↔ ∃ a ∈ queue, g.Shows a b := by
  induction queue using visit.induct g with
  | case1 => simp [visit]
  | case2 a queue ih =>
    rw [visit, List.mem_append, ih]
    constructor
    · rintro (hshown | ⟨a', hmem, hshows⟩)
      · exact ⟨a, List.mem_cons_self, .here hshown⟩
      · rcases List.mem_append.mp hmem with hqueue | hnext
        · exact ⟨a', List.mem_cons_of_mem a hqueue, hshows⟩
        · exact ⟨a, List.mem_cons_self, .beyond hnext hshows⟩
    · intro ⟨a', hmem, hshows⟩
      rcases List.mem_cons.mp hmem with rfl | hqueue
      · cases hshows with
        | here hshown => exact .inl hshown
        | beyond hnext h => exact .inr ⟨_, List.mem_append_right queue hnext, h⟩
      · exact .inr ⟨a', List.mem_append_left _ hqueue, hshows⟩

end BreadthFirst
