import Mathlib.Data.List.Basic

/-!
# Lists with filler

`Interleaved Filler items list` says that `list` holds `items`, in order, with elements that satisfy `Filler` before, between and after them. A reader that skips filler gets the same result from `list` as from `items`.
-/

namespace Interleaving

inductive Interleaved {α : Type*} (Filler : α → Prop) : List α → List α → Prop
  | nil : Interleaved Filler [] []
  | item {items list : List α} (a : α) (h : Interleaved Filler items list) :
      Interleaved Filler (a :: items) (a :: list)
  | filler {items list : List α} {a : α} (ha : Filler a) (h : Interleaved Filler items list) :
      Interleaved Filler items (a :: list)

namespace Interleaved

variable {α : Type*} {Filler : α → Prop}

theorem refl (items : List α) : Interleaved Filler items items := by
  induction items with
  | nil => exact .nil
  | cons a rest ih => exact .item a ih

theorem append {items items' list list' : List α} (h : Interleaved Filler items list)
    (h' : Interleaved Filler items' list') :
    Interleaved Filler (items ++ items') (list ++ list') := by
  induction h with
  | nil => exact h'
  | item a _ ih => exact .item a ih
  | filler ha _ ih => exact .filler ha ih

theorem of_filler {list : List α} (hlist : ∀ a ∈ list, Filler a) : Interleaved Filler [] list := by
  induction list with
  | nil => exact .nil
  | cons a rest ih =>
    exact .filler (hlist a List.mem_cons_self) (ih fun b hb => hlist b (List.mem_cons_of_mem a hb))

theorem mono {Filler' : α → Prop} {items list : List α} (h : Interleaved Filler items list)
    (himp : ∀ a, Filler a → Filler' a) : Interleaved Filler' items list := by
  induction h with
  | nil => exact .nil
  | item a _ ih => exact .item a ih
  | filler ha _ ih => exact .filler (himp _ ha) ih

theorem mem {items list : List α} (h : Interleaved Filler items list) {a : α} (ha : a ∈ list) :
    a ∈ items ∨ Filler a := by
  induction h with
  | nil => simp at ha
  | item b _ ih =>
    rcases List.mem_cons.mp ha with rfl | hrest
    · exact .inl List.mem_cons_self
    · exact (ih hrest).imp_left (List.mem_cons_of_mem b)
  | filler hb _ ih =>
    rcases List.mem_cons.mp ha with rfl | hrest
    · exact .inr hb
    · exact ih hrest

theorem length_le {items list : List α} (h : Interleaved Filler items list) :
    items.length ≤ list.length := by
  induction h with
  | nil => exact Nat.le_refl _
  | item _ _ ih => exact Nat.succ_le_succ ih
  | filler _ _ ih => exact Nat.le_succ_of_le ih

/-- Skipping elements that are no items skips filler only. -/
theorem dropWhile {items list : List α} (h : Interleaved Filler items list) {p : α → Bool}
    (hitems : ∀ a ∈ items, p a = false) : Interleaved Filler items (list.dropWhile p) := by
  induction h with
  | nil => exact .nil
  | item a h _ =>
    rw [List.dropWhile_cons_of_neg (by simp [hitems a List.mem_cons_self])]
    exact .item a h
  | @filler _ list b hb h ih =>
    by_cases hskip : p b = true
    · rw [List.dropWhile_cons_of_pos hskip]
      exact ih hitems
    · rw [List.dropWhile_cons_of_neg hskip]
      exact .filler hb h

theorem nil_left {list : List α} (h : Interleaved Filler [] list) : ∀ a ∈ list, Filler a :=
  fun _ ha => (h.mem ha).resolve_left (List.not_mem_nil)

theorem dropLast {items front : List α} {last : α}
    (h : Interleaved Filler items (front ++ [last])) (hlast : ¬Filler last) :
    Interleaved Filler items.dropLast front := by
  induction front generalizing items with
  | nil =>
    cases h with
    | item _ h =>
      cases h
      exact .nil
    | filler ha _ => exact absurd ha hlast
  | cons b front ih =>
    cases h with
    | @item items _ _ h =>
      have hne : items ≠ [] := by
        rintro rfl
        exact hlast (h.nil_left last (by simp))
      rw [List.dropLast_cons_of_ne_nil hne]
      exact .item b (ih h)
    | filler ha h => exact .filler ha (ih h)

theorem dropLast_filler {items front : List α} {last : α}
    (h : Interleaved Filler items (front ++ [last])) (hlast : last ∉ items) :
    Interleaved Filler items front := by
  induction front generalizing items with
  | nil =>
    cases h with
    | item _ h => exact absurd List.mem_cons_self hlast
    | filler _ h =>
      cases h
      exact .nil
  | cons b front ih =>
    cases h with
    | item _ h => exact .item b (ih h fun hmem => hlast (List.mem_cons_of_mem b hmem))
    | filler ha h => exact .filler ha (ih h hlast)

end Interleaved

end Interleaving
