import Mathlib

/-!
# Memo tables

A lookup may fail, find nothing or find a value. A memo table remembers the values found, by key, and answers for the lookup where it can. It is transparent when it agrees with the lookup; the rules say what keeps it so, and when a table may be kept for another lookup.
-/

namespace Memo

variable {ε κ ν : Type*} [BEq κ]

abbrev Table (κ ν : Type*) := List (κ × ν)

/-- What the table remembers for a key, or else what the lookup gives; only what was found is remembered. -/
def lookup (find : κ → Except ε (Option ν)) (table : Table κ ν) (key : κ) :
    Except ε (Option ν) × Table κ ν :=
  match List.lookup key table with
  | some value => (.ok (some value), table)
  | none =>
    match find key with
    | .ok (some value) => (.ok (some value), (key, value) :: table)
    | .ok none => (.ok none, table)
    | .error e => (.error e, table)

def Holds (table : Table κ ν) (key : κ) : Prop := (List.lookup key table).isSome

def Agrees (find : κ → Except ε (Option ν)) (table : Table κ ν) : Prop :=
  ∀ key value, List.lookup key table = some value → find key = .ok (some value)

variable {find find' : κ → Except ε (Option ν)} {table : Table κ ν}

theorem agrees_nil : Agrees find [] := by
  intro key value h
  cases h

theorem lookup_holds {key : κ} {value : ν} (h : List.lookup key table = some value) :
    lookup find table key = (.ok (some value), table) := by
  simp only [lookup, h]

/-- A table agrees with a lookup exactly when it cannot be told from the lookup. -/
theorem agrees_iff : Agrees find table ↔ ∀ key, (lookup find table key).1 = find key := by
  constructor
  · intro hagrees key
    cases hheld : List.lookup key table with
    | some value => rw [lookup_holds hheld, hagrees key value hheld]
    | none =>
      simp only [lookup, hheld]
      split <;> simp only [*]
  · intro hsame key value hheld
    rw [← hsame key, lookup_holds hheld]

theorem Agrees.lookup [LawfulBEq κ] (hagrees : Agrees find table) (key : κ) :
    Agrees find (lookup find table key).2 := by
  cases hheld : List.lookup key table with
  | some value =>
    rw [lookup_holds hheld]
    exact hagrees
  | none =>
    simp only [Memo.lookup, hheld]
    split
    next value hfound =>
      intro key' value' h
      rw [List.lookup_cons] at h
      split at h
      next hkey =>
        rw [beq_iff_eq.mp hkey, hfound, Option.some.inj h]
      next => exact hagrees key' value' h
    next => exact hagrees
    next => exact hagrees

/-- A table that agrees with one lookup agrees with another exactly when the two lookups give the same for the keys it holds. -/
theorem Agrees.congr_iff (hagrees : Agrees find table) :
    Agrees find' table ↔ ∀ key, Holds table key → find' key = find key := by
  constructor
  · intro hagrees' key hholds
    obtain ⟨value, hheld⟩ := Option.isSome_iff_exists.mp hholds
    rw [hagrees key value hheld, hagrees' key value hheld]
  · intro halike key value hheld
    have hholds : Holds table key := Option.isSome_iff_exists.mpr ⟨value, hheld⟩
    rw [halike key hholds, hagrees key value hheld]

end Memo
