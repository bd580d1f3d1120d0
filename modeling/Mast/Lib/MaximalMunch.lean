import Mathlib.Data.List.Basic

/-!
# Scanning by the longest match

A scanner has rules. At each place of a text it takes the rule with the longest lexeme, the first one among equals, and goes on after that lexeme. Where no rule matches it drops one character.

A text that is put together from lexemes is scanned piece by piece, provided that no lexeme could go on into the next piece. `Scans` says this for all that may follow: what starts with a character of `Stop`.
-/

namespace MaximalMunch

variable {α τ : Type*}

structure Rule (α τ : Type*) where
  /-- The length of the longest lexeme at the start of a text, zero when there is none. -/
  length : List α → Nat
  /-- What is returned for a lexeme; nothing when it is dropped. -/
  action : List α → Option τ

def longest (text : List α) : List (Rule α τ) → Option (Rule α τ)
  | [] => none
  | rule :: rules =>
    match longest text rules with
    | some other => if other.length text ≤ rule.length text then some rule else some other
    | none => if 0 < rule.length text then some rule else none

/-- The tokens of a text, whose first `inside` characters belong to a lexeme already seen. -/
def scanFrom (rules : List (Rule α τ)) : (inside : Nat) → List α → List τ
  | _, [] => []
  | inside + 1, _ :: text => scanFrom rules inside text
  | 0, a :: text =>
    match longest (a :: text) rules with
    | some rule =>
      (rule.action ((a :: text).take (rule.length (a :: text)))).toList ++
        scanFrom rules (rule.length (a :: text) - 1) text
    | none => scanFrom rules 0 text

def scan (rules : List (Rule α τ)) (text : List α) : List τ := scanFrom rules 0 text

/-! ### One lexeme -/

theorem longest_of_only {text : List α} {rules : List (Rule α τ)} {rule : Rule α τ}
    (hmem : rule ∈ rules) (hpos : 0 < rule.length text)
    (honly : ∀ other ∈ rules, other ≠ rule → other.length text = 0) :
    longest text rules = some rule := by
  have hnone : ∀ rules : List (Rule α τ), (∀ other ∈ rules, other.length text = 0) →
      longest text rules = none := by
    intro rules hzero
    induction rules with
    | nil => rfl
    | cons other rules ih =>
      rw [longest, ih fun o ho => hzero o (List.mem_cons_of_mem _ ho)]
      simp [hzero other List.mem_cons_self]
  induction rules with
  | nil => exact absurd hmem List.not_mem_nil
  | cons other rules ih =>
    have hrest := fun o ho => honly o (List.mem_cons_of_mem _ ho)
    by_cases hin : rule ∈ rules
    · rw [longest, ih hin hrest]
      by_cases heq : other = rule
      · rw [heq]
        simp
      · have hzero := honly other List.mem_cons_self heq
        simp [hzero, Nat.not_le.mpr hpos]
    · obtain rfl : rule = other := (List.mem_cons.mp hmem).resolve_right hin
      rw [longest, hnone rules fun o ho => hrest o ho fun heq => hin (heq ▸ ho)]
      simp [hpos]

theorem longest_mem {text : List α} {rules : List (Rule α τ)} {rule : Rule α τ}
    (hlongest : longest text rules = some rule) : rule ∈ rules := by
  induction rules with
  | nil => cases hlongest
  | cons first rules ih =>
    rw [longest] at hlongest
    cases hrest : longest text rules with
    | none =>
      rw [hrest] at hlongest
      simp only [Option.ite_none_right_eq_some, Option.some.injEq] at hlongest
      exact hlongest.2 ▸ List.mem_cons_self
    | some other =>
      rw [hrest] at hlongest
      simp only at hlongest
      split_ifs at hlongest
      · exact Option.some.inj hlongest ▸ List.mem_cons_self
      · rw [Option.some.inj hlongest] at hrest
        exact List.mem_cons_of_mem _ (ih hrest)

/-- The first of the rules with the longest lexeme. -/
theorem longest_of_maximal {text : List α} {front back : List (Rule α τ)} {rule : Rule α τ}
    (hpos : 0 < rule.length text) (hfront : ∀ other ∈ front, other.length text < rule.length text)
    (hback : ∀ other ∈ back, other.length text ≤ rule.length text) :
    longest text (front ++ rule :: back) = some rule := by
  induction front with
  | nil =>
    rw [List.nil_append, longest]
    cases hrest : longest text back with
    | none => exact if_pos hpos
    | some other => exact if_pos (hback other (longest_mem hrest))
  | cons first front ih =>
    rw [List.cons_append, longest, ih fun o ho => hfront o (List.mem_cons_of_mem _ ho)]
    exact if_neg (Nat.not_le.mpr (hfront first List.mem_cons_self))

theorem longest_none {text : List α} {rules : List (Rule α τ)}
    (hzero : ∀ rule ∈ rules, rule.length text = 0) : longest text rules = none := by
  induction rules with
  | nil => rfl
  | cons rule rules ih =>
    rw [longest, ih fun o ho => hzero o (List.mem_cons_of_mem _ ho)]
    simp [hzero rule List.mem_cons_self]

theorem scanFrom_append (rules : List (Rule α τ)) (inside text : List α) :
    scanFrom rules inside.length (inside ++ text) = scan rules text := by
  induction inside with
  | nil => rfl
  | cons a inside ih => exact ih

theorem scan_dropped {rules : List (Rule α τ)} {a : α} {text : List α}
    (hnone : longest (a :: text) rules = none) : scan rules (a :: text) = scan rules text := by
  rw [scan, scanFrom, hnone]
  rfl

theorem scan_lexeme {rules : List (Rule α τ)} {rule : Rule α τ} {lexeme text : List α}
    (hne : lexeme ≠ []) (hlongest : longest (lexeme ++ text) rules = some rule)
    (hlength : rule.length (lexeme ++ text) = lexeme.length) :
    scan rules (lexeme ++ text) = (rule.action lexeme).toList ++ scan rules text := by
  obtain ⟨a, inside, rfl⟩ := List.exists_cons_of_ne_nil hne
  have hinside : (a :: inside).length - 1 = inside.length := by simp
  rw [List.cons_append] at *
  rw [scan, scanFrom, hlongest]
  simp only [hlength, hinside, scanFrom_append]
  rw [← List.cons_append, List.take_left]

/-! ### Pieces of a text -/

/-- The text is empty, or it starts with a character where lexemes stop. -/
def StopsAt (Stop : α → Prop) (text : List α) : Prop := ∀ a, text.head? = some a → Stop a

/-- A piece gives these tokens whatever follows it, provided that lexemes stop there. -/
def Scans (rules : List (Rule α τ)) (Stop : α → Prop) (piece : List α) (tokens : List τ) : Prop :=
  ∀ text, StopsAt Stop text → scan rules (piece ++ text) = tokens ++ scan rules text

variable {rules : List (Rule α τ)} {Stop : α → Prop} {piece piece' : List α} {tokens tokens' : List τ}

theorem StopsAt.nil : StopsAt Stop ([] : List α) := fun _ ha => absurd ha (by simp)

theorem StopsAt.cons {a : α} (ha : Stop a) (text : List α) : StopsAt Stop (a :: text) := by
  intro b hb
  obtain rfl : a = b := by simpa using hb
  exact ha

theorem StopsAt.append {text text' : List α} (h : StopsAt Stop text) (h' : StopsAt Stop text') :
    StopsAt Stop (text ++ text') := by
  cases text with
  | nil => exact h'
  | cons a text => exact .cons (h a rfl) _

theorem Scans.nil : Scans rules Stop [] [] := fun _ _ => rfl

theorem Scans.append (h : Scans rules Stop piece tokens) (hstop : StopsAt Stop piece')
    (h' : Scans rules Stop piece' tokens') :
    Scans rules Stop (piece ++ piece') (tokens ++ tokens') := by
  intro text htext
  rw [List.append_assoc, h _ (hstop.append htext), h' text htext, List.append_assoc]

theorem Scans.lexeme {rule : Rule α τ} (hmem : rule ∈ rules) (hne : piece ≠ [])
    (hlength : ∀ text, StopsAt Stop text → rule.length (piece ++ text) = piece.length)
    (honly : ∀ text, StopsAt Stop text →
      ∀ other ∈ rules, other ≠ rule → other.length (piece ++ text) = 0) :
    Scans rules Stop piece (rule.action piece).toList := by
  intro text htext
  refine scan_lexeme hne (longest_of_only hmem ?_ (honly text htext)) (hlength text htext)
  rw [hlength text htext]
  exact List.length_pos_iff.mpr hne

theorem Scans.after_dropped {dropped : List α}
    (hzero : ∀ a ∈ dropped, ∀ text, ∀ rule ∈ rules, rule.length (a :: text) = 0)
    (h : Scans rules Stop piece tokens) : Scans rules Stop (dropped ++ piece) tokens := by
  induction dropped with
  | nil => exact h
  | cons a dropped ih =>
    intro text htext
    rw [List.cons_append, List.cons_append,
      scan_dropped (longest_none (hzero a List.mem_cons_self _))]
    exact ih (fun b hb => hzero b (List.mem_cons_of_mem a hb)) text htext

theorem Scans.scan_eq (h : Scans rules Stop piece tokens) : scan rules piece = tokens := by
  have hall := h [] .nil
  simpa [scan, scanFrom] using hall

end MaximalMunch
