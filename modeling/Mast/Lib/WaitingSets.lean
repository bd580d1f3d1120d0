import Mathlib.Data.Finset.Insert
import Mathlib.Data.Finset.Erase

/-!
# Who waits for what

Clients wait for keys. What is told twice: each client has the set of the keys it waits for, and a list of pairs names the clients that wait for a key. A client enters itself in both; once a key is served, it is taken out of the sets of the clients that the list names, and the list forgets it. As long as nothing else is done to them, both tell the same.
-/

namespace WaitingSets

variable {Key Client δ : Type*}

/-- The list has a pair for each key of each set, and has it once. -/
structure Agree (keys : Client → Finset Key) (entries : List (Key × Client)) : Prop where
  mem_iff (key : Key) (client : Client) : (key, client) ∈ entries ↔ key ∈ keys client
  nodup : entries.Nodup

theorem foldl_update [DecidableEq Client] {f : δ → δ} (hagain : ∀ d, f (f d) = f d)
    (clients : List Client) (data : Client → δ) (client : Client) :
    clients.foldl (fun data c => Function.update data c (f (data c))) data client =
      if client ∈ clients then f (data client) else data client := by
  induction clients generalizing data with
  | nil => rfl
  | cons first rest ih =>
    rw [List.foldl_cons, ih]
    by_cases hfirst : client = first
    · subst hfirst
      rw [Function.update_self, hagain, ite_self, if_pos List.mem_cons_self]
    · rw [Function.update_of_ne hfirst]
      simp only [List.mem_cons, hfirst, false_or]

namespace Agree

variable {keys : Client → Finset Key} {entries : List (Key × Client)}

theorem empty : Agree (fun _ : Client => (∅ : Finset Key)) [] :=
  ⟨fun key client => by simp, List.nodup_nil⟩

variable [DecidableEq Key]

theorem enter (h : Agree keys entries) {keys' : Client → Finset Key} {key : Key} {client : Client}
    (hnew : key ∉ keys client) (hself : keys' client = insert key (keys client))
    (hothers : ∀ other, other ≠ client → keys' other = keys other) :
    Agree keys' (entries ++ [(key, client)]) where
  mem_iff other otherClient := by
    rw [List.mem_append, List.mem_singleton, h.mem_iff]
    by_cases hclient : otherClient = client
    · subst hclient
      rw [hself, Finset.mem_insert, Prod.mk.injEq]
      tauto
    · rw [hothers otherClient hclient, Prod.mk.injEq]
      tauto
  nodup := by
    have hfresh : (key, client) ∉ entries := fun hmem => hnew ((h.mem_iff key client).mp hmem)
    rw [List.nodup_append]
    refine ⟨h.nodup, List.nodup_singleton _, fun entry hentry other hother => ?_⟩
    rw [List.mem_singleton.mp hother]
    intro hsame
    exact hfresh (hsame ▸ hentry)

/-- The clients that the list names for a key are those whose sets have it. -/
theorem mem_waiting (h : Agree keys entries) (key : Key) (client : Client) :
    client ∈ (entries.filter (·.1 = key)).map Prod.snd ↔ key ∈ keys client := by
  rw [← h.mem_iff, List.mem_map]
  constructor
  · intro ⟨⟨other, otherClient⟩, hmem, hclient⟩
    obtain ⟨hentry, hkey⟩ := List.mem_filter.mp hmem
    obtain rfl : other = key := of_decide_eq_true hkey
    obtain rfl : otherClient = client := hclient
    exact hentry
  · intro hentry
    exact ⟨(key, client), List.mem_filter.mpr ⟨hentry, decide_eq_true rfl⟩, rfl⟩

theorem serve (h : Agree keys entries) {keys' : Client → Finset Key} {key : Key}
    (hserved : ∀ client, keys' client = (keys client).erase key) :
    Agree keys' (entries.filter (·.1 ≠ key)) where
  mem_iff other client := by
    rw [List.mem_filter, h.mem_iff, hserved, Finset.mem_erase, decide_eq_true_eq]
    exact and_comm
  nodup := h.nodup.filter _

end Agree

end WaitingSets
