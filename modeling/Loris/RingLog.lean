import Mathlib.Data.List.Induction
/-!
# RingLog — what a ring of `size` cells holds of a sequence

The entries of a sequence are written one after another into cells `0, 1, …, size - 1, 0, 1, …`.  Cell `k` then holds
the latest entry whose number is congruent to `k`.
-/
namespace RingLog

variable {α : Type} {size k n : Nat} {l : List α} {a : α}

/-- The latest entry of `l` whose number is congruent to `k`. -/
def latest (size k : Nat) (l : List α) : Option α := ((l.zipIdx.filter fun e => e.2 % size = k).getLast?).map Prod.fst

@[simp] theorem latest_nil : latest size k ([] : List α) = none := rfl

/-- **One more entry** fills one cell. -/
theorem latest_concat (size k : Nat) (l : List α) (a : α) :
    latest size k (l ++ [a]) = if l.length % size = k then some a else latest size k l := by
  unfold latest
  rw [List.zipIdx_append, List.filter_append, Nat.zero_add]
  split
  · next h => simp [h]
  · next h => simp [h]

/-- **No later number of the class**: what the latest entry is. -/
theorem latest_eq_some (hn : n < l.length) (hk : n % size = k)
    (hlast : ∀ i, n < i → i < l.length → i % size ≠ k) : latest size k l = some l[n] := by
  induction l using List.reverseRecOn with
  | nil => exact absurd hn (Nat.not_lt_zero n)
  | append_singleton l a ih =>
    rw [List.length_append, List.length_singleton] at hn hlast
    rw [latest_concat]
    by_cases he : n = l.length
    · subst he
      rw [if_pos hk, List.getElem_concat_length rfl]
    · have hn' : n < l.length := by omega
      rw [if_neg (hlast l.length hn' (Nat.lt_succ_self _)), List.getElem_append_left hn']
      exact ih hn' fun i h1 h2 => hlast i h1 (by omega)

theorem latest_eq_none (h : ∀ i, i < l.length → i % size ≠ k) : latest size k l = none := by
  induction l using List.reverseRecOn with
  | nil => rfl
  | append_singleton l a ih =>
    rw [List.length_append, List.length_singleton] at h
    rw [latest_concat, if_neg (h l.length (Nat.lt_succ_self _))]
    exact ih fun i hi => h i (by omega)

end RingLog
