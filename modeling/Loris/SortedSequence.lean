import Mathlib.Data.List.Sort
/-!
# SortedSequence — a sequence kept in order by insertion

Sequences over a strict weak order, given as a test.  An item is put before the first one not less than it, and taken
out by its position.  The sequence stays in order along every run (`sorted_run`), and what was put in is what is there
and what was taken out, each as often (`perm_run`).
-/
namespace SortedSequence

variable {α : Type} {lt : α → α → Bool} {a : α} {l : List α}

/-- `b` is not less than `a`. -/
def NotLess (lt : α → α → Bool) (a b : α) : Prop := lt b a = false

instance : DecidableRel (NotLess lt) := fun _ _ => inferInstanceAs (Decidable (_ = false))

def Sorted (lt : α → α → Bool) (l : List α) : Prop := l.Pairwise (NotLess lt)

/-- The item before the first one not less than it. -/
def put (lt : α → α → Bool) (a : α) (l : List α) : List α :=
  l.takeWhile (fun b => lt b a) ++ a :: l.dropWhile (fun b => lt b a)

inductive Op (α : Type) where
  | insert (a : α)
  | remove (i : Nat)

def apply (lt : α → α → Bool) (l : List α) : Op α → List α
  | .insert a => put lt a l
  | .remove i => l.eraseIdx i

def run (lt : α → α → Bool) : List α → List (Op α) → List α
  | l, [] => l
  | l, o :: ops => run lt (apply lt l o) ops

/-- The items put in. -/
def inserted : List (Op α) → List α
  | [] => []
  | .insert a :: ops => a :: inserted ops
  | .remove _ :: ops => inserted ops

/-- The items taken out. -/
def removed (lt : α → α → Bool) : List α → List (Op α) → List α
  | _, [] => []
  | l, .insert a :: ops => removed lt (put lt a l) ops
  | l, .remove i :: ops => l[i]?.toList ++ removed lt (l.eraseIdx i) ops

theorem put_eq_orderedInsert : put lt a l = l.orderedInsert (NotLess lt) a := by
  rw [List.orderedInsert_eq_take_drop]
  have h : (fun b => lt b a) = fun b => decide ¬ NotLess lt a b := by
    funext b
    by_cases hb : lt b a = true <;> simp [NotLess, hb]
  rw [put, h]

theorem perm_put (lt : α → α → Bool) (a : α) (l : List α) : (put lt a l).Perm (a :: l) := by
  rw [put_eq_orderedInsert]
  exact List.perm_orderedInsert _ a l

theorem perm_eraseIdx : ∀ (l : List α) (i : Nat), (l.eraseIdx i ++ l[i]?.toList).Perm l
  | [], _ => by simp
  | b :: l, 0 => List.perm_append_comm
  | b :: l, i + 1 => (perm_eraseIdx l i).cons b

section Order

variable [IsStrictWeakOrder α fun a b => lt a b = true]

instance : Std.Total (NotLess lt) := ⟨fun a b => by
  unfold NotLess
  by_contra h
  rw [not_or, Bool.not_eq_false, Bool.not_eq_false] at h
  exact asymm_of (fun a b => lt a b = true) h.1 h.2⟩

theorem lt_or_lt {b c : α} (h : lt a b = true) : lt a c = true ∨ lt c b = true := by
  by_contra hn
  rw [not_or] at hn
  obtain ⟨hac, hcb⟩ := hn
  by_cases hca : lt c a = true
  · exact hcb (trans_of (fun a b => lt a b = true) hca h)
  · by_cases hbc : lt b c = true
    · exact hac (trans_of (fun a b => lt a b = true) h hbc)
    · exact (@IsStrictWeakOrder.incomp_trans α (fun a b => lt a b = true) _ a c b ⟨hac, hca⟩ ⟨hcb, hbc⟩).1 h

instance : IsTrans α (NotLess lt) := ⟨fun a b c hab hbc => by
  unfold NotLess at *
  by_contra h
  rcases lt_or_lt (c := b) (Bool.not_eq_false _ ▸ h : lt c a = true) with h' | h'
  · rw [hbc] at h'; cases h'
  · rw [hab] at h'; cases h'⟩

theorem Sorted.put (h : Sorted lt l) (a : α) : Sorted lt (put lt a l) := by
  rw [put_eq_orderedInsert]
  exact List.Pairwise.orderedInsert a l h

theorem Sorted.apply (h : Sorted lt l) : ∀ o : Op α, Sorted lt (apply lt l o)
  | .insert a => h.put a
  | .remove i => h.sublist (List.eraseIdx_sublist l i)

/-- **The sequence stays in order.** -/
theorem sorted_run : ∀ {l : List α} (ops : List (Op α)), Sorted lt l → Sorted lt (run lt l ops)
  | _, [], h => h
  | _, o :: ops, h => sorted_run ops (h.apply o)

end Order

/-- **Nothing is lost or doubled**: what is there and what was taken out is what was there and what was put in. -/
theorem perm_run (lt : α → α → Bool) : ∀ (l : List α) (ops : List (Op α)),
    (run lt l ops ++ removed lt l ops).Perm (l ++ inserted ops)
  | l, [] => List.Perm.refl _
  | l, .insert a :: ops => by
    have h := perm_run lt (put lt a l) ops
    exact (h.trans ((perm_put lt a l).append_right _)).trans List.perm_middle.symm
  | l, .remove i :: ops => by
    have h := perm_run lt (l.eraseIdx i) ops
    have hmove : (run lt (l.eraseIdx i) ops ++ (l[i]?.toList ++ removed lt (l.eraseIdx i) ops)).Perm
        (l[i]?.toList ++ (run lt (l.eraseIdx i) ops ++ removed lt (l.eraseIdx i) ops)) := by
      rw [← List.append_assoc, ← List.append_assoc]
      exact List.perm_append_comm.append_right _
    refine (hmove.trans (h.append_left _)).trans ?_
    rw [← List.append_assoc]
    exact (List.perm_append_comm.trans (perm_eraseIdx l i)).append_right _

end SortedSequence
