import Mathlib.Data.List.Count
import Mathlib.Data.List.Nodup
/-!
# RoundRobin — a queue that grows while it is gone round

A queue with a cursor.  Elements are added at the end, at any time; the cursor moves to the next element, and from the
last one to the first.  From one selection of an element to the next, every other element that was in the queue is
selected once (`Ring.count_selections`).
-/
namespace RoundRobin

variable {α : Type}

/-- A queue, with the element the cursor is on. -/
structure Ring (α : Type) where
  queue : List α
  cursor : Nat
  inside : cursor < queue.length

inductive Op (α : Type) where
  | push (x : α)
  | next

namespace Ring

variable {r : Ring α} {x a b : α}

def current (r : Ring α) : α := r.queue.get ⟨r.cursor, r.inside⟩

def nextCursor (r : Ring α) : Nat := if r.cursor + 1 < r.queue.length then r.cursor + 1 else 0

theorem nextCursor_lt (r : Ring α) : r.nextCursor < r.queue.length := by
  have := r.inside
  unfold nextCursor
  split <;> omega

def push (r : Ring α) (x : α) : Ring α :=
  ⟨r.queue ++ [x], r.cursor, by rw [List.length_append]; exact Nat.lt_add_right _ r.inside⟩

def next (r : Ring α) : Ring α := ⟨r.queue, r.nextCursor, r.nextCursor_lt⟩

def step (r : Ring α) : Op α → Ring α
  | .push x => r.push x
  | .next => r.next

def run : Ring α → List (Op α) → Ring α
  | r, [] => r
  | r, o :: l => (r.step o).run l

/-- The elements that the cursor moves to, in turn. -/
def selections : Ring α → List (Op α) → List α
  | _, [] => []
  | r, .push x :: l => (r.push x).selections l
  | r, .next :: l => r.next.current :: r.next.selections l

theorem current_eq (r : Ring α) : r.queue[r.cursor]? = some r.current := List.getElem?_eq_getElem r.inside

theorem next_current (r : Ring α) : r.queue[r.nextCursor]? = some r.next.current := r.next.current_eq

@[simp] theorem push_current (r : Ring α) (x : α) : (r.push x).current = r.current := List.getElem_append_left r.inside

theorem prefix_run : ∀ {r : Ring α} (l : List (Op α)), r.queue <+: (r.run l).queue
  | _, [] => List.prefix_refl _
  | r, .push x :: l => (List.prefix_append _ [x]).trans (prefix_run (r := r.push x) l)
  | r, .next :: l => prefix_run (r := r.next) l

theorem getElem?_push {j : Nat} (h : r.queue[j]? = some b) : (r.push x).queue[j]? = some b := by
  exact (List.getElem?_append_left (List.getElem?_eq_some_iff.1 h).1).trans h

/-- How often the element at `j` is selected before the cursor comes to `p`: the cursor goes up to the end and from the
start to `p`, or up to `p` when it is below. -/
def turns (cursor p j : Nat) : Nat :=
  if p ≤ cursor then (if cursor < j ∨ j < p then 1 else 0) else (if cursor < j ∧ j < p then 1 else 0)

theorem count_selections_at [DecidableEq α] {p : Nat} : ∀ {l : List (Op α)} {r : Ring α} {mid : List α},
    (r.run l).queue.Nodup → r.queue[p]? = some a → r.selections l = mid ++ [a] → a ∉ mid →
      ∀ j b, r.queue[j]? = some b → mid.count b = turns r.cursor p j
  | [], r, mid, _, _, hsel, _, j, b, _ => by simp [selections] at hsel
  | .push x :: l, r, mid, hnd, hp, hsel, hmid, j, b, hj =>
    count_selections_at (r := r.push x) hnd (getElem?_push hp) hsel hmid j b (getElem?_push hj)
  | .next :: l, r, mid, hnd, hp, hsel, hmid, j, b, hj => by
    have hq : r.queue.Nodup := (prefix_run (r := r.next) l).sublist.nodup hnd
    have hin := r.inside
    have hcur := r.next_current
    have hjl := (List.getElem?_eq_some_iff.1 hj).1
    have hpl := (List.getElem?_eq_some_iff.1 hp).1
    -- two places with one element are one place
    have hinj : ∀ {i i' : Nat} {e : α}, r.queue[i]? = some e → r.queue[i']? = some e → i = i' := fun h h' =>
      (List.getElem?_inj (List.getElem?_eq_some_iff.1 h).1 hq).1 (h.trans h'.symm)
    cases mid with
    | nil =>
      simp only [selections, List.nil_append, List.cons.injEq] at hsel
      rw [hsel.1] at hcur
      have hnp := hinj hcur hp
      unfold nextCursor at hnp
      unfold turns
      rw [List.count_nil]
      split at hnp <;> split <;> rw [if_neg (by omega)]
    | cons e mid =>
      simp only [selections, List.cons_append, List.cons.injEq] at hsel
      obtain ⟨rfl, hsel⟩ := hsel
      rw [List.mem_cons, not_or] at hmid
      have ih := count_selections_at (r := r.next) hnd hp hsel hmid.2 j b hj
      have hnp : r.nextCursor ≠ p := fun h => hmid.1 (Option.some.inj (hp.symm.trans (h ▸ hcur)))
      have hb : r.next.current = b ↔ r.nextCursor = j :=
        ⟨fun h => hinj hcur (h ▸ hj), fun h => Option.some.inj (hcur.symm.trans (h ▸ hj))⟩
      rw [List.count_cons, ih]
      show turns r.nextCursor p j + _ = _
      simp only [beq_iff_eq, hb]
      unfold turns nextCursor at *
      split at hnp <;> split_ifs <;> omega

/-- **Round robin**: until the current element comes again, every other element of the queue is selected once. -/
theorem count_selections [DecidableEq α] {l : List (Op α)} {mid : List α} (hnd : (r.run l).queue.Nodup)
    (hsel : r.selections l = mid ++ [r.current]) (hmid : r.current ∉ mid) (hb : b ∈ r.queue) (hne : b ≠ r.current) :
    mid.count b = 1 := by
  obtain ⟨j, hj⟩ := List.mem_iff_getElem?.1 hb
  rw [count_selections_at hnd r.current_eq hsel hmid j b hj, turns, if_pos (Nat.le_refl _)]
  have hjc : j ≠ r.cursor := fun h => hne (Option.some.inj (hj.symm.trans (h ▸ r.current_eq)))
  rw [if_pos (by omega)]

/-! ## Shares -/

/-- How many moves take the cursor to `p`, round a queue of `n` elements. -/
def distance (cursor p n : Nat) : Nat := if cursor < p then p - cursor else n - cursor + p

theorem distance_self (p n : Nat) : distance p p n = n - p + p := if_neg (Nat.lt_irrefl p)

/-- **One move**, round a queue that may have grown to `n` elements since. -/
theorem distance_next_le {p n : Nat} (hp : p < r.queue.length) (hn : r.queue.length ≤ n) :
    (if r.nextCursor = p then 1 else distance r.nextCursor p n + 1) ≤ distance r.cursor p n := by
  have hin := r.inside
  unfold nextCursor distance
  split_ifs <;> omega

theorem distance_next {p : Nat} (hp : p < r.queue.length) : distance r.cursor p r.queue.length =
    if r.nextCursor = p then 1 else distance r.nextCursor p r.queue.length + 1 := by
  have hin := r.inside
  unfold nextCursor distance
  split_ifs <;> omega

/-- Two places with one element are one place. -/
theorem next_current_iff {p : Nat} (hnd : r.queue.Nodup) (hp : r.queue[p]? = some a) :
    r.next.current = a ↔ r.nextCursor = p :=
  ⟨fun h => (List.getElem?_inj r.nextCursor_lt hnd).1 (r.next_current.trans (h ▸ hp.symm)),
    fun h => Option.some.inj (r.next_current.symm.trans (h ▸ hp))⟩

theorem lt_count_selections [DecidableEq α] {p : Nat} : ∀ {l : List (Op α)} {r : Ring α}, (r.run l).queue.Nodup →
    r.queue[p]? = some a → (r.selections l).length <
      distance r.cursor p (r.run l).queue.length + (r.selections l).count a * (r.run l).queue.length
  | [], r, _, _ => by
    have hin := r.inside
    show 0 < distance r.cursor p r.queue.length + 0 * _
    unfold distance
    split <;> omega
  | .push x :: l, r, hnd, hp => lt_count_selections (r := r.push x) hnd (getElem?_push hp)
  | .next :: l, r, hnd, hp => by
    have hpre := prefix_run (r := r.next) l
    have hpl := (List.getElem?_eq_some_iff.1 hp).1
    have hlen : r.queue.length ≤ (r.next.run l).queue.length := hpre.length_le
    have ih : _ < distance r.nextCursor p _ + _ := lt_count_selections (r := r.next) hnd hp
    have hdist := distance_next_le hpl hlen
    have hiff : r.next.current = a ↔ r.nextCursor = p := next_current_iff (hpre.sublist.nodup hnd) hp
    show (r.next.current :: r.next.selections l).length < distance r.cursor p (r.next.run l).queue.length +
      (r.next.current :: r.next.selections l).count a * (r.next.run l).queue.length
    rw [List.length_cons, List.count_cons]
    simp only [beq_iff_eq, hiff]
    by_cases hsel : r.nextCursor = p
    · rw [if_pos hsel] at hdist ⊢
      rw [hsel, distance_self] at ih
      rw [Nat.add_mul]
      omega
    · rw [if_neg hsel] at hdist ⊢
      simp only [Nat.add_zero]
      omega

theorem count_selections_le [DecidableEq α] {p n : Nat} : ∀ {l : List (Op α)} {r : Ring α}, (r.run l).queue.Nodup →
    r.queue[p]? = some a → n ≤ r.queue.length → (r.selections l).count a = 0 ∨
      distance r.cursor p r.queue.length + (r.selections l).count a * n ≤ (r.selections l).length + n
  | [], _, _, _, _ => Or.inl rfl
  | .push x :: l, r, hnd, hp, hn => by
    have hlen : (r.push x).queue.length = r.queue.length + 1 := List.length_append
    refine (count_selections_le (r := r.push x) (n := n) hnd (getElem?_push hp) (by omega)).imp_right fun ih => ?_
    refine Nat.le_trans (Nat.add_le_add_right ?_ _) ih
    show distance r.cursor p r.queue.length ≤ distance r.cursor p (r.push x).queue.length
    unfold distance
    split <;> omega
  | .next :: l, r, hnd, hp, hn => by
    have hpre := prefix_run (r := r.next) l
    have hpl := (List.getElem?_eq_some_iff.1 hp).1
    have ih : _ ∨ distance r.nextCursor p r.queue.length + _ ≤ _ := count_selections_le (r := r.next) hnd hp hn
    have hdist := distance_next hpl
    have hiff : r.next.current = a ↔ r.nextCursor = p := next_current_iff (hpre.sublist.nodup hnd) hp
    show (r.next.current :: r.next.selections l).count a = 0 ∨
      distance r.cursor p r.queue.length + (r.next.current :: r.next.selections l).count a * n ≤
        (r.next.current :: r.next.selections l).length + n
    rw [List.length_cons, List.count_cons]
    simp only [beq_iff_eq, hiff]
    by_cases hsel : r.nextCursor = p
    · rw [if_pos hsel] at hdist ⊢
      rw [hsel, distance_self] at ih
      rw [Nat.add_mul]
      refine Or.inr ?_
      rcases ih with h0 | ih
      · rw [h0]
        omega
      · omega
    · rw [if_neg hsel] at hdist ⊢
      simp only [Nat.add_zero]
      exact ih.imp_right fun ih => by omega

/-- **Shares**: of the moves of the cursor, every element of the queue gets its share of a round, by the length of the
queue at the end, and no more than a share that is begun, by the length at the start. -/
theorem count_selections_share [DecidableEq α] {l : List (Op α)} (hnd : (r.run l).queue.Nodup) (hb : b ∈ r.queue) :
    (r.selections l).length / (r.run l).queue.length ≤ (r.selections l).count b ∧
      (r.selections l).count b * r.queue.length < (r.selections l).length + r.queue.length := by
  obtain ⟨p, hp⟩ := List.mem_iff_getElem?.1 hb
  have hpl := (List.getElem?_eq_some_iff.1 hp).1
  have hin := r.inside
  have hlen := (prefix_run (r := r) l).length_le
  have hlo := lt_count_selections hnd hp
  have hhi := count_selections_le hnd hp (Nat.le_refl _)
  constructor
  · refine Nat.le_of_lt_succ ((Nat.div_lt_iff_lt_mul (by omega)).2 ?_)
    rw [Nat.succ_mul]
    unfold distance at hlo
    split at hlo <;> omega
  · rcases hhi with h0 | hhi
    · rw [h0]
      omega
    · unfold distance at hhi
      split at hhi <;> omega

end Ring
end RoundRobin
