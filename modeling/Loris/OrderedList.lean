import Loris.ByteMem
import Mathlib.Data.List.Perm.Basic
import Mathlib.Data.List.Sort
/-!
# OrderedList — the array the heap keeps its holes in (`Util/OrderedList.h`)

The list object holds a pointer to its slots, a size and a capacity.  The slots are words of memory, so each operation
takes the memory and returns it.  `items` is the list a reader of the first `m_size` slots sees.  `insert` and `remove`
are the source's carry loops; over slots that do not wrap around the address space they are `List.insertIdx` at the
scan's position and `List.eraseIdx` (`items_insert`, `items_remove`).
-/
namespace Loris

open ByteMem

/-- `OrderedList<T>` with `T` a pointer; the predicate is an argument of `insert`. -/
structure OrderedList where
  elements : U32
  size : U32
  maxSize : U32
  deriving DecidableEq

namespace OrderedList

/-- The address of `m_elements[i]`. -/
def slot (l : OrderedList) (i : Nat) : U32 := l.elements + BitVec.ofNat 32 (4 * i)

/-- `GetItemAtIndex`: no bound is checked. -/
def getItemAtIndex (l : OrderedList) (m : Mem) (i : Nat) : U32 := load m (l.slot i)

/-- The first `m_size` slots. -/
def items (l : OrderedList) (m : Mem) : List U32 := (List.range l.size.toNat).map (l.getItemAtIndex m)

/-- The constructor over storage at `elementsMemAddress`: `memset` clears `maxSize` slots. -/
def new (m : Mem) (elementsMemAddress maxSize : U32) : OrderedList × Mem :=
  ({ elements := elementsMemAddress, size := 0, maxSize := maxSize }, fill m elementsMemAddress 0 (maxSize * 4).toNat)

/-- `while (iterator < m_size && m_lessThanPredicate(m_elements[iterator], item)) iterator++`, with the number of
slots left as the first argument. -/
def scan (l : OrderedList) (lessThan : U32 → U32 → Bool) (m : Mem) (item : U32) : Nat → Nat → Nat
  | 0, iterator => iterator
  | k + 1, iterator =>
    if lessThan (l.getItemAtIndex m iterator) item then scan l lessThan m item k (iterator + 1) else iterator

/-- The carry loop of `Insert`: slot `iterator + 1` takes `tmp` and its old word is carried on, `k` times. -/
def carryUp (l : OrderedList) : Nat → Mem → Nat → U32 → Mem
  | 0, m, _, _ => m
  | k + 1, m, iterator, tmp =>
    carryUp l k (store m (l.slot (iterator + 1)) tmp) (iterator + 1) (l.getItemAtIndex m (iterator + 1))

/-- `Insert`.  The capacity is not checked. -/
def insert (l : OrderedList) (lessThan : U32 → U32 → Bool) (m : Mem) (item : U32) : OrderedList × Mem :=
  let iterator := l.scan lessThan m item l.size.toNat 0
  if iterator = l.size.toNat then
    ({ l with size := l.size + 1 }, store m (l.slot iterator) item)
  else
    let tmp := l.getItemAtIndex m iterator
    ({ l with size := l.size + 1 },
      l.carryUp (l.size.toNat - iterator) (store m (l.slot iterator) item) iterator tmp)

/-- The loop of `Remove`: slot `index` takes the word of slot `index + 1`, `k` times. -/
def carryDown (l : OrderedList) : Nat → Mem → Nat → Mem
  | 0, m, _ => m
  | k + 1, m, index => carryDown l k (store m (l.slot index) (l.getItemAtIndex m (index + 1))) (index + 1)

/-- `Remove`.  The index is not checked, and the size is decremented whatever it is. -/
def remove (l : OrderedList) (m : Mem) (index : Nat) : OrderedList × Mem :=
  ({ l with size := l.size - 1 }, l.carryDown (l.size.toNat - index) m index)

/-! ## Slots -/

variable {l : OrderedList} {c : Nat}

theorem toNat_slot (hcap : l.elements.toNat + 4 * c ≤ 2 ^ 32) {i : Nat} (hi : i < c) :
    (l.slot i).toNat = l.elements.toNat + 4 * i := by
  unfold slot
  rw [BitVec.toNat_add, BitVec.toNat_ofNat]
  omega

theorem getItemAtIndex_store (hcap : l.elements.toNat + 4 * c ≤ 2 ^ 32) (m : Mem) {i j : Nat} (hi : i < c)
    (hj : j < c) (v : U32) :
    l.getItemAtIndex (store m (l.slot j) v) i = if i = j then v else l.getItemAtIndex m i := by
  unfold getItemAtIndex
  have ei := toNat_slot hcap hi
  have ej := toNat_slot hcap hj
  by_cases hij : i = j
  · subst hij; simp
  · rw [if_neg hij]
    exact (keeps_store m (l.slot j) v (by omega)).load_eq (by omega) (by omega)

theorem length_items (l : OrderedList) (m : Mem) : (l.items m).length = l.size.toNat := by simp [items]

theorem getElem_items (l : OrderedList) (m : Mem) {i : Nat} (h : i < (l.items m).length) :
    (l.items m)[i] = l.getItemAtIndex m i := by simp [items]

theorem items_congr {m m' : Mem} {lo hi : Nat} (hcap : l.elements.toNat + 4 * l.size.toNat ≤ 2 ^ 32)
    (hk : Keeps lo hi m m') (hap : l.elements.toNat + 4 * l.size.toNat ≤ lo ∨ hi ≤ l.elements.toNat) :
    l.items m' = l.items m := by
  unfold items
  apply List.map_congr_left
  intro i hi'
  have hlt := List.mem_range.1 hi'
  have e := toNat_slot hcap hlt
  exact hk.load_eq (by omega) (by omega)

/-! ## The loops -/

theorem scan_spec (l : OrderedList) (lessThan : U32 → U32 → Bool) (m : Mem) (item : U32) : ∀ (k i : Nat),
    i ≤ l.scan lessThan m item k i ∧ l.scan lessThan m item k i ≤ i + k ∧
    (∀ j, i ≤ j → j < l.scan lessThan m item k i → lessThan (l.getItemAtIndex m j) item = true) ∧
    (l.scan lessThan m item k i < i + k →
      lessThan (l.getItemAtIndex m (l.scan lessThan m item k i)) item = false)
  | 0, i => by simp only [scan]; exact ⟨Nat.le_refl _, Nat.le_refl _, by omega, by omega⟩
  | k + 1, i => by
    unfold scan
    by_cases h : lessThan (l.getItemAtIndex m i) item = true
    · rw [if_pos h]
      obtain ⟨h1, h2, h3, h4⟩ := scan_spec l lessThan m item k (i + 1)
      refine ⟨by omega, by omega, fun j hj hlt => ?_, fun hlt => h4 (by omega)⟩
      by_cases hji : j = i
      · subst hji; exact h
      · exact h3 j (by omega) hlt
    · rw [if_neg h]
      exact ⟨Nat.le_refl _, by omega, by omega, fun _ => by simpa using h⟩

/-- **The carry loop of `Insert` moves slots `i + 1 .. i + k` up by one** and puts the carried word at their head. -/
theorem getItemAtIndex_carryUp (hcap : l.elements.toNat + 4 * c ≤ 2 ^ 32) : ∀ (k : Nat) (m : Mem) (i : Nat)
    (tmp : U32), i + k < c → ∀ j, j < c →
      l.getItemAtIndex (l.carryUp k m i tmp) j =
        if i < j ∧ j ≤ i + k then (if j = i + 1 then tmp else l.getItemAtIndex m (j - 1)) else l.getItemAtIndex m j
  | 0, m, i, tmp, _, j, _ => by simp only [carryUp]; rw [if_neg (by omega)]
  | k + 1, m, i, tmp, hk, j, hj => by
    simp only [carryUp]
    rw [getItemAtIndex_carryUp hcap k _ (i + 1) _ (by omega) j hj]
    by_cases h1 : j = i + 1
    · subst h1
      rw [if_neg (by omega), if_pos (by omega), if_pos rfl, getItemAtIndex_store hcap m (by omega) (by omega),
        if_pos rfl]
    · by_cases h2 : i < j ∧ j ≤ i + (k + 1)
      · rw [if_pos (by omega), if_pos h2, if_neg h1]
        by_cases h3 : j = i + 1 + 1
        · rw [if_pos h3, h3]; rfl
        · rw [if_neg h3, getItemAtIndex_store hcap m (by omega) (by omega), if_neg (by omega)]
      · rw [if_neg (by omega), if_neg h2, getItemAtIndex_store hcap m hj (by omega), if_neg h1]

/-- **The loop of `Remove` moves slots `i + 1 .. i + k` down by one.** -/
theorem getItemAtIndex_carryDown (hcap : l.elements.toNat + 4 * c ≤ 2 ^ 32) : ∀ (k : Nat) (m : Mem) (i : Nat),
    i + k < c → ∀ j, j < c →
      l.getItemAtIndex (l.carryDown k m i) j =
        if i ≤ j ∧ j < i + k then l.getItemAtIndex m (j + 1) else l.getItemAtIndex m j
  | 0, m, i, _, j, _ => by simp only [carryDown]; rw [if_neg (by omega)]
  | k + 1, m, i, hk, j, hj => by
    simp only [carryDown]
    rw [getItemAtIndex_carryDown hcap k _ (i + 1) (by omega) j hj]
    by_cases h1 : j = i
    · subst h1
      rw [if_neg (by omega), if_pos (by omega), getItemAtIndex_store hcap m hj (by omega), if_pos rfl]
    · by_cases h2 : i ≤ j ∧ j < i + (k + 1)
      · rw [if_pos (by omega), if_pos h2, getItemAtIndex_store hcap m (by omega) (by omega), if_neg (by omega)]
      · rw [if_neg (by omega), if_neg h2, getItemAtIndex_store hcap m hj (by omega), if_neg h1]

theorem keeps_carryUp (hcap : l.elements.toNat + 4 * c ≤ 2 ^ 32) : ∀ (k : Nat) (m : Mem) (i : Nat) (tmp : U32),
    i + k < c → Keeps l.elements.toNat (l.elements.toNat + 4 * c) m (l.carryUp k m i tmp)
  | 0, m, _, _, _ => Keeps.refl _ _ m
  | k + 1, m, i, tmp, hk => by
    have e := toNat_slot hcap (show i + 1 < c by omega)
    exact ((keeps_store m (l.slot (i + 1)) tmp (by omega)).mono (by omega) (by omega)).trans
      (keeps_carryUp hcap k _ (i + 1) _ (by omega))

theorem keeps_carryDown (hcap : l.elements.toNat + 4 * c ≤ 2 ^ 32) : ∀ (k : Nat) (m : Mem) (i : Nat),
    i + k ≤ c → Keeps l.elements.toNat (l.elements.toNat + 4 * c) m (l.carryDown k m i)
  | 0, m, _, _ => Keeps.refl _ _ m
  | k + 1, m, i, hk => by
    have e := toNat_slot hcap (show i < c by omega)
    exact ((keeps_store m (l.slot i) _ (by omega)).mono (by omega) (by omega)).trans
      (keeps_carryDown hcap k _ (i + 1) (by omega))

/-! ## `Insert` and `Remove` -/

/-- Where `Insert` puts the item. -/
def position (l : OrderedList) (lessThan : U32 → U32 → Bool) (m : Mem) (item : U32) : Nat :=
  l.scan lessThan m item l.size.toNat 0

theorem position_le (l : OrderedList) (lessThan : U32 → U32 → Bool) (m : Mem) (item : U32) :
    l.position lessThan m item ≤ l.size.toNat := by
  have := (scan_spec l lessThan m item l.size.toNat 0).2.1
  unfold position; omega

theorem insert_fst (l : OrderedList) (lessThan : U32 → U32 → Bool) (m : Mem) (item : U32) :
    (l.insert lessThan m item).1 = { l with size := l.size + 1 } := by
  unfold insert; simp only; split <;> rfl

theorem remove_fst (l : OrderedList) (m : Mem) (index : Nat) : (l.remove m index).1 = { l with size := l.size - 1 } :=
  rfl

/-- **`Insert` is `List.insertIdx`** at the scan's position. -/
theorem items_insert (lessThan : U32 → U32 → Bool) (m : Mem) (item : U32)
    (hcap : l.elements.toNat + 4 * (l.size.toNat + 1) ≤ 2 ^ 32) :
    (l.insert lessThan m item).1.items (l.insert lessThan m item).2 =
      (l.items m).insertIdx (l.position lessThan m item) item := by
  have hp := position_le l lessThan m item
  have hsize : (l.size + 1).toNat = l.size.toNat + 1 := by rw [BitVec.toNat_add]; simp; omega
  have hget : ∀ j, j < l.size.toNat + 1 → l.getItemAtIndex (l.insert lessThan m item).2 j =
      if j < l.position lessThan m item then l.getItemAtIndex m j
      else if j = l.position lessThan m item then item else l.getItemAtIndex m (j - 1) := by
    intro j hj
    unfold insert position at *
    simp only
    split
    · rename_i he
      simp only
      rw [getItemAtIndex_store hcap m hj (by omega)]
      by_cases hjp : j = l.scan lessThan m item l.size.toNat 0
      · rw [if_pos hjp, if_neg (by omega), if_pos hjp]
      · rw [if_neg hjp, if_pos (by omega)]
    · rename_i he
      simp only
      rw [getItemAtIndex_carryUp hcap _ _ _ _ (by omega) j hj, getItemAtIndex_store hcap m hj (by omega)]
      by_cases h1 : j < l.scan lessThan m item l.size.toNat 0
      · rw [if_neg (by omega), if_neg (by omega), if_pos h1]
      · by_cases h2 : j = l.scan lessThan m item l.size.toNat 0
        · rw [if_neg (by omega), if_pos h2, if_neg h1, if_pos h2]
        · rw [if_pos (by omega), if_neg h1, if_neg h2]
          by_cases h3 : j = l.scan lessThan m item l.size.toNat 0 + 1
          · rw [if_pos h3, h3]; rfl
          · rw [if_neg h3, getItemAtIndex_store hcap m (by omega) (by omega), if_neg (by omega)]
  have hlen : ((l.items m).insertIdx (l.position lessThan m item) item).length = l.size.toNat + 1 := by
    rw [List.length_insertIdx_of_le_length (by rw [length_items]; exact hp), length_items]
  rw [insert_fst]
  apply List.ext_getElem
  · rw [length_items, hlen, hsize]
  · intro j h1 h2
    rw [hlen] at h2
    rw [getElem_items]
    show l.getItemAtIndex _ j = _
    rw [hget j h2, List.getElem_insertIdx]
    split
    · rw [getElem_items]
    · split
      · rfl
      · rw [getElem_items]

/-- **`Remove` is `List.eraseIdx`**, for an index in the list. -/
theorem items_remove (m : Mem) {index : Nat} (hi : index < l.size.toNat)
    (hcap : l.elements.toNat + 4 * (l.size.toNat + 1) ≤ 2 ^ 32) :
    (l.remove m index).1.items (l.remove m index).2 = (l.items m).eraseIdx index := by
  have hsize : (l.size - 1).toNat = l.size.toNat - 1 := by rw [BitVec.toNat_sub]; simp; omega
  have hlen : ((l.items m).eraseIdx index).length = l.size.toNat - 1 := by
    rw [List.length_eraseIdx, length_items, if_pos hi]
  apply List.ext_getElem
  · rw [length_items, hlen, remove_fst]; exact hsize
  · intro j h1 h2
    rw [hlen] at h2
    rw [getElem_items]
    show l.getItemAtIndex (l.carryDown _ m index) j = _
    rw [getItemAtIndex_carryDown hcap _ m index (by omega) j (by omega), List.getElem_eraseIdx]
    split
    · rw [dif_neg (by omega), getElem_items]
    · rw [dif_pos (by omega), getElem_items]

theorem keeps_insert (lessThan : U32 → U32 → Bool) (m : Mem) (item : U32) (hcap : l.elements.toNat + 4 * c ≤ 2 ^ 32)
    (hs : l.size.toNat < c) :
    Keeps l.elements.toNat (l.elements.toNat + 4 * c) m (l.insert lessThan m item).2 := by
  have hp := position_le l lessThan m item
  have e := toNat_slot hcap (show l.position lessThan m item < c by omega)
  have h0 : Keeps l.elements.toNat (l.elements.toNat + 4 * c) m
      (store m (l.slot (l.position lessThan m item)) item) :=
    (keeps_store m _ item (by omega)).mono (by omega) (by omega)
  unfold insert
  simp only
  split
  · exact h0
  · exact h0.trans (keeps_carryUp hcap _ _ _ _ (by unfold position at hp; omega))

theorem keeps_remove (m : Mem) {i : Nat} (hcap : l.elements.toNat + 4 * c ≤ 2 ^ 32) (hs : l.size.toNat ≤ c)
    (hi : i ≤ l.size.toNat) :
    Keeps l.elements.toNat (l.elements.toNat + 4 * c) m (l.remove m i).2 :=
  keeps_carryDown hcap _ m i (by omega)

theorem perm_insert (lessThan : U32 → U32 → Bool) (m : Mem) (item : U32)
    (hcap : l.elements.toNat + 4 * (l.size.toNat + 1) ≤ 2 ^ 32) :
    ((l.insert lessThan m item).1.items (l.insert lessThan m item).2).Perm (item :: l.items m) := by
  rw [items_insert lessThan m item hcap]
  exact List.perm_insertIdx item (l.items m) (by rw [length_items]; exact position_le l lessThan m item)

theorem perm_remove (m : Mem) {index : Nat} (hi : index < l.size.toNat)
    (hcap : l.elements.toNat + 4 * (l.size.toNat + 1) ≤ 2 ^ 32) :
    (l.getItemAtIndex m index :: (l.remove m index).1.items (l.remove m index).2).Perm (l.items m) := by
  rw [items_remove m hi hcap, ← getElem_items l m (by rw [length_items]; exact hi)]
  exact List.getElem_cons_eraseIdx_perm _

/-! ## `Insert` and `Remove` by value -/

section Order

variable {α : Type} {r : α → α → Prop} [DecidableRel r] {a : α}

theorem insertIdx_eq_orderedInsert : ∀ {l : List α} {p : Nat}, p ≤ l.length →
    (∀ j, (hj : j < l.length) → j < p → ¬ r a l[j]) → (∀ hp : p < l.length, r a l[p]) →
    l.insertIdx p a = l.orderedInsert r a
  | [], p, hp, _, _ => by
    obtain rfl : p = 0 := by simpa using hp
    rfl
  | b :: l, 0, _, _, hat => by
    have hb : r a b := hat (by simp)
    rw [List.insertIdx_zero, List.orderedInsert_cons_of_le r l hb]
  | b :: l, p + 1, hp, hbefore, hat => by
    have hb : ¬ r a b := hbefore 0 (by simp) (Nat.succ_pos p)
    rw [List.insertIdx_succ_cons, List.orderedInsert_of_not_le r l hb]
    congr 1
    exact insertIdx_eq_orderedInsert (by simpa using hp)
      (fun j hj hlt => hbefore (j + 1) (by simpa using hj) (by omega)) fun h => hat (by simpa using h)

theorem eraseIdx_eq_erase [DecidableEq α] : ∀ {l : List α} {p : Nat} (hp : p < l.length), l[p] = a →
    (∀ j, (hj : j < l.length) → j < p → l[j] ≠ a) → l.eraseIdx p = l.erase a
  | b :: l, 0, _, hat, _ => by
    obtain rfl : b = a := hat
    simp
  | b :: l, p + 1, hp, hat, hbefore => by
    have hb : b ≠ a := hbefore 0 (by simp) (Nat.succ_pos p)
    rw [List.eraseIdx_cons_succ, List.erase_cons_tail (by simpa using hb)]
    congr 1
    exact eraseIdx_eq_erase (by simpa using hp) hat
      fun j hj hlt => hbefore (j + 1) (by simpa using hj) (by omega)

/-- **What was taken out from behind all smaller items goes back to its place.** -/
theorem orderedInsert_append {l l' : List α} (hl : ∀ b ∈ l, ¬ r a b) (hl' : ∀ b ∈ l', r a b) :
    (l ++ l').orderedInsert r a = l ++ a :: l' := by
  induction l with
  | nil =>
    cases l' with
    | nil => rfl
    | cons b l' => exact List.orderedInsert_cons_of_le r l' (hl' b (by simp))
  | cons b l ih =>
    rw [List.cons_append, List.orderedInsert_of_not_le r _ (hl b (by simp)),
      ih fun c hc => hl c (List.mem_cons_of_mem _ hc)]
    rfl

theorem orderedInsert_congr {s : α → α → Prop} [DecidableRel s] {l : List α} (h : ∀ b ∈ l, r a b ↔ s a b) :
    l.orderedInsert r a = l.orderedInsert s a := by
  induction l with
  | nil => rfl
  | cons b l ih =>
    have hb := h b (by simp)
    have hl := ih fun c hc => h c (List.mem_cons_of_mem _ hc)
    by_cases hr : r a b
    · rw [List.orderedInsert_cons_of_le r l hr, List.orderedInsert_cons_of_le s l (hb.1 hr)]
    · rw [List.orderedInsert_of_not_le r l hr, List.orderedInsert_of_not_le s l fun hs => hr (hb.2 hs), hl]

end Order

/-- **`Insert` puts the item before the first one not less than it.** -/
theorem items_insert_ordered (lessThan : U32 → U32 → Bool) (m : Mem) (item : U32)
    (hcap : l.elements.toNat + 4 * (l.size.toNat + 1) ≤ 2 ^ 32) :
    (l.insert lessThan m item).1.items (l.insert lessThan m item).2 =
      (l.items m).orderedInsert (fun a b => lessThan b a = false) item := by
  obtain ⟨-, h2, h3, h4⟩ := scan_spec l lessThan m item l.size.toNat 0
  rw [items_insert lessThan m item hcap]
  refine insertIdx_eq_orderedInsert (by rw [length_items]; exact position_le l lessThan m item)
    (fun j hj hlt => ?_) fun hp => ?_
  · rw [getElem_items, h3 j (Nat.zero_le _) hlt]
    exact Bool.noConfusion
  · rw [length_items] at hp
    rw [getElem_items]
    exact h4 (by unfold position at hp; omega)

/-- **`Remove` at the first position of an item erases it.** -/
theorem items_remove_first (m : Mem) {index : Nat} (hi : index < l.size.toNat)
    (hfirst : ∀ j, j < index → l.getItemAtIndex m j ≠ l.getItemAtIndex m index)
    (hcap : l.elements.toNat + 4 * (l.size.toNat + 1) ≤ 2 ^ 32) :
    (l.remove m index).1.items (l.remove m index).2 = (l.items m).erase (l.getItemAtIndex m index) := by
  rw [items_remove m hi hcap]
  exact eraseIdx_eq_erase (by rw [length_items]; exact hi) (getElem_items l m _) fun j hj hlt => by
    rw [getElem_items]; exact hfirst j hlt

end OrderedList
end Loris
