import Loris.OrderedList
import Loris.Runs
import Loris.SortedSequence
/-!
# ListRuns — the ordered list over whole runs

Runs of `Insert` and `Remove` on a list object that starts empty; its other constructor takes the storage from `kmalloc`
and leaves the same object over it.  Called with room for one more item and with an index in the list, the two refine a
sequence kept in order (`list_refines`).  Neither checks anything: `insertSlots` and `removeSlots` list the slots the
loops read and write, and `within_storage` says which calls stay below `m_maxSize`.
-/
namespace Loris

open ByteMem Runs SortedSequence

namespace OrderedList

/-- The slots that the scan of `Insert` reads. -/
def scanSlots (l : OrderedList) (lessThan : U32 → U32 → Bool) (m : Mem) (item : U32) : Nat → Nat → List Nat
  | 0, _ => []
  | k + 1, iterator =>
    iterator ::
      if lessThan (l.getItemAtIndex m iterator) item then scanSlots l lessThan m item k (iterator + 1) else []

/-- The slots that the carry loop of `Insert` reads and writes. -/
def carryUpSlots : Nat → Nat → List Nat
  | 0, _ => []
  | k + 1, iterator => (iterator + 1) :: (iterator + 1) :: carryUpSlots k (iterator + 1)

/-- The slots that `Insert` reads and writes, in turn. -/
def insertSlots (l : OrderedList) (lessThan : U32 → U32 → Bool) (m : Mem) (item : U32) : List Nat :=
  let iterator := l.scan lessThan m item l.size.toNat 0
  l.scanSlots lessThan m item l.size.toNat 0 ++
    if iterator = l.size.toNat then [iterator]
    else iterator :: iterator :: carryUpSlots (l.size.toNat - iterator) iterator

/-- The slots that the loop of `Remove` reads and writes. -/
def carryDownSlots : Nat → Nat → List Nat
  | 0, _ => []
  | k + 1, index => (index + 1) :: index :: carryDownSlots k (index + 1)

def removeSlots (l : OrderedList) (index : Nat) : List Nat := carryDownSlots (l.size.toNat - index) index

variable {l : OrderedList} {lessThan : U32 → U32 → Bool} {m : Mem} {item : U32}

theorem lt_of_mem_scanSlots : ∀ {k i j : Nat}, j ∈ l.scanSlots lessThan m item k i → j < i + k
  | k + 1, i, j, h => by
    unfold scanSlots at h
    rcases List.mem_cons.1 h with rfl | h
    · exact Nat.lt_add_of_pos_right (Nat.succ_pos k)
    · split at h
      · have := lt_of_mem_scanSlots h
        omega
      · cases h

theorem mem_carryUpSlots : ∀ {k i j : Nat}, j ∈ carryUpSlots k i ↔ i < j ∧ j ≤ i + k
  | 0, i, j => ⟨fun h => (by cases h), fun h => by omega⟩
  | k + 1, i, j => by
    unfold carryUpSlots
    rw [List.mem_cons, List.mem_cons, mem_carryUpSlots]
    omega

theorem mem_carryDownSlots : ∀ {k i j : Nat}, j ∈ carryDownSlots k i ↔ 0 < k ∧ i ≤ j ∧ j ≤ i + k
  | 0, i, j => ⟨fun h => (by cases h), fun h => by omega⟩
  | k + 1, i, j => by
    unfold carryDownSlots
    rw [List.mem_cons, List.mem_cons, mem_carryDownSlots]
    omega

/-- **`Insert` comes to slot `m_size`, and to none behind it.** -/
theorem insertSlots_end (l : OrderedList) (lessThan : U32 → U32 → Bool) (m : Mem) (item : U32) :
    l.size.toNat ∈ l.insertSlots lessThan m item ∧ ∀ j ∈ l.insertSlots lessThan m item, j ≤ l.size.toNat := by
  have hp := position_le l lessThan m item
  unfold position at hp
  unfold insertSlots
  simp only [List.mem_append]
  refine ⟨.inr ?_, fun j hj => ?_⟩
  · split
    · rename_i he
      rw [he]
      exact List.mem_cons_self
    · rw [List.mem_cons, List.mem_cons, mem_carryUpSlots]
      omega
  · rcases hj with hj | hj
    · have := lt_of_mem_scanSlots hj
      omega
    · split at hj
      · rw [List.mem_singleton] at hj
        omega
      · rw [List.mem_cons, List.mem_cons, mem_carryUpSlots] at hj
        omega

theorem mem_removeSlots {index j : Nat} :
    j ∈ l.removeSlots index ↔ index < l.size.toNat ∧ index ≤ j ∧ j ≤ l.size.toNat := by
  unfold removeSlots
  rw [mem_carryDownSlots]
  omega

end OrderedList

/-- A list object, and the memory its slots are in. -/
structure ListState where
  list : OrderedList
  mem : Mem

namespace ListState

/-- A new list over the storage at `elementsMemAddress`. -/
def start (m : Mem) (elementsMemAddress maxSize : U32) : ListState :=
  ⟨(OrderedList.new m elementsMemAddress maxSize).1, (OrderedList.new m elementsMemAddress maxSize).2⟩

def items (s : ListState) : List U32 := s.list.items s.mem

def call (lessThan : U32 → U32 → Bool) (s : ListState) : Op U32 → ListState
  | .insert item => ⟨(s.list.insert lessThan s.mem item).1, (s.list.insert lessThan s.mem item).2⟩
  | .remove index => ⟨(s.list.remove s.mem index).1, (s.list.remove s.mem index).2⟩

def slots (lessThan : U32 → U32 → Bool) (s : ListState) : Op U32 → List Nat
  | .insert item => s.list.insertSlots lessThan s.mem item
  | .remove index => s.list.removeSlots index

/-- Any call. -/
def Step (lessThan : U32 → U32 → Bool) (s : ListState) (o : Op U32) (t : ListState) : Prop := t = s.call lessThan o

/-- Room for one item more than the one inserted, or an index in the list. -/
def InList (s : ListState) : Op U32 → Prop
  | .insert _ => s.list.size.toNat + 1 < s.list.maxSize.toNat
  | .remove index => index < s.list.size.toNat

instance (s : ListState) : ∀ o, Decidable (s.InList o)
  | .insert _ => inferInstanceAs (Decidable (_ < _))
  | .remove _ => inferInstanceAs (Decidable (_ < _))

/-- A call with room, or with an index in the list. -/
def ListStep (lessThan : U32 → U32 → Bool) (s : ListState) (o : Op U32) (t : ListState) : Prop :=
  s.InList o ∧ t = s.call lessThan o

variable {s t : ListState} {lessThan : U32 → U32 → Bool} {l : List U32}

theorem call_insert (s : ListState) (item : U32) :
    (s.call lessThan (.insert item)).list = { s.list with size := s.list.size + 1 } :=
  OrderedList.insert_fst ..

theorem maxSize_call (s : ListState) : ∀ o, (s.call lessThan o).list.maxSize = s.list.maxSize
  | .insert item => by rw [call_insert]
  | .remove _ => rfl

/-! ## The sequence -/

/-- The list holds the sequence `l`, and has a slot behind it. -/
structure Holds (s : ListState) (l : List U32) : Prop where
  items : s.items = l
  fits : s.list.elements.toNat + 4 * s.list.maxSize.toNat ≤ 2 ^ 32
  slot : s.list.size = 0 ∨ s.list.size.toNat < s.list.maxSize.toNat

theorem holds_start {m : Mem} {elements maxSize : U32} (h : elements.toNat + 4 * maxSize.toNat ≤ 2 ^ 32) :
    (start m elements maxSize).Holds [] :=
  ⟨rfl, h, .inl rfl⟩

theorem Holds.step {o : Op U32} (h : s.Holds l) (hs : ListStep lessThan s o t) : t.Holds (apply lessThan l o) := by
  obtain ⟨hin, rfl⟩ := hs
  have hfits := h.fits
  have hmax := s.list.maxSize.isLt
  cases o with
  | insert item =>
    unfold InList at hin
    have hsize : (s.list.size + 1).toNat = s.list.size.toNat + 1 := by
      rw [BitVec.toNat_add]
      show (s.list.size.toNat + 1) % 2 ^ 32 = _
      omega
    refine ⟨?_, by rw [call_insert]; exact hfits, .inr ?_⟩
    · show (s.list.insert lessThan s.mem item).1.items (s.list.insert lessThan s.mem item).2 = put lessThan item l
      rw [OrderedList.items_insert_ordered _ _ _ (by omega), put_eq_orderedInsert, ← h.items]
      rfl
    · rw [call_insert]
      show (s.list.size + 1).toNat < s.list.maxSize.toNat
      omega
  | remove index =>
    unfold InList at hin
    have hslot : s.list.size.toNat < s.list.maxSize.toNat := h.slot.resolve_left fun h0 => by
      rw [h0] at hin
      exact absurd hin (Nat.not_lt_zero _)
    have hsize : (s.list.size - 1).toNat = s.list.size.toNat - 1 := by
      rw [BitVec.toNat_sub]
      show (2 ^ 32 - 1 + s.list.size.toNat) % 2 ^ 32 = _
      omega
    refine ⟨?_, hfits, .inr ?_⟩
    · show (s.list.remove s.mem index).1.items (s.list.remove s.mem index).2 = l.eraseIdx index
      rw [OrderedList.items_remove _ hin (by omega), ← h.items]
      rfl
    · show (s.list.size - 1).toNat < s.list.maxSize.toNat
      omega

theorem Holds.run : ∀ {ops : List (Op U32)} {s : ListState} {l : List U32}, s.Holds l →
    Reaches (ListStep lessThan) s ops t → t.Holds (run lessThan l ops)
  | [], _, _, h, hr => by
    obtain rfl := hr
    exact h
  | _ :: _, _, _, h, ⟨_, hs, hr⟩ => (h.step hs).run hr

/-! ## The storage -/

/-- **A call stays within the storage**, and a `Remove` with no such index does nothing. -/
structure StaysWithin (lessThan : U32 → U32 → Bool) (s : ListState) (o : Op U32) : Prop where
  size : (s.call lessThan o).list.size.toNat ≤ s.list.maxSize.toNat
  slots : ∀ j ∈ s.slots lessThan o, j < s.list.maxSize.toNat
  absent : ∀ index, o = .remove index → s.list.size.toNat ≤ index → s.call lessThan o = s

/-- A free slot to insert in, or an index in the list and a slot behind it. -/
def HasSlot (s : ListState) : Op U32 → Prop
  | .insert _ => s.list.size.toNat < s.list.maxSize.toNat
  | .remove index => index < s.list.size.toNat ∧ s.list.size.toNat < s.list.maxSize.toNat

theorem staysWithin_iff (s : ListState) (o : Op U32) : s.StaysWithin lessThan o ↔ s.HasSlot o := by
  have hmax := s.list.maxSize.isLt
  cases o with
  | insert item =>
    obtain ⟨hend, hle⟩ := OrderedList.insertSlots_end s.list lessThan s.mem item
    constructor
    · exact fun h => h.slots _ hend
    · intro h
      unfold HasSlot at h
      refine ⟨?_, fun j hj => Nat.lt_of_le_of_lt (hle j hj) h, fun _ he => by cases he⟩
      rw [call_insert, BitVec.toNat_add]
      show (s.list.size.toNat + 1) % 2 ^ 32 ≤ _
      omega
  | remove index =>
    constructor
    · intro h
      by_cases hi : index < s.list.size.toNat
      · exact ⟨hi, h.slots _ (OrderedList.mem_removeSlots.2 ⟨hi, Nat.le_of_lt hi, Nat.le_refl _⟩)⟩
      · -- the size changes whatever the index
        have he := congrArg (fun t : ListState => t.list.size.toNat) (h.absent index rfl (Nat.not_lt.1 hi))
        have hsub : (s.list.size - 1).toNat = s.list.size.toNat := he
        rw [BitVec.toNat_sub] at hsub
        have h1 : (1 : U32).toNat = 1 := rfl
        omega
    · rintro ⟨hi, hlt⟩
      refine ⟨?_, fun j hj => ?_, fun i he hle => ?_⟩
      · show (s.list.size - 1).toNat ≤ _
        rw [BitVec.toNat_sub]
        show (2 ^ 32 - 1 + s.list.size.toNat) % 2 ^ 32 ≤ _
        omega
      · exact Nat.lt_of_le_of_lt (OrderedList.mem_removeSlots.1 hj).2.2 hlt
      · cases he
        omega

theorem elements_call (s : ListState) : ∀ o, (s.call lessThan o).list.elements = s.list.elements
  | .insert item => by rw [call_insert]
  | .remove _ => rfl

theorem HasSlot.keeps {o : Op U32} (h : s.HasSlot o)
    (hfits : s.list.elements.toNat + 4 * s.list.maxSize.toNat ≤ 2 ^ 32) :
    Keeps s.list.elements.toNat (s.list.elements.toNat + 4 * s.list.maxSize.toNat) s.mem (s.call lessThan o).mem := by
  cases o with
  | insert item => exact OrderedList.keeps_insert _ _ _ hfits h
  | remove index => exact OrderedList.keeps_remove _ hfits (Nat.le_of_lt h.2) (Nat.le_of_lt h.1)

/-- **A run with a slot for every call** leaves the memory outside the storage alone, and the size in bounds. -/
theorem HasSlot.run : ∀ {ops : List (Op U32)} {s : ListState},
    s.list.elements.toNat + 4 * s.list.maxSize.toNat ≤ 2 ^ 32 → s.list.size.toNat ≤ s.list.maxSize.toNat →
    Guarded (Step lessThan) HasSlot s ops → Reaches (Step lessThan) s ops t →
      t.list.size.toNat ≤ s.list.maxSize.toNat ∧
        Keeps s.list.elements.toNat (s.list.elements.toNat + 4 * s.list.maxSize.toNat) s.mem t.mem
  | [], _, _, hs, _, hr => by
    obtain rfl := hr
    exact ⟨hs, Keeps.refl _ _ _⟩
  | o :: ops, s, hfits, hs, ⟨hslot, hg⟩, ⟨u, hu, hr⟩ => by
    obtain rfl := hu
    have hsize : (s.call lessThan o).list.size.toNat ≤ _ := ((staysWithin_iff s o).2 hslot).size
    obtain ⟨h1, h2⟩ := HasSlot.run (by rw [elements_call, maxSize_call]; exact hfits)
      (by rw [maxSize_call]; exact hsize) (hg _ rfl) hr
    rw [elements_call, maxSize_call] at h2
    rw [maxSize_call] at h1
    exact ⟨h1, (hslot.keeps hfits).trans h2⟩

end ListState

open ListState

/-- **The list is a sequence kept in order.**  After any run of `Insert`, called while `m_size + 1 < m_maxSize`, and
`Remove`, called with an index in the list, its slots are the sequence that the run makes of the empty one. -/
theorem list_refines {lessThan : U32 → U32 → Bool} [IsStrictWeakOrder U32 fun a b => lessThan a b = true] {m : Mem}
    {elementsMemAddress maxSize : U32} (hfits : elementsMemAddress.toNat + 4 * maxSize.toNat ≤ 2 ^ 32)
    {ops : List (Op U32)} {t : ListState}
    (hr : Reaches (ListStep lessThan) (start m elementsMemAddress maxSize) ops t) :
    t.items = run lessThan [] ops ∧ Sorted lessThan t.items ∧
      (t.items ++ removed lessThan [] ops).Perm (inserted ops) := by
  have h := (holds_start hfits).run hr
  rw [h.items]
  exact ⟨rfl, sorted_run ops List.Pairwise.nil, perm_run lessThan [] ops⟩

instance : IsStrictWeakOrder U32 fun a b => decide (a < b) = true where
  irrefl a := by simp
  trans a b c := by simp only [decide_eq_true_eq]; exact BitVec.lt_trans
  incomp_trans a b c := by simp only [decide_eq_true_eq, BitVec.lt_def]; omega

theorem list_refines_four : ∃ t, Reaches (ListStep fun a b => decide (a < b)) (start (fun _ => 0xFF) 0x1000 8)
    [.insert 5, .insert 3, .insert 9, .remove 1] t ∧ t.items = [3, 9] := by
  have hr : Reaches (ListStep fun a b => decide (a < b)) (start (fun _ => 0xFF) 0x1000 8)
      [.insert 5, .insert 3, .insert 9, .remove 1] _ :=
    ⟨_, ⟨by decide, rfl⟩, _, ⟨by decide +kernel, rfl⟩, _, ⟨by decide +kernel, rfl⟩, _, ⟨by decide +kernel, rfl⟩, rfl⟩
  exact ⟨_, hr, (list_refines (by decide) hr).1.trans (by decide)⟩

/-- **Every call of a run stays within the storage exactly when every call has its slot.** -/
theorem within_storage (lessThan : U32 → U32 → Bool) (m : Mem) (elementsMemAddress maxSize : U32)
    (ops : List (Op U32)) :
    (∀ l₁ o l₂ t, ops = l₁ ++ o :: l₂ → Reaches (ListState.Step lessThan) (start m elementsMemAddress maxSize) l₁ t →
      t.StaysWithin lessThan o) ↔
    ∀ l₁ o l₂ t, ops = l₁ ++ o :: l₂ → Reaches (ListState.Step lessThan) (start m elementsMemAddress maxSize) l₁ t →
      t.HasSlot o := by
  simp only [staysWithin_iff]

/-- `Remove` on a new list: the size wraps around. -/
theorem remove_wraps : (start (fun _ => 0) 0x1000 8).list.size = 0 ∧
    ((start (fun _ => 0) 0x1000 8).call (fun _ _ => false) (.remove 0)).list.size = 0xFFFFFFFF ∧
    ¬ ∀ l₁ o l₂ t, [Op.remove 0] = l₁ ++ o :: l₂ →
      Reaches (ListState.Step fun _ _ => false) (start (fun _ => 0) 0x1000 8) l₁ t →
      t.StaysWithin (fun _ _ => false) o :=
  ⟨rfl, rfl, fun h => absurd (h [] _ [] _ rfl rfl).size (by decide)⟩

end Loris
