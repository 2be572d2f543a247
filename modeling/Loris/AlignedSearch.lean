import Loris.AlignedAlloc
import Loris.SizeOrder
/-!
# AlignedSearch — when the page-aligned search agrees with the split

`FindSmallestHole` takes an offset off a hole's size before it compares, `Alloc` cuts a gap off the chosen hole.  The
search tests `location + sizeof(Header)` with a mask that is 1, so that only odd addresses get an offset, and its
subtraction may wrap around.  `search_agrees` says for which indices the search still answers what the split needs.
-/
namespace Loris

open ByteMem

/-- The size of the gap that `Alloc` cuts off a hole at `pos`. -/
def cutGap (pos : U32) : U32 := if pos &&& 0xFFFFF000 ≠ 0 then frontGap pos else 0

/-- What the search takes off the size of a hole at `location`. -/
def searchOffset (location : U32) : Nat :=
  if location.toNat % 2 = 1 then 0x1000 - (location.toNat + 12) % 0x1000 else 0

namespace Heap

/-- The hole listed at position `i` holds `n` bytes behind the gap. -/
def HoldsBehindGap (h : Heap) (m : Mem) (n : U32) (i : Nat) : Prop :=
  (cutGap (h.index.getItemAtIndex m i)).toNat + n.toNat ≤ (h.sizeAt m i).toNat

/-- **The search agrees with the split**: it returns the position of a hole that holds `n` bytes behind the gap, and
`-1` only when no listed hole does. -/
structure SearchAgrees (h : Heap) (m : Mem) (n : U32) : Prop where
  found : ∀ i, h.findSmallestHole m n true = some i → h.HoldsBehindGap m n i
  absent : h.findSmallestHole m n true = none → ∀ i, i < h.index.size.toNat → ¬ h.HoldsBehindGap m n i

/-- The hole listed at position `i` has no room for the gap and `n` bytes, but has `n` bytes behind the search's offset,
or is smaller than this offset by so little that the difference wraps around to `n` or more. -/
def OnlyPasses (h : Heap) (m : Mem) (n : U32) (i : Nat) : Prop :=
  ¬ h.HoldsBehindGap m n i ∧
    searchOffset (h.index.getItemAtIndex m i) + n.toNat ≤
      if searchOffset (h.index.getItemAtIndex m i) ≤ (h.sizeAt m i).toNat then (h.sizeAt m i).toNat
      else 2 ^ 32 + (h.sizeAt m i).toNat

variable {h : Heap} {m : Mem} {n : U32} {i : Nat}

instance : Decidable (h.HoldsBehindGap m n i) := inferInstanceAs (Decidable (_ ≤ _))

instance : Decidable (h.OnlyPasses m n i) := inferInstanceAs (Decidable (_ ∧ _))

theorem toNat_offset (a : U32) :
    (if maskTest (a + sizeofHeader) then 0x1000 - (a + sizeofHeader) % 0x1000 else 0).toNat =
    searchOffset a := by
  have h12 : (a + sizeofHeader).toNat = (a.toNat + 12) % 2 ^ 32 := BitVec.toNat_add ..
  have hodd : maskTest (a + sizeofHeader) = true ↔ a.toNat % 2 = 1 := by
    have h1 := toNat_and_one (a + sizeofHeader)
    unfold maskTest
    rw [bne_iff_ne, ne_eq, ← BitVec.toNat_inj, h1]
    show ¬ _ = 0 ↔ _
    omega
  unfold searchOffset
  by_cases ha : a.toNat % 2 = 1
  · have h1000 : (0x1000 : U32).toNat = 0x1000 := rfl
    have hmod : ((a + sizeofHeader) % 0x1000).toNat = (a.toNat + 12) % 0x1000 := by
      rw [BitVec.toNat_umod, h12, h1000]
      omega
    rw [if_pos (hodd.2 ha), if_pos ha, BitVec.toNat_sub, hmod, h1000]
    omega
  · rw [if_neg fun h => ha (hodd.1 h), if_neg ha]
    rfl

theorem fits_iff (m : Mem) (n a : U32) : fits m n true a = true ↔ searchOffset a + n.toNat ≤
    if searchOffset a ≤ (headerSize m a).toNat then (headerSize m a).toNat else 2 ^ 32 + (headerSize m a).toNat := by
  have hlt := (headerSize m a).isLt
  have ho : searchOffset a ≤ 0x1000 := by
    unfold searchOffset
    split <;> omega
  unfold fits
  simp only [if_true, decide_eq_true_eq, ge_iff_le, BitVec.le_def]
  rw [BitVec.toNat_sub, toNat_offset]
  split <;> omega

theorem HoldsBehindGap.fits (hh : h.HoldsBehindGap m n i) (ha : 0x1000 ≤ (h.index.getItemAtIndex m i).toNat) :
    Heap.fits m n true (h.index.getItemAtIndex m i) = true := by
  rw [fits_iff]
  unfold HoldsBehindGap cutGap sizeAt at hh
  rw [if_pos (and_page_ne_zero ha), toNat_frontGap] at hh
  have hlt := (headerSize m (h.index.getItemAtIndex m i)).isLt
  unfold searchOffset
  split <;> split <;> omega

theorem onlyPasses_iff : h.OnlyPasses m n i ↔
    ¬ h.HoldsBehindGap m n i ∧ fits m n true (h.index.getItemAtIndex m i) = true := by
  rw [fits_iff]
  exact Iff.rfl

/-- **When the search agrees with the split**: exactly when every listed hole that only passes the test comes behind one
that has the room. -/
theorem search_agrees (habove : ∀ i, i < h.index.size.toNat → 0x1000 ≤ (h.index.getItemAtIndex m i).toNat) :
    h.SearchAgrees m n ↔ ∀ i, i < h.index.size.toNat → h.OnlyPasses m n i → ∃ j, j < i ∧ h.HoldsBehindGap m n j := by
  constructor
  · intro ha i hi honly
    obtain ⟨hno, hfit⟩ := onlyPasses_iff.1 honly
    cases hfind : h.findSmallestHole m n true with
    | none =>
      rw [findSmallestHole_none.1 hfind i hi] at hfit
      cases hfit
    | some j =>
      have hj := ha.found j hfind
      obtain ⟨-, -, hfirst⟩ := findSmallestHole_some hfind
      refine ⟨j, Nat.lt_of_not_le fun hle => ?_, hj⟩
      rcases Nat.eq_or_lt_of_le hle with rfl | hlt
      · exact hno hj
      · rw [hfirst i hlt] at hfit
        cases hfit
  · intro hall
    refine ⟨fun i hfind => ?_, fun hfind i hi hh => ?_⟩
    · obtain ⟨hi, hfit, hfirst⟩ := findSmallestHole_some hfind
      by_contra hno
      obtain ⟨j, hj, hjh⟩ := hall i hi (onlyPasses_iff.2 ⟨hno, hfit⟩)
      have := hjh.fits (habove j (Nat.lt_trans hj hi))
      rw [hfirst j hj] at this
      cases this
    · have := hh.fits (habove i hi)
      rw [findSmallestHole_none.1 hfind i hi] at this
      cases this

theorem search_agrees_page : wholeHeap.heap.SearchAgrees wholeHeap.mem 0x1000 :=
  (search_agrees (by decide +kernel)).2 fun i hi honly => absurd honly (by
    obtain rfl : i = 0 := by
      have h1 : wholeHeap.heap.index.size.toNat = 1 := rfl
      omega
    decide +kernel)

/-- A hole that passes for all of its size has no room for the gap. -/
theorem search_takes_whole : (∀ i, i < wholeHeap.heap.index.size.toNat →
      0x1000 ≤ (wholeHeap.heap.index.getItemAtIndex wholeHeap.mem i).toNat) ∧
    wholeHeap.heap.findSmallestHole wholeHeap.mem 0x10000 true = some 0 ∧
    ¬ wholeHeap.heap.HoldsBehindGap wholeHeap.mem 0x10000 0 ∧ ¬ wholeHeap.heap.SearchAgrees wholeHeap.mem 0x10000 := by
  have hfind : wholeHeap.heap.findSmallestHole wholeHeap.mem 0x10000 true = some 0 := by decide +kernel
  have hno : ¬ wholeHeap.heap.HoldsBehindGap wholeHeap.mem 0x10000 0 := by decide +kernel
  exact ⟨by decide +kernel, hfind, hno, fun h => hno (h.found 0 hfind)⟩

end Heap

end Loris
