import Loris.AllocFit
import Loris.Kernel
/-!
# BestFit — plain `Alloc` from a hole that fits

Over a well-formed heap whose index is in order of size, `FindSmallestHole` finds a smallest hole among those that fit,
and plain `Alloc` cuts its block from the start of that hole and leaves such a heap again (`alloc_plain`).
-/
namespace Loris

open ByteMem Cut

section Search

variable {h : Heap} {m : Mem} {base : Nat} {segs : List Seg} {n : U32} {i : Nat}

/-- **In an index in order of size the search is best fit.** -/
theorem SizeSorted.bestFit (hs : SizeSorted h m) : BestFit h m := by
  refine ⟨fun n i hf => ?_, fun n => ?_⟩
  · obtain ⟨hi, hfit, hfirst⟩ := Heap.findSmallestHole_some hf
    refine ⟨hi, (fits_plain m n _).1 hfit, fun j hj hn => ?_⟩
    rcases Nat.lt_or_ge j i with hlt | hge
    · have hj' := hfirst j hlt
      rw [(fits_plain m n _).2 hn] at hj'
      cases hj'
    · exact hs.sizeAt_le hge hj
  · rw [Heap.findSmallestHole_none]
    refine forall_congr' fun j => forall_congr' fun _ => ?_
    rw [← Bool.not_eq_true, fits_plain]
    exact Iff.rfl

theorem BestFit.segment (hb : BestFit h m) (hm : Marks h m base segs) (hf : h.findSmallestHole m n false = some i) :
    ∃ x ∈ segs, x.hole = true ∧ h.index.getItemAtIndex m i = x.addr ∧ n.toNat ≤ x.size.toNat ∧
      ∀ y ∈ segs, y.hole = true → n.toNat ≤ y.size.toNat → x.size.toNat ≤ y.size.toNat := by
  obtain ⟨hi, hle, hmin⟩ := hb.chosen n i hf
  obtain ⟨x, hx, hxh, hxa⟩ := hm.hole_at hi
  have hxs : h.sizeAt m i = x.size := by unfold Heap.sizeAt; rw [← hxa, (hm.header x hx).2.2]
  refine ⟨x, hx, hxh, hxa.symm, by rw [hxs] at hle; exact hle, fun y hy hyh hn => ?_⟩
  obtain ⟨j, hj, hja⟩ := hm.index_of hy hyh
  have hys : h.sizeAt m j = y.size := by unfold Heap.sizeAt; rw [hja, (hm.header y hy).2.2]
  have := hmin j hj (by rw [hys]; exact hn)
  rw [hxs, hys] at this
  exact this

theorem BestFit.found (hb : BestFit h m) (hm : Marks h m base segs)
    (hfit : ∃ y ∈ segs, y.hole = true ∧ n.toNat ≤ y.size.toNat) : ∃ i, h.findSmallestHole m n false = some i := by
  obtain ⟨y, hy, hyh, hn⟩ := hfit
  obtain ⟨j, hj, hja⟩ := hm.index_of hy hyh
  cases hf : h.findSmallestHole m n false with
  | some i => exact ⟨i, rfl⟩
  | none =>
    refine absurd ?_ ((hb.absent n).1 hf j hj)
    unfold Heap.sizeAt
    rw [hja, (hm.header y hy).2.2]
    exact hn

end Search

/-- **What plain `Alloc` is to leave** of the hole `x` it takes: a block at the start of it, and behind the block a hole
exactly when the remainder has room for a header and a footer. -/
structure PlainAllocated (k : Kernel) (segs : List Seg) (size p : U32) (k' : Kernel) (x b : Seg) (segs' : List Seg) :
    Prop where
  hole : x ∈ segs ∧ x.hole = true ∧ size.toNat + 20 ≤ x.size.toNat
  smallest : ∀ y ∈ segs, y.hole = true → size.toNat + 20 ≤ y.size.toNat → x.size.toNat ≤ y.size.toNat
  ptr : p = b.addr + sizeofHeader
  block : b.addr = x.addr ∧ b.hole = false ∧ size.toNat + 20 ≤ b.size.toNat
  split : ∃ pre rest post, segs = pre ++ x :: post ∧ segs' = pre ++ (b :: rest) ++ post ∧
    (x.size.toNat - (size.toNat + 20) < 20 → rest = [] ∧ b.size = x.size) ∧
    (20 ≤ x.size.toNat - (size.toNat + 20) → b.size.toNat = size.toNat + 20 ∧ ∃ t, rest = [t] ∧ t.hole = true ∧
      t.addr.toNat = b.addr.toNat + b.size.toNat ∧ t.size.toNat = x.size.toNat - b.size.toNat)
  wellFormed : WellFormed k'.heap k'.mem segs'
  sorted : SizeSorted k'.heap k'.mem
  bounds : k'.heap.startAddress = k.heap.startAddress ∧ k'.heap.endAddress = k.heap.endAddress
  frame : Untouched k.heap x.addr.toNat (x.addr.toNat + x.size.toNat) k.mem k'.mem
  same : k' = { k with heap := k'.heap, mem := k'.mem }

section Pass

variable {h : Heap} {m : Mem} {base : Nat} {pre post : List Seg} {x : Seg} {i : Nat} {size : U32}

theorem sizeSorted_plain {b : Seg} {rest : List Seg} {r : U32 × Heap × Mem} (hi : Inv h m base (pre ++ x :: post))
    (hx : x.hole = true) (hidx : i < h.index.size.toNat) (hget : h.index.getItemAtIndex m i = x.addr)
    (hs : SizeSorted h m) (hi' : Inv r.2.1 r.2.2 base (pre ++ (b :: rest) ++ post))
    (hr : LeftOver { h with index := (h.index.remove m i).1 } (h.index.remove m i).2 x.size b r rest) :
    SizeSorted r.2.1 r.2.2 := by
  have hm := hi.toMarks.perm (perm_split pre post x)
  refine hr.sizeSorted ((hm.removeHole hx hidx hget).pairwise_congr hi'.toBody (fun t ht _ => ⟨t, ?_, rfl, rfl⟩)
    (hm.sizeSorted_removeHole hx hidx hget hs))
  simp only [List.mem_append, List.mem_cons] at ht ⊢
  rcases ht with ht | ht
  · exact .inl (.inl ht)
  · exact .inr ht

/-- **The hole that plain `Alloc` takes**, a smallest one among those that fit. -/
theorem SizeSorted.exists_chosen {segs : List Seg} (hs : SizeSorted h m) (hm : Marks h m base segs)
    (hsize : size.toNat + 20 < 2 ^ 32) (hfit : ∃ y ∈ segs, y.hole = true ∧ size.toNat + 20 ≤ y.size.toNat) :
    ∃ i pre x post, segs = pre ++ x :: post ∧
      h.findSmallestHole m (size + sizeofHeader + sizeofFooter) false = some i ∧ i < h.index.size.toNat ∧
      h.index.getItemAtIndex m i = x.addr ∧ x.hole = true ∧ size.toNat + 20 ≤ x.size.toNat ∧
      ∀ y ∈ segs, y.hole = true → size.toNat + 20 ≤ y.size.toNat → x.size.toNat ≤ y.size.toNat := by
  have hn : (size + sizeofHeader + sizeofFooter).toNat = size.toNat + 20 := by
    unfold sizeofHeader sizeofFooter; bv_omega
  obtain ⟨i, hf⟩ := hs.bestFit.found (n := size + sizeofHeader + sizeofFooter) hm (by rw [hn]; exact hfit)
  obtain ⟨x, hx, hxh, hxa, hle, hmin⟩ := hs.bestFit.segment hm hf
  rw [hn] at hle hmin
  obtain ⟨pre, post, hsplit⟩ := List.append_of_mem hx
  exact ⟨i, pre, x, post, hsplit, hf, (Heap.findSmallestHole_some hf).1, hxa, hxh, hle, hmin⟩

end Pass

/-- **Plain `Alloc` is best fit**: over a well-formed heap with its index in order of size, a request that some hole
holds gets the start of a smallest such hole. -/
theorem alloc_plain {k : Kernel} {segs : List Seg} {size : U32} (hwf : WellFormed k.heap k.mem segs)
    (hs : SizeSorted k.heap k.mem) (hsize : size.toNat + 20 < 2 ^ 32)
    (hfit : ∃ y ∈ segs, y.hole = true ∧ size.toNat + 20 ≤ y.size.toNat) :
    ∃ p k' x b segs', (∀ fuel, Kernel.alloc (fuel + 1) k size false = some (p, k')) ∧
      PlainAllocated k segs size p k' x b segs' := by
  obtain ⟨i, pre, x, post, rfl, hf, hidx, hxa, hxh, hle, hmin⟩ := hs.exists_chosen hwf.toMarks hsize hfit
  obtain ⟨b, rest, ha, hb, hbs, hcut, hr, -⟩ := allocAt_front hwf.toInv hxh hidx hxa hle
  obtain ⟨j, hj⟩ := ha.heap
  have hrest : ∀ t ∈ rest, t.tied = true := by
    cases hr with
    | nothing => simp
    | hole t _ _ ht => simpa using ht
  refine ⟨_, _, x, b, _, fun fuel => Kernel.alloc_of_found fuel hf, ⟨by simp, hxh, hle⟩, hmin, ha.ptr,
    ⟨hb, ha.live, ha.enough⟩, ⟨pre, rest, post, rfl, rfl, fun hlt => ?_, fun hge => ?_⟩, ⟨?_, fun s hs' => ?_⟩,
    sizeSorted_plain hwf.toInv hxh hidx hxa hs ha.inv hr, by rw [hj]; exact ⟨rfl, rfl⟩, ha.frame, rfl⟩
  · rw [if_pos hlt] at hbs
    have hsx : b.size = x.size := BitVec.eq_of_toNat_eq hbs
    cases hr with
    | nothing => exact ⟨rfl, hsx⟩
    | hole _ hne => exact absurd hsx hne
  · rw [if_neg (by omega)] at hbs
    refine ⟨hbs, ?_⟩
    cases hr with
    | nothing hsx => rw [hsx] at hbs; omega
    | hole t _ hth =>
      obtain ⟨hbx, -, htb, -, hte⟩ := hcut
      simp only [Seg.start_eq, Seg.len_eq, cuts_nil] at hbx htb hte
      exact ⟨t, rfl, hth, by omega, by omega⟩
  · show Inv _ _ (k.heap.allocAt k.mem i size false).2.1.startAddress.toNat _
    rw [show (k.heap.allocAt k.mem i size false).2.1.startAddress = k.heap.startAddress by rw [hj]]
    exact ha.inv
  · rcases List.mem_append.1 hs' with hs' | hs'
    · rcases List.mem_append.1 hs' with hs' | hs'
      · exact hwf.tied s (by simp [hs'])
      · rcases List.mem_cons.1 hs' with rfl | hs'
        · exact ha.inv.live s (by simp) ha.live
        · exact hrest s hs'
    · exact hwf.tied s (by simp [hs'])

def smallHole : Seg := ⟨0xC0080000, 0x100, true, true, by decide⟩
def midBlock : Seg := ⟨0xC0080100, 0x100, false, true, by decide⟩
def largeHole : Seg := ⟨0xC0080200, 0xE00, true, true, by decide⟩

/-- A kernel with a heap of one page, a block between two holes. -/
def twoHoles : Kernel :=
  Kernel.ofHeap ⟨⟨0xC0000000, 2, heapIndexSize⟩, 0xC0080000, 0xC0081000, 0, false, false⟩
    (layout 0xC0000000 [smallHole, midBlock, largeHole])

theorem alloc_plain_twoHoles : ∃ p k' x b segs', (∀ fuel, Kernel.alloc (fuel + 1) twoHoles 0x80 false = some (p, k')) ∧
    PlainAllocated twoHoles [smallHole, midBlock, largeHole] 0x80 p k' x b segs' :=
  alloc_plain (by decide +kernel) (by decide +kernel) (by decide) ⟨smallHole, by simp, rfl, by decide⟩

end Loris
