import Loris.FreeProbes
import Loris.AlignedAlloc
import Loris.InOrder
/-!
# FreeNotLive — `kfree` of a pointer that is no live block's

`Free` acts on whatever lies before its pointer: the checks of the magic numbers are comments.  `kfree_harmless` says
that null, and any pointer before there is a heap, leaves the heap alone, and that of the other pointers none does
around which `Free` finds nothing to join, nor one that was freed already.
-/
namespace Loris

open ByteMem Cut

/-- The heap object, and the memory of the heap and its index, are as before. -/
structure SameHeap (k k' : Kernel) : Prop where
  heap : k'.heap = k.heap
  mem : ∀ x, k.heap.Covers x → k'.mem x = k.mem x

/-- `kfree(p)` returns and leaves the heap alone. -/
def Harmless (k : Kernel) (p : U32) : Prop := ∃ k', k.kfree p = some k' ∧ SameHeap k k'

/-- `Free(p)` finds nothing to join on either side, and nothing to contract. -/
structure Unattached (k : Kernel) (p : U32) : Prop where
  left : LeftClear k.mem (p - sizeofHeader)
  right : RightClear (setIsHole k.mem (p - sizeofHeader) true) (k.behind p)
  inside : k.behind p ≠ k.heap.endAddress

/-- The pointer of a block that was freed already, in a well-formed heap; what lies beyond the ends of the heap does not
look like a hole. -/
structure FreedAlready (k : Kernel) (segs : List Seg) (b : Seg) : Prop where
  wellFormed : WellFormed k.heap k.mem segs
  direct : k.heap.index.elements.toNat + 4 * heapIndexSize.toNat = k.heap.startAddress.toNat
  mem : b ∈ segs
  hole : b.hole = true
  first : b.addr = k.heap.startAddress → LeftClear k.mem b.addr
  last : b.addr.toNat + b.size.toNat = k.heap.endAddress.toNat → RightClear k.mem (b.addr + b.size)

namespace Kernel

variable {k k' : Kernel} {p : U32}

theorem unifyLeft_of_clear {m : Mem} {a : U32} (hc : LeftClear m a) (footer : U32) :
    Heap.unifyLeft (setIsHole m a true) a footer = (⟨a, footer, true, footer + sizeofFooter⟩, setIsHole m a true) := by
  unfold Heap.unifyLeft
  simp only [(footer_below m a).1, (footer_below m a).2]
  rw [if_neg hc]

theorem unifyRight_of_hole (h : Heap) {m : Mem} {f : Heap.Freeing} (hm : headerMagic m f.testHeader = heapMagic)
    (hh : isHole m f.testHeader = true) :
    ∃ footer i, i ≤ h.index.size.toNat ∧ h.unifyRight m f = ({ f with footer := footer },
      { h with index := { h.index with size := h.index.size - 1 } },
      (h.index.remove (setHeaderSize m f.header (headerSize m f.header + headerSize m f.testHeader)) i).2) := by
  unfold Heap.unifyRight
  rw [if_pos ⟨hm, hh⟩]
  refine ⟨_, _, ?_, rfl⟩
  have := (Heap.searchFrom_spec (h := h) (a := f.testHeader)
    (m := setHeaderSize m f.header (headerSize m f.header + headerSize m f.testHeader)) h.index.size.toNat 0).2.1
  unfold Heap.search
  omega

/-- **With nothing around it, whatever `p` is, the index takes one more header.** -/
theorem free_unattached (hp : p ≠ 0) (hu : Unattached k p) :
    ∃ k', k.free p = some k' ∧ k'.heap.index.size = k.heap.index.size + 1 := by
  have hbehind : p - sizeofHeader + headerSize k.mem (p - sizeofHeader) - sizeofFooter + sizeofFooter = k.behind p :=
    BitVec.sub_add_cancel _ _
  have hright := unifyRight_clear (h := k.heap) (f := ⟨p - sizeofHeader,
    p - sizeofHeader + headerSize k.mem (p - sizeofHeader) - sizeofFooter, true, k.behind p⟩) hu.right
  unfold free
  rw [if_neg hp]
  simp only [unifyLeft_of_clear hu.left, hbehind, hright]
  unfold contractEnd
  simp only [hbehind, if_neg hu.inside, Option.map_some, if_true]
  refine ⟨_, rfl, ?_⟩
  rw [OrderedList.insert_fst]

/-! ## The contraction -/

theorem contractEnd_size {f : Heap.Freeing} (h : contractEnd k f = some k') :
    k'.heap.index.size = k.heap.index.size ∨ k'.heap.index.size = k.heap.index.size - 1 := by
  unfold contractEnd at h
  split at h
  · obtain ⟨⟨n, k₁⟩, hc, rfl⟩ := Option.map_eq_some_iff.1 h
    unfold contract at hc
    obtain ⟨k₂, hl, hk⟩ := Option.map_eq_some_iff.1 hc
    obtain ⟨rfl, rfl⟩ := Prod.mk.inj hk
    have hh : k₂.heap = k.heap := by rw [contractLoop_same hl]
    simp only [hh]
    split
    · exact .inl rfl
    · split
      · exact .inr rfl
      · exact .inl rfl
  · obtain rfl := Option.some.inj h
    exact .inl rfl

/-- **A contraction that leaves the end where it is** keeps the index, and the size of its hole. -/
theorem contractEnd_unmoved {f : Heap.Freeing} (h : contractEnd k f = some k')
    (he : k'.heap.endAddress = k.heap.endAddress) (h20 : 20 ≤ (headerSize k.mem f.header).toNat)
    (hw : f.header.toNat + (headerSize k.mem f.header).toNat < 2 ^ 32) :
    k'.heap.index = k.heap.index ∧ headerSize k'.mem f.header = headerSize k.mem f.header := by
  unfold contractEnd at h
  split at h
  · obtain ⟨⟨n, k₁⟩, hc, rfl⟩ := Option.map_eq_some_iff.1 h
    unfold contract at hc
    obtain ⟨k₂, hl, hk⟩ := Option.map_eq_some_iff.1 hc
    obtain ⟨rfl, rfl⟩ := Prod.mk.inj hk
    have hh : k₂.heap = k.heap := by rw [contractLoop_same hl]
    have hm : k₂.mem = k.mem := by rw [contractLoop_same hl]
    simp only [hh, hm] at he ⊢
    have hgt : headerSize k.mem f.header > 0 := by
      rw [gt_iff_lt, BitVec.lt_def]
      show 0 < _
      omega
    have hnew : contractSize (f.header - k.heap.startAddress) = k.heap.endAddress - k.heap.startAddress := by
      have hend : k.heap.startAddress + contractSize (f.header - k.heap.startAddress) = k.heap.endAddress := by
        split at he
        · exact he
        · split at he <;> exact he
      rw [← hend, BitVec.add_comm, BitVec.add_sub_cancel]
    rw [hnew, BitVec.sub_self, BitVec.sub_zero, if_pos hgt]
    refine ⟨rfl, ?_⟩
    simp only [headerSize_setHeaderSize]
    have hfoot : (f.header + headerSize k.mem f.header - sizeofFooter).toNat =
        f.header.toNat + (headerSize k.mem f.header).toNat - 8 := by
      unfold sizeofFooter
      bv_omega
    rw [headerSize_keep (keeps_writeFooter _ _ f.header (by omega)) (by omega) (.inl (by omega)),
      headerSize_setHeaderSize]
  · obtain rfl := Option.some.inj h
    exact ⟨rfl, rfl⟩

end Kernel

/-! ## A block freed twice -/

section Freed

variable {k k' : Kernel} {segs : List Seg} {b : Seg}

theorem SameHeap.size {s : Seg} (hs : SameHeap k k') (hwf : WellFormed k.heap k.mem segs) (hm : s ∈ segs) :
    headerSize k'.mem s.addr = s.size := by
  have hb := hwf.cut.bounds s hm
  have hr := s.room
  have hw := (hwf.within s hm).2
  simp only [Seg.start_eq, Seg.len_eq] at hb
  have h8 := toNat_add_eight (a := s.addr) (by omega)
  refine (load_congr fun x hx => hs.mem x (.inr ?_)).trans (hwf.header s hm).2.2
  rw [BitVec.toNat_sub] at hx
  omega

theorem FreedAlready.left (hf : FreedAlready k segs b) : LeftClear k.mem b.addr ∨
    ∃ l ∈ segs, l.addr.toNat + l.size.toNat = b.addr.toNat ∧
      Heap.unifyLeft (setIsHole k.mem b.addr true) b.addr b.footer = (⟨l.addr, b.footer, false, b.addr + b.size⟩,
        setHeaderSize (setFooterHeader (setIsHole k.mem b.addr true) b.footer l.addr) l.addr (l.size + b.size)) := by
  by_cases hc : LeftClear k.mem b.addr
  · exact .inl hc
  refine .inr ?_
  obtain ⟨l, hl, hle⟩ := exists_left hf.wellFormed.toInv hf.mem fun he =>
    hc (hf.first (BitVec.eq_of_toNat_eq he))
  have hbw := (hf.wellFormed.within b hf.mem).2
  have hbr := b.room
  have hlr := l.room
  have hbf := Seg.toNat_footer hbw
  have hlf : l.footer = b.addr - sizeofFooter := by
    unfold Seg.footer
    rw [show l.addr + l.size = b.addr from BitVec.eq_of_toNat_eq (by rw [toNat_behind (by omega), hle])]
  obtain ⟨hmagic, hhole⟩ := not_not.1 hc
  have hptr : footerHeader k.mem (b.addr - sizeofFooter) = l.addr := by
    rw [← hlf, (hf.wellFormed.footer l hl (hf.wellFormed.tied l hl)).2]
  have k1 := keeps_setIsHole k.mem b.addr true (by omega)
  have k2 := keeps_setFooterHeader (setIsHole k.mem b.addr true) b.footer l.addr (by omega)
  have hsl : headerSize (setFooterHeader (setIsHole k.mem b.addr true) b.footer l.addr) l.addr = l.size := by
    rw [headerSize_keep k2 (by omega) (.inl (by omega)), headerSize_keep k1 (by omega) (.inl (by omega)),
      (hf.wellFormed.header l hl).2.2]
  have hsb : headerSize (setIsHole k.mem b.addr true) b.addr = b.size := by
    rw [headerSize_setIsHole k.mem true (by omega), (hf.wellFormed.header b hf.mem).2.2]
  refine ⟨l, hl, hle, ?_⟩
  unfold Heap.unifyLeft
  simp only [(footer_below k.mem b.addr).1, (footer_below k.mem b.addr).2]
  rw [if_pos ⟨hmagic, hhole⟩, hptr, hsb, hsl, behind_eq]

theorem FreedAlready.right {m : Mem} (hf : FreedAlready k segs b)
    (hk : Keeps 12 (b.addr.toNat + b.size.toNat) k.mem m) : RightClear m (b.addr + b.size) ∨
    ∃ r ∈ segs, r.addr = b.addr + b.size ∧ headerMagic m r.addr = heapMagic ∧ isHole m r.addr = true ∧
      headerSize m r.addr = r.size := by
  have hbw := (hf.wellFormed.within b hf.mem).2
  by_cases hlast : b.addr.toNat + b.size.toNat = k.heap.endAddress.toNat
  · exact .inl ((hf.last hlast).keep hk (by omega) (by rw [toNat_behind hbw]))
  · obtain ⟨r, hr, hre⟩ := exists_right hf.wellFormed.toInv hf.mem hlast
    have hrw := (hf.wellFormed.within r hr).2
    have hrr := r.room
    have hra : r.addr = b.addr + b.size := BitVec.eq_of_toNat_eq (by rw [toNat_behind hbw, hre])
    have hh := (hf.wellFormed.header r hr).keep hk hrw (.inr (by omega))
    cases hrh : r.hole with
    | true => exact .inr ⟨r, hr, hra, hh.1, hh.2.1.trans hrh, hh.2.2⟩
    | false =>
      refine .inl fun hc => ?_
      rw [← hra, hh.2.1, hrh] at hc
      cases hc.2

theorem SameHeap.not_grown (hs : SameHeap k k') (hsize : k'.heap.index.size = k.heap.index.size + 1) : False := by
  rw [hs.heap] at hsize
  bv_omega

/-- `Free` of the block in a heap that it leaves as it is: the merges, a contraction to the same end, the insertion. -/
theorem FreedAlready.pass (hf : FreedAlready k segs b) (hs : SameHeap k k')
    (hfree : k.free (b.addr + sizeofHeader) = some k') :
    ∃ k₁, Kernel.contractEnd { k with
        heap := (k.heap.join k.mem b.addr b.footer).2.1
        mem := (k.heap.join k.mem b.addr b.footer).2.2 } (k.heap.join k.mem b.addr b.footer).1 = some k₁ ∧
      k₁.heap.endAddress = k.heap.endAddress ∧
      (if (k.heap.join k.mem b.addr b.footer).1.doAdd then
        { k₁ with
          heap := { k₁.heap with index := (k₁.heap.index.insert (headerLessThan k₁.mem) k₁.mem
            (k.heap.join k.mem b.addr b.footer).1.header).1 }
          mem := (k₁.heap.index.insert (headerLessThan k₁.mem) k₁.mem
            (k.heap.join k.mem b.addr b.footer).1.header).2 }
      else k₁) = k' := by
  rw [Kernel.free_eq hf.wellFormed.toInv hf.mem] at hfree
  obtain ⟨k₁, hc, hk'⟩ := Option.map_eq_some_iff.1 hfree
  refine ⟨k₁, hc, ?_, hk'⟩
  have he := congrArg Heap.endAddress hs.heap
  rw [← hk'] at he
  split at he <;> exact he

theorem FreedAlready.low (hf : FreedAlready k segs b) : 0x80000 ≤ k.heap.startAddress.toNat := by
  have hdirect := hf.direct
  have h4 : 4 * heapIndexSize.toNat = 0x80000 := rfl
  omega

/-- With nothing below to join, the index gets a header, or the header reads both sizes. -/
theorem FreedAlready.clear_left (hf : FreedAlready k segs b) (hs : SameHeap k k') (hl : LeftClear k.mem b.addr) :
    k.free (b.addr + sizeofHeader) ≠ some k' := fun hfree => by
  have hwf := hf.wellFormed
  have hbw := hwf.within b hf.mem
  have hbr := b.room
  have hbsize := hs.size hwf hf.mem
  have hlow := hf.low
  have hbf := Seg.toNat_footer hbw.2
  have k1 := keeps_setIsHole k.mem b.addr true (by omega)
  have hsb : headerSize (setIsHole k.mem b.addr true) b.addr = b.size := by
    rw [headerSize_setIsHole k.mem true (by omega), (hwf.header b hf.mem).2.2]
  obtain ⟨k₁, hc, hend, hk'⟩ := hf.pass hs hfree
  unfold Heap.join at hc hk'
  rw [Kernel.unifyLeft_of_clear hl, behind_eq] at hc hk'
  rcases hf.right (k1.mono (by omega) (by omega)) with hr | ⟨r, hrm, hra, hrmagic, hrhole, hrsize⟩
  · -- nothing to join: one more header in the index
    have hright := unifyRight_clear (h := k.heap) (f := ⟨b.addr, b.footer, true, b.addr + b.size⟩) hr
    rw [hright] at hc hk'
    have hun := (Kernel.contractEnd_unmoved hc hend (by simp only [hsb]; omega) (by simp only [hsb]; omega)).1
    refine hs.not_grown ?_
    rw [← hk', if_pos rfl]
    simp only [OrderedList.insert_fst, hun]
  · -- the hole behind: the header has both sizes
    obtain ⟨footer, i, hi, hright⟩ := Kernel.unifyRight_of_hole k.heap (m := setIsHole k.mem b.addr true)
      (f := ⟨b.addr, b.footer, true, b.addr + b.size⟩) (hra ▸ hrmagic) (hra ▸ hrhole)
    rw [hright] at hc hk'
    simp only [hsb, ← hra, hrsize] at hc hk'
    have hrb := (hwf.within r hrm).2
    have hrr := r.room
    have hran := congrArg BitVec.toNat hra
    rw [toNat_behind hbw.2] at hran
    have hsum : (b.size + r.size).toNat = b.size.toNat + r.size.toNat := by
      rw [BitVec.toNat_add]
      omega
    have hdir := hf.direct
    have hidx := hwf.size
    have hgrown : headerSize (k.heap.index.remove (setHeaderSize (setIsHole k.mem b.addr true) b.addr
        (b.size + r.size)) i).2 b.addr = b.size + r.size := by
      rw [headerSize_keep (OrderedList.keeps_remove _ (c := heapIndexSize.toNat) (by omega) hidx hi) (by omega)
        (.inr (by omega)), headerSize_setHeaderSize]
    obtain ⟨hun, hkept⟩ := Kernel.contractEnd_unmoved hc hend (by simp only [hgrown]; omega)
      (by simp only [hgrown]; omega)
    simp only [hgrown] at hkept
    simp only [if_true] at hk'
    obtain ⟨j, hj, -⟩ := hwf.index_of hf.mem hf.hole
    have hless : (k.heap.index.size - 1).toNat = k.heap.index.size.toNat - 1 := by
      rw [BitVec.toNat_sub]
      simp only [BitVec.ofNat_eq_ofNat, BitVec.toNat_ofNat]
      omega
    have hins := OrderedList.keeps_insert (l := k₁.heap.index) (c := heapIndexSize.toNat)
      (headerLessThan k₁.mem) k₁.mem
      b.addr (by rw [hun]; show k.heap.index.elements.toNat + _ ≤ _; omega)
      (by rw [hun]; show (k.heap.index.size - 1).toNat < _; omega)
    have hnew : headerSize k'.mem b.addr = b.size + r.size := by
      rw [← hk', ← hkept]
      exact headerSize_keep hins (by omega) (.inr (by rw [hun]; show k.heap.index.elements.toNat + _ ≤ _; omega))
    rw [hnew] at hbsize
    have := congrArg BitVec.toNat hbsize
    omega

/-- The hole below grows, and the index gets nothing. -/
theorem FreedAlready.hole_left {l : Seg} (hf : FreedAlready k segs b) (hs : SameHeap k k') (hlm : l ∈ segs)
    (hle : l.addr.toNat + l.size.toNat = b.addr.toNat)
    (hleft : Heap.unifyLeft (setIsHole k.mem b.addr true) b.addr b.footer = (⟨l.addr, b.footer, false, b.addr + b.size⟩,
      setHeaderSize (setFooterHeader (setIsHole k.mem b.addr true) b.footer l.addr) l.addr (l.size + b.size))) :
    k.free (b.addr + sizeofHeader) ≠ some k' := fun hfree => by
  have hwf := hf.wellFormed
  have hbw := hwf.within b hf.mem
  have hbr := b.room
  have hlow := hf.low
  have hbf := Seg.toNat_footer hbw.2
  have k1 := keeps_setIsHole k.mem b.addr true (by omega)
  obtain ⟨k₁, hc, hend, hk'⟩ := hf.pass hs hfree
  unfold Heap.join at hc hk'
  have hlr := l.room
  have hlw := (hwf.within l hlm)
  have hlsize := hs.size hwf hlm
  have hsum : (l.size + b.size).toNat = l.size.toNat + b.size.toNat := by
    rw [BitVec.toNat_add]
    omega
  rw [hleft] at hc hk'
  have k2 := keeps_setFooterHeader (setIsHole k.mem b.addr true) b.footer l.addr (by omega)
  have k3 := keeps_setHeaderSize (setFooterHeader (setIsHole k.mem b.addr true) b.footer l.addr) l.addr
    (l.size + b.size)
    (by omega)
  rcases hf.right (((k1.mono (a := 12) (by omega) (by omega)).trans (k2.mono (by omega) (by omega))).trans
      (k3.mono (by omega) (by omega))) with hr | ⟨r, hrm, hra, hrmagic, hrhole, hrsize⟩
  · have hright := unifyRight_clear (h := k.heap) (f := ⟨l.addr, b.footer, false, b.addr + b.size⟩) hr
    rw [hright] at hc hk'
    have hun := (Kernel.contractEnd_unmoved hc hend (by simp only [headerSize_setHeaderSize]; omega)
      (by simp only [headerSize_setHeaderSize]; omega)).2
    simp only [headerSize_setHeaderSize] at hun
    simp only [Bool.false_eq_true, if_false] at hk'
    subst hk'
    rw [hun] at hlsize
    have := congrArg BitVec.toNat hlsize
    omega
  · obtain ⟨footer, i, -, hright⟩ := Kernel.unifyRight_of_hole k.heap
      (m := setHeaderSize (setFooterHeader (setIsHole k.mem b.addr true) b.footer l.addr) l.addr (l.size + b.size))
      (f := ⟨l.addr, b.footer, false, b.addr + b.size⟩) (hra ▸ hrmagic) (hra ▸ hrhole)
    rw [hright] at hc hk'
    simp only [Bool.false_eq_true, if_false] at hk'
    subst hk'
    have hsize := Kernel.contractEnd_size hc
    rw [hs.heap] at hsize
    simp only at hsize
    generalize k.heap.index.size = n at hsize
    rcases hsize with h1 | h1 <;> bv_omega

/-- **A block freed twice changes the heap.** -/
theorem FreedAlready.not_harmless (hf : FreedAlready k segs b) (hheap : k.kheap ≠ 0) :
    ¬ Harmless k (b.addr + sizeofHeader) := by
  rintro ⟨k', hfree, hs⟩
  unfold Kernel.kfree at hfree
  rw [if_pos hheap] at hfree
  rcases hf.left with hl | ⟨l, hlm, hle, hleft⟩
  · exact hf.clear_left hs hl hfree
  · exact hf.hole_left hs hlm hle hleft hfree

/-! ## Pointers that are no live block's -/

/-- **What `kfree` does with a pointer that is no live block's.**  It is harmless for null and without a heap; for
another pointer it is not, if `Free` finds nothing around it, or the block was freed already. -/
theorem kfree_harmless (k : Kernel) (p : U32) : (p = 0 ∨ k.kheap = 0 → Harmless k p) ∧
    (Harmless k p → p = 0 ∨ k.kheap = 0 ∨
      (¬ Unattached k p ∧ ∀ segs b, FreedAlready k segs b → p ≠ b.addr + sizeofHeader)) := by
  constructor
  · intro h
    refine ⟨k, ?_, rfl, fun _ _ => rfl⟩
    unfold Kernel.kfree Kernel.free
    rcases h with rfl | h0
    · simp
    · rw [if_neg (by simp [h0])]
  · intro hh
    by_cases hp : p = 0
    · exact .inl hp
    by_cases hk : k.kheap = 0
    · exact .inr (.inl hk)
    refine .inr (.inr ⟨fun hu => ?_, fun segs b hf he => ?_⟩)
    · obtain ⟨k', hfree, hs⟩ := hh
      obtain ⟨k₁, hfree₁, hsize⟩ := Kernel.free_unattached hp hu
      unfold Kernel.kfree at hfree
      rw [if_pos hk, hfree₁] at hfree
      obtain rfl := Option.some.inj hfree
      exact hs.not_grown hsize
    · subst he
      exact hf.not_harmless hk hh

/-- A pointer into memory that was never in the heap, and the pointer of its only hole, taken for a block. -/
theorem kfree_not_harmless : WellFormed wholeHeap.heap wholeHeap.mem [wholeHole] ∧
    ¬ Harmless wholeHeap 0x200000 ∧ ¬ Harmless wholeHeap (wholeHole.addr + sizeofHeader) := by
  have hwf : WellFormed wholeHeap.heap wholeHeap.mem [wholeHole] := by decide +kernel
  have hkheap : wholeHeap.kheap ≠ 0 := by decide
  refine ⟨hwf, ?_, ?_⟩
  · rintro ⟨k', hfree, hs⟩
    obtain ⟨k₁, hfree₁, hsize⟩ := Kernel.free_unattached (k := wholeHeap) (p := 0x200000) (by decide)
      ⟨by decide +kernel, by decide +kernel, by decide +kernel⟩
    unfold Kernel.kfree at hfree
    rw [if_pos hkheap, hfree₁] at hfree
    obtain rfl := Option.some.inj hfree
    exact hs.not_grown hsize
  · exact FreedAlready.not_harmless ⟨hwf, rfl, List.mem_singleton.2 rfl, rfl, fun _ => by decide +kernel,
      fun _ => by decide +kernel⟩ hkheap

end Freed

end Loris
