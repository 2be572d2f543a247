import Loris.BelowHeap
/-!
# BootMemory — what was loaded, after `initialise_paging`

All that `initialise_paging` writes lies behind the placement address that it starts with: the bitmap, the directory and
the page tables, and then the heap.  What the boot loader left below is as it was (`initialisePaging_keeps`).
-/
namespace Loris

open ByteMem

namespace Kernel

variable {k k' : Kernel} {alloc : Allocator} {dir junk i : U32} {p : PagePtr} {t n h : Nat}

/-! ## The loops -/

theorem getPage_keeps (hk : k.kheap = 0) (hp : 0x1000 ≤ k.placement_address.toNat)
    (hhi : k.placement_address.toNat < 0xFFFFE000) {a : U32} (hg : getPage alloc k a dir = some (p, k')) :
    Keeps k.placement_address.toNat (2 ^ 32) k.mem k'.mem := by
  by_cases ht : (k.directories dir).tables (tableIndex a) = 0
  · rw [getPage_placement hk hp ht] at hg
    obtain ⟨-, rfl⟩ := Prod.mk.inj (Option.some.inj hg)
    have hn := toNat_nextPage (p := k.placement_address) (by omega)
    exact (keeps_fill k.mem (nextPage k.placement_address) 0 0x1000 (by omega)).mono (by omega) (by omega)
  · rw [getPage_of_lookup (if_pos ht)] at hg
    obtain ⟨-, rfl⟩ := Prod.mk.inj (Option.some.inj hg)
    exact Keeps.refl _ _ _

theorem mapPage_keeps (hk : k.kheap = 0) (hp : 0x1000 ≤ k.placement_address.toNat)
    (hhi : k.placement_address.toNat < 0xFFFFE000) (hm : mapPage alloc k i = some k') :
    Keeps k.placement_address.toNat (2 ^ 32) k.mem k'.mem := by
  obtain ⟨⟨p, k₁⟩, hg, ha⟩ := Option.bind_eq_some_iff.1 hm
  have hsame : k'.mem = k₁.mem := by rw [allocFrame_same ha]
  rw [hsame]
  exact getPage_keeps hk hp hhi hg

theorem Booting.mapPage_keeps (hb : Booting k dir junk t n h) (hd : DirFits dir) (ht : t ≤ 4)
    (hm : Kernel.mapPage alloc k i = some k') : Keeps dir.toNat (2 ^ 32) k.mem k'.mem := by
  have hpl := hb.placement
  have hlow := hd.low
  have hhigh := hd.high
  exact (Kernel.mapPage_keeps hb.kheap (by omega) (by omega) hm).mono (by omega) (Nat.le_refl _)

theorem Booting.identityLoop_keeps (hd : DirFits dir) {M : Nat} (hM : M ≤ 3840)
    (hfit : dir.toNat + 0x5000 + 0x2000 * ((M + 1023) / 1024) ≤ 0x1000 * M) : ∀ {fuel : Nat} {k : Kernel} {n : Nat}
    {i : U32}, n ≤ M → Booting k dir junk ((n + 1023) / 1024) n 0 → i.toNat = 0x1000 * n →
      Kernel.identityLoop alloc fuel k i = some k' → Keeps dir.toNat (2 ^ 32) k.mem k'.mem := by
  intro fuel
  induction fuel with
  | zero => intro _ _ _ _ _ _ h; cases h
  | succ fuel ih =>
    intro k n i hn hb hi h
    have hpl := hb.placement
    have hhigh := hd.high
    have hbound : (k.placement_address + 0x1000).toNat = k.placement_address.toNat + 0x1000 := toNat_add_page (by omega)
    unfold Kernel.identityLoop at h
    by_cases hlt : i < k.placement_address + 0x1000
    · rw [if_pos hlt] at h
      rw [BitVec.lt_def] at hlt
      obtain ⟨k₁, hk₁, h⟩ := Option.bind_eq_some_iff.1 h
      obtain ⟨k₂, hk₂, hb₂⟩ := @Booting.mapPage k alloc dir junk i n hb hd (by omega) hi
      obtain rfl := Option.some.inj (hk₁.symm.trans hk₂)
      have hnext : (i + 0x1000).toNat = 0x1000 * (n + 1) := by rw [toNat_add_page (by omega)]; omega
      exact (hb.mapPage_keeps hd (by omega) hk₁).trans (ih (by omega) hb₂ hnext h)
    · rw [if_neg hlt] at h
      rw [← Option.some.inj h]
      exact Keeps.refl _ _ _

theorem Booting.allocLoop_keeps (hd : DirFits dir) (ht : t ≤ 4) (hn : n ≤ 1024 * t) (hfit : n + 256 ≤ 4096) :
    ∀ {fuel : Nat} {k : Kernel} {h : Nat} {i : U32}, h ≤ 256 → Booting k dir junk t n h →
      i.toNat = 0xC0000000 + 0x1000 * h → Kernel.allocLoop alloc (kheapStart + kheapInitialSize) fuel k i = some k' →
        Keeps dir.toNat (2 ^ 32) k.mem k'.mem
  | 0, _, _, _, _, _, _, h => by cases h
  | fuel + 1, k, h, i, hh, hb, hi, hrun => by
    have hbound : (kheapStart + kheapInitialSize).toNat = 0xC0100000 := rfl
    unfold Kernel.allocLoop at hrun
    by_cases hlt : i < kheapStart + kheapInitialSize
    · rw [if_pos hlt] at hrun
      rw [BitVec.lt_def] at hlt
      obtain ⟨k₁, hk₁, hrun⟩ := Option.bind_eq_some_iff.1 hrun
      obtain ⟨k₂, hk₂, hb₂⟩ := hb.alloc_heap hd ht hn (by omega) (by omega)
      have hmap : Kernel.mapPage alloc k i = some k₂ := by
        unfold Kernel.mapPage
        rw [getPage_of_lookup (hb.lookup_heap hd (j := h) (by omega) (by omega)), Option.bind_some, hk₂]
      obtain rfl := Option.some.inj (hk₁.symm.trans hmap)
      have hnext : (i + 0x1000).toNat = 0xC0000000 + 0x1000 * (h + 1) := by rw [toNat_add_page (by omega)]; omega
      exact (hb.mapPage_keeps hd ht hk₁).trans (Booting.allocLoop_keeps hd ht hn hfit (by omega) hb₂ hnext hrun)
    · rw [if_neg hlt] at hrun
      rw [← Option.some.inj hrun]
      exact Keeps.refl _ _ _

/-- **The loops write nothing below the placement address** they start with. -/
theorem mapPages_keeps (hs : AtStart k) (hp : 0x100000 ≤ k.placement_address.toNat)
    (hfit : BootFits k.placement_address) {fuel : Nat} (hf : 3841 ≤ fuel) (hm : mapPages alloc fuel k = some k') :
    Keeps k.placement_address.toNat (2 ^ 32) k.mem k'.mem := by
  have hd := dirFits_bootDirectory hp hfit
  have hdir := toNat_bootDirectory hfit
  have hsmall := bootFits_iff.1 hfit
  obtain ⟨M, hM, hbound⟩ := id hfit
  unfold bootBound at hbound
  obtain ⟨k₁, k₂, hmade, hget, hb₂⟩ := @makeDirectory_booting k alloc hs hp hfit
  have h128 : (k.placement_address + 128).toNat = k.placement_address.toNat + 128 := by
    rw [BitVec.toNat_add]
    show (k.placement_address.toNat + 128) % 2 ^ 32 = _
    omega
  have hfirst : (kheapStart + 0x1000).toNat = 0xC0000000 + 0x1000 * 1 := rfl
  -- the bitmap and the directory
  have hk₁ : k₁ = withDirectory k (bootDirectory k.placement_address) :=
    Option.some.inj (hmade.symm.trans (makeDirectory_eq hs.kheap (by omega)))
  have h₁ : Keeps k.placement_address.toNat (2 ^ 32) k.mem k₁.mem := by
    rw [hk₁]
    exact ((keeps_fill k.mem k.placement_address 0 128 (by omega)).mono (Nat.le_refl _) (by omega)).trans
      ((keeps_fill _ (bootDirectory k.placement_address) 0 8196 (by omega)).mono (by omega) (by omega))
  -- the heap's table
  have hpl : k₁.placement_address.toNat = (bootDirectory k.placement_address).toNat + 8196 := by
    rw [hk₁]
    show (bootDirectory k.placement_address + sizeofPageDirectory).toNat = _
    rw [BitVec.toNat_add]
    show (_ + 8196) % 2 ^ 32 = _
    omega
  have hkheap : k₁.kheap = 0 := by rw [hk₁]; exact hs.kheap
  have h₂ := (getPage_keeps hkheap (by omega) (by omega) hget).mono (a := k.placement_address.toNat) (by omega)
    (Nat.le_refl _)
  have hgo : getLoop alloc (kheapStart + kheapInitialSize) fuel k₁ kheapStart = some k₂ := by
    obtain ⟨fuel, rfl⟩ : ∃ f, fuel = f + 1 := ⟨fuel - 1, by omega⟩
    rw [getLoop, if_pos (by decide), hget, Option.bind_some]
    exact hb₂.getLoop hd 255 rfl hfirst (by omega)
  unfold mapPages at hm
  rw [hmade, Option.bind_some, hgo, Option.bind_some] at hm
  obtain ⟨k₃, hk₃, hm⟩ := Option.bind_eq_some_iff.1 hm
  have hzero : (0 : U32).toNat = 0x1000 * 0 := rfl
  have h₃ := (Booting.identityLoop_keeps hd (M := M) (by omega) (by omega) (Nat.zero_le M) hb₂ hzero hk₃).mono
    (a := k.placement_address.toNat) (by omega) (Nat.le_refl _)
  obtain ⟨k₄, N, hid, hN, hb₃, -⟩ := @Booting.identityLoop alloc _ _ hd M (by omega) (by omega) M _ 0 0
    (Nat.zero_add M) hb₂ rfl
  obtain rfl := Option.some.inj (hk₃.symm.trans (hid fuel (by omega)))
  have hstart : kheapStart.toNat = 0xC0000000 + 0x1000 * 0 := rfl
  have h₄ := (Booting.allocLoop_keeps hd (by omega) (by omega) (by omega) (Nat.zero_le _) hb₃ hstart hm).mono
    (a := k.placement_address.toNat) (by omega) (Nat.le_refl _)
  exact ((h₁.trans h₂).trans h₃).trans h₄

/-! ## The heap and the clone -/

theorem madeHeap_keeps (k : Kernel) : Keeps 0xC0000000 (2 ^ 32) k.mem (madeHeap k).mem ∧
    (madeHeap k).heap.index.elements = kheapStart := by
  have hstart : kheapStart.toNat = 0xC0000000 := rfl
  have hsize : (heapIndexSize * 4).toNat = 0x80000 := rfl
  have hfirst : (Heap.firstHeader kheapStart).toNat = 0xC0080000 := by decide
  have h₁ := (keeps_fill k.mem kheapStart 0 (heapIndexSize * 4).toNat (by omega)).mono (b := 2 ^ 32) (Nat.le_refl _)
    (by omega)
  have h₂ := (keeps_writeHeader (OrderedList.new k.mem kheapStart heapIndexSize).2 (Heap.firstHeader kheapStart) true
    (kheapStart + kheapInitialSize - Heap.firstHeader kheapStart) (by omega)).mono (a := kheapStart.toNat) (b := 2 ^ 32)
      (by omega) (by omega)
  have h₃ := OrderedList.keeps_insert (l := ⟨kheapStart, 0, heapIndexSize⟩)
    (headerLessThan (Heap.newMem k.mem kheapStart (kheapStart + kheapInitialSize)))
    (Heap.newMem k.mem kheapStart (kheapStart + kheapInitialSize)) (Heap.firstHeader kheapStart)
    (c := heapIndexSize.toNat) (by decide) (by decide)
  exact ⟨(h₁.trans h₂).trans (h₃.mono (Nat.le_refl _) (by decide)),
    OrderedList.elements_insert ⟨kheapStart, 0, heapIndexSize⟩
      (headerLessThan (Heap.newMem k.mem kheapStart (kheapStart + kheapInitialSize)))
      (Heap.newMem k.mem kheapStart (kheapStart + kheapInitialSize)) (Heap.firstHeader kheapStart)⟩

/-- **`initialise_paging` leaves what was loaded** below the placement address. -/
theorem initialisePaging_keeps {fuel steps : Nat} (hs : AtStart k) (hp : 0x100000 ≤ k.placement_address.toNat)
    (hfit : BootFits k.placement_address)
    (hrun : ∀ loops, steps ≤ loops → initialisePaging (Kernel.alloc (fuel + 1)) loops k = some k') :
    Keeps k.placement_address.toNat (2 ^ 32) k.mem k'.mem ∧ k'.heap.index.elements = kheapStart := by
  have hd := dirFits_bootDirectory hp hfit
  have hsmall := bootFits_iff.1 hfit
  obtain ⟨M, hM, hbound⟩ := id hfit
  obtain ⟨k₁, n, need, hloops, -, hb, -⟩ := @mapPages_booting k (Kernel.alloc (fuel + 1)) hs hp M hM hbound
  have h₁ := mapPages_keeps hs hp hfit (by omega) (hloops (steps + need + 3841) (by omega))
  have hrun' := hrun (steps + need + 3841) (by omega)
  obtain ⟨hsound, k₂, f, b, t, g, ha, ht, -⟩ := madeHeap_alloc k₁
  obtain ⟨g', hi, -⟩ := madeHeap_inv k₁
  obtain ⟨h₂, helem⟩ := madeHeap_keeps k₁
  have hbelow := hsound.confined (by decide) hi (ha fuel)
  have hstart : kheapStart.toNat = 0xC0000000 := rfl
  have hclone : bootClone.toNat = 0xC0081000 := rfl
  have hc32 : bootClone.toNat + 8196 ≤ 2 ^ 32 := by omega
  have hhigh := hd.high
  have hker : k₂.kernel_directory = bootDirectory k.placement_address := by rw [ht.same]; exact hb.kernelDir
  have hsrc : (madeHeap k₁).kernel_directory = bootDirectory k.placement_address := hb.kernelDir
  have hb32 : (bootDirectory k.placement_address).toNat + 8196 ≤ 2 ^ 32 := by omega
  have hap : Apart (bootDirectory k.placement_address).toNat 8196 bootClone.toNat 8196 := .inl (by omega)
  have hkheap : (madeHeap k₁).kheap ≠ 0 := fun h0 => by
    have h1 : k₁.placement_address = 0 := h0
    have h2 := hb.placement
    have h3 : (0 : U32).toNat = 0 := rfl
    rw [h1] at h2
    omega
  have hshared := @cloneDirectory_shared _ _ (bootDirectory k.placement_address) _ _ hkheap (ha fuel) hc32 hb32 hap
    (by rw [hker]; exact hb32) (by rw [hker]; exact hap) fun _ _ _ => by rw [hker]
  unfold initialisePaging at hrun'
  rw [hloops _ (by omega), Option.bind_some, makeHeap_eq hb.kheap, Option.bind_some, hsrc, hshared] at hrun'
  obtain rfl := Option.some.inj hrun'
  -- the clone lies in the heap
  have hfill := (keeps_fill k₂.mem bootClone 0 8196 hc32).mono (a := 0xC0000000) (b := 2 ^ 32) (by omega) hc32
  refine ⟨h₁.trans fun x hx => ?_, hbelow.elements.trans helem⟩
  show fill k₂.mem bootClone 0 8196 x = _
  have hxlt := x.isLt
  rw [hfill x (by omega), hbelow.bytes x (by rw [helem]; omega), h₂ x (by omega)]

end Kernel

end Loris
