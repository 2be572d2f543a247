import Loris.Cloning
/-!
# HeapReady — the rest of `initialise_paging`, and page-aligned blocks from the last hole

Paging is switched on, `kheap` is constructed, and the kernel goes on in a clone of its directory
(`initialisePaging_eq`).  The clone's block leaves the heap a gap in front, the block, and the rest as its last hole
(`alloc_tail`).
-/
namespace Loris

open ByteMem Cut

/-! ## A page-aligned request that only the last hole fits -/

theorem Heap.fits_even {m : Mem} {n a : U32} (h : a.toNat % 2 = 0) :
    Heap.fits m n true a = true ↔ n.toNat ≤ (headerSize m a).toNat := by
  have h12 : (a + sizeofHeader).toNat % 2 = 0 := by
    rw [BitVec.toNat_add, show sizeofHeader.toNat = 12 from rfl]
    omega
  have hodd : maskTest (a + sizeofHeader) = false := by
    have h1 : (a + sizeofHeader) &&& 1 = 0 := BitVec.eq_of_toNat_eq (by rw [toNat_and_one, h12]; rfl)
    unfold maskTest
    rw [h1]
    rfl
  have h0 : headerSize m a - 0 = headerSize m a := BitVec.sub_zero _
  unfold Heap.fits
  simp only [hodd, if_true, Bool.false_eq_true, if_false, decide_eq_true_eq, ge_iff_le, BitVec.le_def, h0]

theorem Heap.findSmallestHole_only {h : Heap} {m : Mem} {base : Nat} {segs : List Seg} {x : Seg} {n : U32} {al : Bool}
    (hm : Marks h m base segs) (hx : x ∈ segs) (hxh : x.hole = true) (hfit : Heap.fits m n al x.addr = true)
    (honly : ∀ y ∈ segs, y.hole = true → y ≠ x → Heap.fits m n al y.addr = false) :
    ∃ i, h.findSmallestHole m n al = some i ∧ h.index.getItemAtIndex m i = x.addr := by
  obtain ⟨j, hj, hjx⟩ := hm.index_of hx hxh
  cases hf : h.findSmallestHole m n al with
  | none =>
    have := Heap.findSmallestHole_none.1 hf j hj
    rw [hjx, hfit] at this
    cases this
  | some i =>
    obtain ⟨hi, hfit', -⟩ := Heap.findSmallestHole_some hf
    obtain ⟨y, hy, hyh, hya⟩ := hm.hole_at hi
    refine ⟨i, rfl, ?_⟩
    by_cases hyx : y = x
    · rw [← hya, hyx]
    · rw [← hya, honly y hy hyh hyx] at hfit'
      cases hfit'

theorem Heap.findSmallestHole_exists {h : Heap} {m : Mem} {base : Nat} {segs : List Seg} {x : Seg} {n : U32}
    (hm : Marks h m base segs) (hx : x ∈ segs) (hxh : x.hole = true) (hfit : n.toNat ≤ x.size.toNat) :
    ∃ i, h.findSmallestHole m n false = some i := by
  obtain ⟨j, hj, hja⟩ := hm.index_of hx hxh
  refine Option.ne_none_iff_exists'.1 fun hno => ?_
  have h1 := Heap.findSmallestHole_none.1 hno j hj
  rw [hja, ← Bool.not_eq_true, fits_plain, BitVec.le_def, (hm.header x hx).2.2] at h1
  exact h1 hfit

namespace Kernel

/-- Only the last hole `x` holds `size` bytes behind its gap, and more than that. -/
structure TailFits (k : Kernel) (pre : List Seg) (x : Seg) (size : U32) : Prop where
  hole : x.hole = true
  even : x.addr.toNat % 2 = 0
  only : ∀ y ∈ pre, y.hole = true → y.addr.toNat % 2 = 0 ∧ y.size.toNat < size.toNat + 20
  gap : 20 ≤ (frontGap x.addr).toNat
  fits : (frontGap x.addr).toNat + (size.toNat + 20) + 20 ≤ x.size.toNat
  room : k.heap.index.size.toNat < heapIndexSize.toNat

/-- **What a page-aligned request takes of the last hole** `x`: a gap `f`, its block `b`, and the rest `t`. -/
structure TailTaken (k : Kernel) (base : Nat) (pre : List Seg) (x : Seg) (size : U32) (k' : Kernel) (f b t : Seg) :
    Prop where
  inv : Inv k'.heap k'.mem base (pre ++ [f, b, t])
  same : k' = { k with
    heap := { k.heap with index := k'.heap.index }
    mem := k'.mem }
  front : f.hole = true ∧ f.addr = x.addr ∧ f.size = frontGap x.addr
  block : b.hole = false ∧ b.addr.toNat = x.addr.toNat + (frontGap x.addr).toNat ∧ b.size.toNat = size.toNat + 20
  rest : t.hole = true ∧ t.addr.toNat = b.addr.toNat + b.size.toNat ∧
    t.addr.toNat + t.size.toNat = x.addr.toNat + x.size.toNat

variable {k : Kernel} {base : Nat} {pre : List Seg} {x : Seg} {size : U32}

/-- **A page-aligned request that only the last hole fits** is sound, and takes its block there. -/
theorem alloc_tail (hi : Inv k.heap k.mem base (pre ++ [x])) (hf : TailFits k pre x size) :
    AllocSound k size true ∧ ∃ k' f b t, (∀ fuel, alloc (fuel + 1) k size true = some (b.addr + sizeofHeader, k')) ∧
      TailTaken k base pre x size k' f b t := by
  have hxm : x ∈ pre ++ [x] := by simp
  have hfits := hf.fits
  have hn : (size + sizeofHeader + sizeofFooter).toNat = size.toNat + 20 := by
    unfold sizeofHeader sizeofFooter
    have := x.size.isLt
    bv_omega
  have hx := hi.header x hxm
  have hw := hi.within x hxm
  have hpass : Heap.fits k.mem (size + sizeofHeader + sizeofFooter) true x.addr = true := by
    rw [Heap.fits_even hf.even, hn, hx.2.2]
    omega
  obtain ⟨i, hfind, hget⟩ := Heap.findSmallestHole_only hi.toMarks hxm hf.hole hpass fun y hy hyh hyx => by
    have hy' : y ∈ pre := by
      rcases List.mem_append.1 hy with hy | hy
      · exact hy
      · exact absurd (List.mem_singleton.1 hy) hyx
    obtain ⟨heven, hlt⟩ := hf.only y hy' hyh
    rw [← Bool.not_eq_true, Heap.fits_even heven, hn, (hi.header y hy).2.2]
    omega
  have hold : HoldsAligned x (size.toNat + 20) := ⟨hf.gap, .inr (by omega)⟩
  refine ⟨.aligned hfind hget hx.2.2 hold fun _ => hf.room, ?_⟩
  obtain ⟨b, segs', ha, -, hbs, f, rest, rfl, hfa, hfs, hfh, -, -, hrest⟩ :=
    allocAt_aligned hi hf.hole hget hold fun _ => hf.room
  have hinv := ha.inv
  obtain ⟨j, hj⟩ := ha.heap
  rw [show pre ++ (f :: b :: rest) ++ [] = pre ++ (f :: b :: rest) by simp] at hinv
  have hcut := hinv.cut
  have hbsz : b.size.toNat = size.toNat + 20 := by rw [hbs, hn]
  have hS : (x.size - frontGap x.addr).toNat = x.size.toNat - (frontGap x.addr).toNat := by
    rw [BitVec.toNat_sub]
    omega
  cases hrest with
  | nothing hs => rw [← hs] at hS; omega
  | hole t _ hth _ hta _ =>
    obtain ⟨c, h1, h2⟩ := cuts_append.1 hcut
    obtain ⟨c', h1', h2'⟩ := cuts_append.1 hi.cut
    obtain rfl := h1.end_unique h1'
    obtain ⟨hf1, hf2, hb1, hb2, ht1, ht2, ht3⟩ := h2
    obtain ⟨hx1, hx2, hx3⟩ := h2'
    simp only [Seg.start_eq, Seg.len_eq, cuts_nil] at hf1 hf2 hb1 hb2 ht1 ht2 ht3 hx1 hx2 hx3
    rw [hj] at ht3
    have hfn : f.size.toNat = (frontGap x.addr).toNat := by rw [hfs]
    simp only at ht3
    refine ⟨_, f, b, t, fun fuel => by rw [alloc_of_found fuel hfind, ha.ptr], hinv, ?_, ⟨hfh, hfa, hfs⟩,
      ⟨ha.live, by omega, hbsz⟩, hth, by omega, by omega⟩
    simp only [hj]

/-- **What a plain request takes of a larger hole** `x`: its block `b`, and the rest `r`. -/
theorem alloc_split {post : List Seg} {i : Nat} (hi : Inv k.heap k.mem base (pre ++ x :: post)) (hx : x.hole = true)
    (hfind : k.heap.findSmallestHole k.mem (size + sizeofHeader + sizeofFooter) false = some i)
    (hget : k.heap.index.getItemAtIndex k.mem i = x.addr) (hsize : size.toNat + 40 ≤ x.size.toNat) : ∃ k' b r,
      (∀ fuel, alloc (fuel + 1) k size false = some (b.addr + sizeofHeader, k')) ∧
        Inv k'.heap k'.mem base (pre ++ [b, r] ++ post) ∧ b.hole = false ∧ b.addr = x.addr ∧
          b.size.toNat = size.toNat + 20 ∧ r.hole = true ∧ r.addr.toNat = x.addr.toNat + (size.toNat + 20) ∧
            r.addr.toNat + r.size.toNat = x.addr.toNat + x.size.toNat := by
  obtain ⟨hlt, -, -⟩ := Heap.findSmallestHole_some hfind
  obtain ⟨b, rest, hb, hba, hbs, hcut, hrest, -⟩ := @allocAt_front _ _ _ _ _ _ _ size hi hx hlt hget (by omega)
  rw [if_neg (by omega)] at hbs
  have hinv := hb.inv
  cases hrest with
  | nothing hs => rw [hs] at hbs; omega
  | hole r _ hrh _ hra _ =>
    obtain ⟨hb1, -, hr1, -, hr2⟩ := hcut
    simp only [Seg.start_eq, Seg.len_eq, cuts_nil] at hb1 hr1 hr2
    exact ⟨_, b, r, fun fuel => by rw [alloc_of_found fuel hfind, hb.ptr], hinv, hb.live, hba, hbs, hrh, by omega,
      by omega⟩

/-! ## The rest of `initialise_paging` -/

/-- `switch_page_directory`, the processor's registers apart. -/
def switchPageDirectory (k : Kernel) (dir : U32) : Kernel := { k with current_directory := dir }

/-- `kheap = kmalloc(sizeof(Heap), ..)` and `*kheap = Heap(..)`. -/
def makeHeap (alloc : Allocator) (k : Kernel) : Option Kernel :=
  (kmalloc alloc k sizeofHeap false).map fun (kheap, _, k) =>
    { k with kheap := kheap }.construct kheapStart (kheapStart + kheapInitialSize) 0xCFFFF000

/-- `initialise_paging`, each loop of `mapPages` with `fuel` steps. -/
def initialisePaging (alloc : Allocator) (fuel : Nat) (k : Kernel) : Option Kernel :=
  (mapPages alloc fuel k).bind fun k =>
    (makeHeap alloc (k.switchPageDirectory k.kernel_directory)).bind fun k =>
      (cloneDirectory alloc k k.kernel_directory).map fun (dir, _, k) => k.switchPageDirectory dir

/-- The kernel with its heap, before the clone. -/
def madeHeap (k : Kernel) : Kernel :=
  { k with
    current_directory := k.kernel_directory
    placement_address := k.placement_address + sizeofHeap
    kheap := k.placement_address }.construct kheapStart (kheapStart + kheapInitialSize) 0xCFFFF000

theorem makeHeap_here {f : Allocator} (hk : k.kheap = 0) :
    makeHeap f k = some ((madeHeap k).switchPageDirectory k.current_directory) := by
  unfold makeHeap
  rw [kmalloc_plain hk]
  rfl

theorem makeHeap_eq {f : Allocator} (hk : k.kheap = 0) :
    makeHeap f (k.switchPageDirectory k.kernel_directory) = some (madeHeap k) :=
  makeHeap_here (k := k.switchPageDirectory k.kernel_directory) hk

theorem madeHeap_inv (k : Kernel) : ∃ g, Inv (madeHeap k).heap (madeHeap k).mem 0xC0080000 [g] ∧ g.hole = true ∧
    g.addr = 0xC0080000 ∧ g.size = 0x80000 := by
  obtain ⟨g, hg, hi⟩ := Heap.new_inv k.mem k.heap (kheapStart + kheapInitialSize) 0xCFFFF000
    (show kheapStart.toNat % 0x1000 = 0 by decide) (by decide)
  have hend : (kheapStart + kheapInitialSize).toNat = 0xC0100000 := rfl
  have hlo : kheapStart.toNat + 0x80000 = 0xC0080000 := rfl
  have hcut : Cuts 0xC0080000 0xC0100000 [g] := hi.cut
  obtain ⟨h1, -, h2⟩ := hcut
  simp only [Seg.start_eq, Seg.len_eq, cuts_nil] at h1 h2
  rw [hlo] at hi
  refine ⟨g, hi, hg, BitVec.eq_of_toNat_eq h1, BitVec.eq_of_toNat_eq ?_⟩
  show g.size.toNat = 0x80000
  omega

/-- Where the clone that `initialise_paging` makes is. -/
def bootClone : U32 := 0xC0081000

theorem madeHeap_alloc (k : Kernel) : AllocSound (madeHeap k) sizeofPageDirectory true ∧ ∃ k' f b t g,
    (∀ fuel, alloc (fuel + 1) (madeHeap k) sizeofPageDirectory true = some (bootClone, k')) ∧
      TailTaken (madeHeap k) 0xC0080000 [] g sizeofPageDirectory k' f b t ∧ f.addr = 0xC0080000 ∧ f.size = 0xFF4 ∧
        b.addr = 0xC0080FF4 ∧ t.addr = 0xC008300C ∧ t.size = 0x7CFF4 := by
  obtain ⟨g, hi, hg, hga, hgs⟩ := madeHeap_inv k
  have hsz : (madeHeap k).heap.index.size = 1 :=
    (Heap.new_index k.mem k.heap (kheapStart + kheapInitialSize) 0xCFFFF000 (show kheapStart.toNat + _ ≤ _ by decide)).1
  have hgap : frontGap g.addr = 0xFF4 := by rw [hga]; decide
  obtain ⟨hs, k', f, b, t, ha, ht⟩ := @alloc_tail (madeHeap k) _ [] _ sizeofPageDirectory hi
    ⟨hg, by rw [hga]; decide, by simp, by rw [hgap]; decide, by rw [hgap, hgs]; decide, by rw [hsz]; decide⟩
  obtain ⟨-, hfa, hfs⟩ := ht.front
  obtain ⟨-, hba, hbs⟩ := ht.block
  obtain ⟨-, hta, hte⟩ := ht.rest
  rw [hgap] at hfs hba
  rw [hga] at hfa hba hte
  rw [hgs] at hte
  have hsize : sizeofPageDirectory.toNat = 8196 := rfl
  have h1 : (0xC0080000 : U32).toNat = 0xC0080000 := rfl
  have h2 : (0xFF4 : U32).toNat = 0xFF4 := rfl
  have h3 : (0x80000 : U32).toNat = 0x80000 := rfl
  have hb : b.addr = 0xC0080FF4 := BitVec.eq_of_toNat_eq (by
    show _ = 0xC0080FF4
    omega)
  refine ⟨hs, k', f, b, t, g, fun fuel => by rw [ha fuel, hb]; rfl, ht, hfa, hfs, hb, BitVec.eq_of_toNat_eq ?_,
    BitVec.eq_of_toNat_eq ?_⟩
  · show _ = 0xC008300C
    omega
  · show _ = 0x7CFF4
    omega

/-- What `initialise_paging` leaves, when the block of the clone has been taken. -/
def booted (k : Kernel) : Kernel := (k.sharedClone bootClone k.kernel_directory).switchPageDirectory bootClone

/-- **The state after `initialise_paging`**, whose loops left `k₁`: the clone at `bootClone` shares the tables of `dir`,
and the heap is a gap `f`, the block `b` of the clone, and the rest `t`. -/
structure AfterBoot (k k₁ : Kernel) (dir : U32) (n : Nat) (f b t : Seg) : Prop where
  booting : Booting k₁ dir k.uninit ((n + 1023) / 1024) n 256
  fits : DirFits dir
  few : n ≤ 3840
  ended : k₁.placement_address.toNat + 0x1000 ≤ 0x1000 * n
  kheap : k.kheap ≠ 0
  kernelDir : k.kernel_directory = dir
  current : k.current_directory = bootClone
  directory : k.directories dir = k₁.directories dir
  clone : ∀ i, i < 1024 → (k.directories bootClone).tables i = (k₁.directories dir).tables i
  clonePhysical : (k.directories bootClone).physicalAddress = k.uninit + 0x1000
  pages : ∀ q : PagePtr, q.table.toNat + 0x1000 ≤ 0xC0080000 → k.page q = k₁.page q
  frames : k.frames = k₁.frames
  inv : Inv k.heap k.mem 0xC0080000 [f, b, t]
  front : f.hole = true ∧ f.addr = 0xC0080000 ∧ f.size = 0xFF4
  block : b.hole = false ∧ b.addr = 0xC0080FF4 ∧ b.size = 0x2018
  rest : t.hole = true ∧ t.addr = 0xC008300C ∧ t.size = 0x7CFF4
  bounds : k.heap.startAddress = 0xCFFFF000 ∧ k.heap.endAddress = 0xC0100000

/-- **`initialise_paging` returns**: its loops end with `k₁`, the heap is made, and the clone shares every table. -/
theorem initialisePaging_loops (fuel : Nat) (hs : AtStart k) (hp : 0x100000 ≤ k.placement_address.toNat) {M : Nat}
    (hM : M + 256 ≤ 4096) (hbound : bootBound k.placement_address.toNat M ≤ 0x1000 * M) :
    ∃ k' k₁ n f b t steps, n ≤ M ∧ AfterBoot k' k₁ (bootDirectory k.placement_address) n f b t ∧ k'.uninit = k.uninit ∧
      ∀ loops, steps ≤ loops → mapPages (alloc (fuel + 1)) loops k = some k₁ ∧
        initialisePaging (alloc (fuel + 1)) loops k = some k' := by
  have hd := dirFits_bootDirectory hp ⟨M, hM, hbound⟩
  obtain ⟨k₁, n, steps, hrun, hn, hb, hend⟩ := @mapPages_booting k (alloc (fuel + 1)) hs hp M hM hbound
  obtain ⟨-, k₂, f, b, t, g, ha, ht, hfa, hfs, hba, hta, hts⟩ := madeHeap_alloc k₁
  generalize bootDirectory k.placement_address = dir at hd hb ⊢
  have hker : k₂.kernel_directory = dir := by rw [ht.same]; exact hb.kernelDir
  have hdirs : k₂.directories = k₁.directories := by rw [ht.same]; rfl
  have hun : k₂.uninit = k.uninit := by rw [ht.same]; exact hb.uninit
  have hhigh := hd.high
  have hlow := hd.low
  have hclone : bootClone.toNat = 0xC0081000 := rfl
  have hkheap : (madeHeap k₁).kheap ≠ 0 := fun h0 => by
    have h1 : k₁.placement_address = 0 := h0
    have h2 := hb.placement
    have h3 : (0 : U32).toNat = 0 := rfl
    rw [h1] at h2
    omega
  have hb32 : dir.toNat + 8196 ≤ 2 ^ 32 := by omega
  have hc32 : bootClone.toNat + 8196 ≤ 2 ^ 32 := by decide
  have hap : Apart dir.toNat 8196 bootClone.toNat 8196 := .inl (by omega)
  have hshared := @cloneDirectory_shared _ _ dir _ _ hkheap (ha fuel) hc32 hb32 hap (by rw [hker]; exact hb32)
    (by rw [hker]; exact hap) fun _ _ _ => by rw [hker]
  refine ⟨booted k₂, k₁, n, f, b, t, steps, hn, ?_, hun, fun loops hl => ⟨hrun loops hl, ?_⟩⟩
  · have hbs : b.size = 0x2018 := BitVec.eq_of_toNat_eq ht.block.2.2
    have hbooted : booted k₂ = (k₂.sharedClone bootClone dir).switchPageDirectory bootClone := by
      unfold booted
      rw [hker]
    rw [hbooted]
    refine ⟨?_, hd, by omega, hend, ?_, hker, rfl, ?_, fun i hi => ?_, ?_, fun q hq => ?_, ?_, ?_,
      ⟨ht.front.1, hfa, hfs⟩,
      ⟨ht.block.1, hba, hbs⟩, ⟨ht.rest.1, hta, hts⟩, ?_⟩
    · show Booting k₁ dir k₂.uninit _ n 256
      rw [hun]
      exact hb
    · show k₂.kheap ≠ 0
      rw [ht.same]
      exact hkheap
    · rw [← hdirs]
      exact sharedClone_other hc32 hb32 hap
    · rw [← hdirs]
      exact (sharedClone_self hc32 hb32 hap hi).1
    · exact sharedClone_physicalAddress k₂ bootClone dir
    · have hpage : k₂.page q = k₁.page q := by rw [ht.same]; rfl
      rw [← hpage]
      exact clear_page (k := k₂) hc32 (by omega) (.inl (by omega))
    · show k₂.frames = _
      rw [ht.same]
      rfl
    · have h1 : b.addr.toNat = 0xC0080FF4 := by rw [hba]; rfl
      have h2 : b.size.toNat = 0x2018 := ht.block.2.2
      have hk := keeps_fill k₂.mem bootClone 0 8196 hc32
      have hi : Inv k₂.heap (fill k₂.mem bootClone 0 8196) 0xC0080000 [f, b, t] :=
        HeapState.inv_inside ht.inv (g := b) (by simp) hk (by omega) (by omega)
      exact hi
    · show k₂.heap.startAddress = _ ∧ k₂.heap.endAddress = _
      rw [ht.same]
      exact ⟨rfl, rfl⟩
  · have hsrc : (madeHeap k₁).kernel_directory = dir := hb.kernelDir
    unfold initialisePaging
    rw [hrun loops hl, Option.bind_some, makeHeap_eq hb.kheap, Option.bind_some, hsrc, hshared]
    unfold booted
    rw [hker]
    rfl

theorem initialisePaging_spec (fuel : Nat) (hs : AtStart k) (hp : 0x100000 ≤ k.placement_address.toNat) {M : Nat}
    (hM : M + 256 ≤ 4096) (hbound : bootBound k.placement_address.toNat M ≤ 0x1000 * M) :
    ∃ k' k₁ n f b t steps, n ≤ M ∧ AfterBoot k' k₁ (bootDirectory k.placement_address) n f b t ∧ k'.uninit = k.uninit ∧
      ∀ loops, steps ≤ loops → initialisePaging (alloc (fuel + 1)) loops k = some k' := by
  obtain ⟨k', k₁, n, f, b, t, steps, hn, hab, hun, hrun⟩ := initialisePaging_loops fuel hs hp hM hbound
  exact ⟨k', k₁, n, f, b, t, steps, hn, hab, hun, fun loops hl => (hrun loops hl).2⟩

end Kernel

end Loris
