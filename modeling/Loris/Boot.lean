import Loris.ExpandPages
/-!
# Boot — `initialise_paging` up to the pages of the heap (`paging.cpp` lines 137 to 174)

Before the heap exists `kmalloc` moves `placement_address` up.  The identity loop maps one page for each step, and moves
its own bound whenever it comes to a page table that is not there.  The frame allocator hands out frames in step with
the page counter, so that every page up to the bound gets the frame of its own number (`boot_identity`).

`frames` is an array of its own here, all clear; in the source it is given 128 bytes for its 128 words.  Where the words
behind them are no one else's and clear (`BitmapAlone`), that is the same; the results on whole runs ask for it.
-/
namespace Loris

open ByteMem

def kheapStart : U32 := 0xC0000000
def kheapInitialSize : U32 := 0x100000
def memEndPage : U32 := 0x1000000

namespace Kernel

/-- `nframes`, the bitmap, and the kernel's directory.  Of the bitmap's 128 words the buffer in memory holds 32; the
field `frames` is the bitmap as long as the others are no one else's. -/
def makeDirectory (alloc : Allocator) (k : Kernel) : Option Kernel :=
  let nframes := memEndPage / 0x1000
  (kmalloc alloc k (indexFromBit nframes) false).bind fun (frames, _, k) =>
    let k := { k with
      frames := ⟨nframes, fun _ => 0⟩
      mem := fill k.mem frames 0 (indexFromBit nframes).toNat }
    (kmalloc alloc k sizeofPageDirectory true).map fun (dir, _, k) =>
      { k.setDirectory dir { PageDirectory.zero with physicalAddress := dir + 0x1000 } with
        mem := fill k.mem dir 0 sizeofPageDirectory.toNat
        kernel_directory := dir }

/-- `for (i = ..; i < bound; i += 0x1000) get_page(i, 1, kernel_directory)`. -/
def getLoop (alloc : Allocator) (bound : U32) : Nat → Kernel → U32 → Option Kernel
  | 0, _, _ => none
  | n + 1, k, i =>
    if i < bound then (getPage alloc k i k.kernel_directory).bind fun r => getLoop alloc bound n r.2 (i + 0x1000)
    else some k

/-- `alloc_frame(get_page(i, 1, kernel_directory), false, false)`. -/
def mapPage (alloc : Allocator) (k : Kernel) (i : U32) : Option Kernel :=
  (getPage alloc k i k.kernel_directory).bind fun r => r.2.allocFrame r.1 false false

/-- The identity loop from `i` on; its bound is read again at each step. -/
def identityLoop (alloc : Allocator) : Nat → Kernel → U32 → Option Kernel
  | 0, _, _ => none
  | n + 1, k, i =>
    if i < k.placement_address + 0x1000 then
      (mapPage alloc k i).bind fun k => identityLoop alloc n k (i + 0x1000)
    else some k

/-- `for (i = ..; i < bound; i += 0x1000) alloc_frame(get_page(i, 1, kernel_directory), false, false)`. -/
def allocLoop (alloc : Allocator) (bound : U32) : Nat → Kernel → U32 → Option Kernel
  | 0, _, _ => none
  | n + 1, k, i =>
    if i < bound then (mapPage alloc k i).bind fun k => allocLoop alloc bound n k (i + 0x1000) else some k

/-- `initialise_paging` up to the pages of the heap, each loop with `fuel` steps. -/
def mapPages (alloc : Allocator) (fuel : Nat) (k : Kernel) : Option Kernel :=
  (makeDirectory alloc k).bind fun k =>
    (getLoop alloc (kheapStart + kheapInitialSize) fuel k kheapStart).bind fun k =>
      (identityLoop alloc fuel k 0).bind fun k =>
        allocLoop alloc (kheapStart + kheapInitialSize) fuel k kheapStart

/-- The address that the tables of `dir` translate `x` to. -/
def translate (k : Kernel) (dir x : U32) : Option U32 :=
  (k.lookupPage x dir).bind fun p =>
    if (k.page p).present then some ((k.page p).frame.setWidth 32 * 0x1000 + x % 0x1000) else none

/-! ## `kmalloc` without a heap -/

variable {k k' : Kernel} {alloc : Allocator}

theorem kmalloc_plain (hk : k.kheap = 0) (size : U32) : kmalloc alloc k size false =
    some (k.placement_address, some k.placement_address,
      { k with placement_address := k.placement_address + size }) := by
  unfold kmalloc
  rw [if_neg (by simp [hk])]
  simp

/-- The page boundary that an aligned `kmalloc` takes from a placement address. -/
def nextPage (p : U32) : U32 := (p &&& 0xFFFFF000) + 0x1000

theorem toNat_nextPage {p : U32} (h : p.toNat < 0xFFFFF000) :
    (nextPage p).toNat = p.toNat / 0x1000 * 0x1000 + 0x1000 := by
  unfold nextPage
  rw [BitVec.toNat_add, toNat_and_page]
  show (p.toNat / 0x1000 * 0x1000 + 0x1000) % 2 ^ 32 = _
  omega

theorem kmalloc_aligned (hk : k.kheap = 0) (hp : 0x1000 ≤ k.placement_address.toNat) (size : U32) :
    kmalloc alloc k size true = some (nextPage k.placement_address, some (nextPage k.placement_address),
      { k with placement_address := nextPage k.placement_address + size }) := by
  unfold kmalloc
  rw [if_neg (by simp [hk]), if_pos ⟨rfl, and_page_ne_zero hp⟩]
  rfl

/-- What `get_page` leaves when it makes `table` in the placement region. -/
def addTable (k : Kernel) (dir : U32) (i : Nat) (table : U32) : Kernel :=
  { k with
    placement_address := table + sizeofPageTable
    directories := fun x => if x = dir then { k.directories dir with
        tables := fun j => if j = i then table else (k.directories dir).tables j
        tablesPhysical := fun j => if j = i then table ||| 0x7 else (k.directories dir).tablesPhysical j }
      else k.directories x
    mem := fill k.mem table 0 0x1000
    pageTables := fun t j => if t = table then Page.zero else k.pageTables t j }

theorem addTable_directory (k : Kernel) (dir : U32) (i : Nat) (table : U32) :
    (addTable k dir i table).directories dir = { k.directories dir with
      tables := fun j => if j = i then table else (k.directories dir).tables j
      tablesPhysical := fun j => if j = i then table ||| 0x7 else (k.directories dir).tablesPhysical j } :=
  if_pos rfl

theorem addTable_page (k : Kernel) (dir : U32) (i : Nat) (table : U32) (q : PagePtr) :
    (addTable k dir i table).page q = if q.table = table then Page.zero else k.page q := rfl

theorem getPage_placement (hk : k.kheap = 0) (hp : 0x1000 ≤ k.placement_address.toNat) {a dir : U32}
    (ht : (k.directories dir).tables (tableIndex a) = 0) : getPage alloc k a dir =
      some (⟨nextPage k.placement_address, pageIndex a⟩,
        addTable k dir (tableIndex a) (nextPage k.placement_address)) := by
  unfold getPage lookupPage
  simp only [ht, ne_eq, not_true_eq_false, if_false]
  rw [kmalloc_aligned hk hp, Option.map_some]
  generalize nextPage k.placement_address = table
  simp only [addTable, setDirectory, Option.getD_some]

/-! ## The state of the loops -/

/-- The table that the identity loop makes for the `j`-th 4 MB. -/
def tableAt (dir : U32) (j : Nat) : U32 := dir + 0x5000 + 0x2000 * BitVec.ofNat 32 j

/-- Where the kernel's directory may be, for the loops to end within the physical memory. -/
structure DirFits (dir : U32) : Prop where
  aligned : dir.toNat % 0x1000 = 0
  low : 0x100000 ≤ dir.toNat
  high : dir.toNat ≤ 0xEF3000

theorem DirFits.toNat_tableAt {dir : U32} (hd : DirFits dir) {j : Nat} (hj : j ≤ 4) :
    (tableAt dir j).toNat = dir.toNat + 0x5000 + 0x2000 * j := by
  have hh := hd.high
  have hv : (BitVec.ofNat 32 j).toNat = j := by rw [BitVec.toNat_ofNat]; omega
  have h5 : (0x5000 : U32).toNat = 0x5000 := rfl
  have h2 : (0x2000 : U32).toNat = 0x2000 := rfl
  unfold tableAt
  rw [BitVec.toNat_add, BitVec.toNat_add, BitVec.toNat_mul, hv, h5, h2]
  omega

/-- **The state of the loops**: the directory has the heap's table and `t` tables from address 0 on, the first `n` pages
have the frames of their numbers, and the first `h` pages of the heap the next ones. -/
structure Booting (k : Kernel) (dir junk : U32) (t n h : Nat) : Prop where
  kheap : k.kheap = 0
  current : k.current_directory = 0
  uninit : k.uninit = junk
  kernelDir : k.kernel_directory = dir
  placement : k.placement_address.toNat = dir.toNat + 0x4000 + 0x2000 * t
  tables : ∀ j, j < 1024 → (k.directories dir).tables j =
    if j = 768 then dir + 0x3000 else if j < t then tableAt dir j else 0
  physical : ∀ j, j < 1024 → (k.directories dir).tablesPhysical j =
    if (k.directories dir).tables j = 0 then 0 else (k.directories dir).tables j ||| 0x7
  physicalAddress : (k.directories dir).physicalAddress = dir + 0x1000
  nframes : k.frames.nframes = 0x1000
  bits : ∀ f, k.frames.bit f = decide (f < n + h)
  low : ∀ m, m < n → (k.page ⟨tableAt dir (m / 1024), m % 1024⟩).present = true ∧
    (k.page ⟨tableAt dir (m / 1024), m % 1024⟩).frame.toNat = m
  lowFree : ∀ m, n ≤ m → m < 1024 * t → (k.page ⟨tableAt dir (m / 1024), m % 1024⟩).frame = 0
  heap : ∀ j, j < h → (k.page ⟨dir + 0x3000, j⟩).present = true ∧ (k.page ⟨dir + 0x3000, j⟩).frame.toNat = n + j
  heapFree : ∀ j, h ≤ j → j < 1024 → (k.page ⟨dir + 0x3000, j⟩).frame = 0

section Steps

variable {dir junk i : U32} {t n h m j : Nat}

theorem tableIndex_of {i : U32} (hi : i.toNat / 0x1000 = m) : tableIndex i = m / 1024 ∧ pageIndex i = m % 1024 := by
  unfold tableIndex pageIndex
  rw [BitVec.toNat_udiv, BitVec.toNat_umod, Frames.toNat_page, hi]
  exact ⟨rfl, rfl⟩

theorem tableIndex_lt (x : U32) : tableIndex x < 1024 := by
  have hx := x.isLt
  rw [(tableIndex_of (i := x) rfl).1]
  omega

theorem DirFits.tableAt_ne (hd : DirFits dir) {i j : Nat} (hi : i ≤ 4) (hj : j ≤ 4) (hij : i ≠ j) :
    tableAt dir i ≠ tableAt dir j := fun he => by
  have h1 := hd.toNat_tableAt hi
  have h2 := hd.toNat_tableAt hj
  rw [he] at h1
  omega

theorem DirFits.toNat_heapTable (hd : DirFits dir) : (dir + 0x3000).toNat = dir.toNat + 0x3000 := by
  have hh := hd.high
  rw [BitVec.toNat_add]
  show (dir.toNat + 0x3000) % 2 ^ 32 = _
  omega

theorem DirFits.heapTable_ne (hd : DirFits dir) {j : Nat} (hj : j ≤ 4) : dir + 0x3000 ≠ tableAt dir j := fun he => by
  have h1 := hd.toNat_tableAt hj
  have h2 := hd.toNat_heapTable
  rw [← he] at h1
  omega

theorem DirFits.ne_zero (hd : DirFits dir) {j : Nat} (hj : j ≤ 4) : tableAt dir j ≠ 0 := fun he => by
  have h1 := hd.toNat_tableAt hj
  have h2 : (0 : U32).toNat = 0 := rfl
  rw [he, h2] at h1
  omega

theorem DirFits.heapTable_ne_zero (hd : DirFits dir) : dir + 0x3000 ≠ 0 := fun he => by
  have h1 := hd.toNat_heapTable
  have h2 : (0 : U32).toNat = 0 := rfl
  rw [he, h2] at h1
  omega

theorem Booting.lookup_low (hb : Booting k dir junk t n h) (hd : DirFits dir) (ht : t ≤ 4)
    (hi : i.toNat / 0x1000 = m) (hm : m / 1024 < t) :
    k.lookupPage i k.kernel_directory = some ⟨tableAt dir (m / 1024), m % 1024⟩ := by
  obtain ⟨h1, h2⟩ := tableIndex_of hi
  have htab := hb.tables (m / 1024) (by omega)
  rw [if_neg (by omega), if_pos hm] at htab
  unfold lookupPage
  rw [hb.kernelDir, h1, h2, htab, if_pos (hd.ne_zero (by omega))]

theorem Booting.lookup_heap (hb : Booting k dir junk t n h) (hd : DirFits dir)
    (hi : i.toNat / 0x1000 = 0xC0000 + j) (hj : j < 256) :
    k.lookupPage i k.kernel_directory = some ⟨dir + 0x3000, j⟩ := by
  obtain ⟨h1, h2⟩ := tableIndex_of hi
  have htab := hb.tables 768 (by decide)
  rw [if_pos rfl] at htab
  unfold lookupPage
  rw [hb.kernelDir, h1, h2, show (0xC0000 + j) / 1024 = 768 by omega, htab, if_pos hd.heapTable_ne_zero,
    show (0xC0000 + j) % 1024 = j by omega]

theorem getPage_of_lookup {a d : U32} {p : PagePtr} (h : k.lookupPage a d = some p) :
    getPage alloc k a d = some (p, k) := by
  unfold getPage
  rw [h]

/-- **A table that is not there is made** from the placement address, past the tables there are. -/
theorem Booting.getPage_new (hb : Booting k dir junk t n h) (hd : DirFits dir) (ht : t < 4) (hn : n ≤ 1024 * t)
    (hi : i.toNat = 0x1000 * (1024 * t)) : ∃ k', getPage alloc k i k.kernel_directory = some (⟨tableAt dir t, 0⟩, k') ∧
      Booting k' dir junk (t + 1) n h := by
  obtain ⟨h1, h2⟩ := tableIndex_of (i := i) (m := 1024 * t) (by omega)
  rw [show 1024 * t / 1024 = t by omega] at h1
  rw [show 1024 * t % 1024 = 0 by omega] at h2
  have hlow := hd.low
  have hhigh := hd.high
  have hal := hd.aligned
  have htab := hb.tables t (by omega)
  rw [if_neg (by omega), if_neg (by omega)] at htab
  have hp := hb.placement
  have hpn : nextPage k.placement_address = tableAt dir t := BitVec.eq_of_toNat_eq (by
    rw [toNat_nextPage (by omega), hd.toNat_tableAt (by omega)]; omega)
  have hne := hd.ne_zero (j := t) (by omega)
  rw [← h1] at htab
  rw [hb.kernelDir, getPage_placement hb.kheap (by omega) htab, h1, h2, hpn]
  refine ⟨_, rfl, ?_⟩
  refine ⟨hb.kheap, hb.current, hb.uninit, hb.kernelDir, ?_, fun j hj => ?_, fun j hj => ?_, ?_, hb.nframes, hb.bits,
    fun m hm => ?_, fun m hm hmt => ?_, fun j hj => ?_, fun j hj hj' => ?_⟩
  · have htn := hd.toNat_tableAt (j := t) (by omega)
    show (tableAt dir t + sizeofPageTable).toNat = _
    rw [BitVec.toNat_add, htn]
    show (_ + 4096) % 2 ^ 32 = _
    omega
  · rw [addTable_directory]
    by_cases hjt : j = t
    · subst hjt
      simp only [if_true]
      rw [if_neg (by omega), if_pos (by omega)]
    · simp only [if_neg hjt]
      rw [hb.tables j hj]
      by_cases hj768 : j = 768
      · rw [if_pos hj768, if_pos hj768]
      · rw [if_neg hj768, if_neg hj768]
        exact if_congr (by omega) rfl rfl
  · rw [addTable_directory]
    by_cases hjt : j = t
    · subst hjt
      simp only [if_true, if_neg hne]
    · simp only [if_neg hjt]
      exact hb.physical j hj
  · rw [addTable_directory]
    exact hb.physicalAddress
  · rw [addTable_page, if_neg (hd.tableAt_ne (by omega) (by omega) (by omega))]
    exact hb.low m hm
  · rw [addTable_page]
    by_cases hmt' : m / 1024 = t
    · rw [if_pos (by rw [hmt'])]
      rfl
    · rw [if_neg (hd.tableAt_ne (by omega) (by omega) hmt')]
      exact hb.lowFree m hm (by omega)
  · rw [addTable_page, if_neg (hd.heapTable_ne (by omega))]
    exact hb.heap j hj
  · rw [addTable_page, if_neg (hd.heapTable_ne (by omega))]
    exact hb.heapFree j hj hj'

theorem Booting.firstFrame (hb : Booting k dir junk t n h) (hlt : n + h < 4096) :
    0 < k.frames.free ∧ ∀ idx, k.frames.firstFrame = some idx → idx.toNat = n + h := by
  have hsc : k.frames.scanned = 4096 := by
    unfold Frames.scanned
    rw [Frames.toNat_index, hb.nframes]
    rfl
  refine ⟨List.countP_pos_iff.2 ⟨n + h, by rw [hsc, List.mem_range]; exact hlt, by simp [hb.bits]⟩, fun idx hidx => ?_⟩
  obtain ⟨-, h1, h2⟩ := Frames.firstFrame_spec hidx
  rw [hb.bits, decide_eq_false_iff_not] at h1
  by_contra hne
  have := h2 (n + h) (by omega)
  simp [hb.bits] at this

theorem Booting.allocFrame (hb : Booting k dir junk t n h) (hlt : n + h < 4096) {p : PagePtr}
    (hp : (k.page p).frame = 0) : ∃ k', k.allocFrame p false false = some k' ∧ SameButPages k k' ∧
      (∀ q, q ≠ p → k'.page q = k.page q) ∧ k'.frames.nframes = 0x1000 ∧
      (∀ f, k'.frames.bit f = decide (f < n + h + 1)) ∧ (k'.page p).present = true ∧
      (k'.page p).frame.toNat = n + h := by
  obtain ⟨hfree, hidx⟩ := hb.firstFrame hlt
  obtain ⟨k', hk', -⟩ := allocFrame_of_free p false false hfree
  refine ⟨k', hk', allocFrame_same hk', ?_⟩
  rcases allocFrame_cases hk' with ⟨hne, -⟩ | ⟨-, hq, idx, hf, hfr, hpage⟩
  · exact absurd hp hne
  · have hi := hidx idx hf
    have haddr : (idx * 0x1000).toNat / 0x1000 = idx.toNat := by
      have h1 : (0x1000 : U32).toNat = 0x1000 := rfl
      rw [BitVec.toNat_mul, h1]; omega
    refine ⟨hq, by rw [hfr]; exact hb.nframes, fun f => ?_, by rw [hpage], ?_⟩
    · rw [hfr, Frames.bit_setFrame, haddr, hb.bits, hi, ← Bool.decide_or]
      exact decide_eq_decide.2 (by omega)
    · rw [hpage]
      show (idx.setWidth 20).toNat = _
      rw [BitVec.toNat_setWidth]
      omega

theorem Booting.alloc_low (hb : Booting k dir junk t n 0) (hd : DirFits dir) (ht : t ≤ 4) (hn : n < 1024 * t) :
    ∃ k', k.allocFrame ⟨tableAt dir (n / 1024), n % 1024⟩ false false = some k' ∧ Booting k' dir junk t (n + 1) 0 := by
  obtain ⟨k', hk', hs, hq, hnf, hbit, hpres, hframe⟩ := hb.allocFrame (by omega) (hb.lowFree n (Nat.le_refl n) hn)
  have hdir : k'.directories = k.directories := by rw [hs]
  have hne : ∀ m, m < 1024 * t → m ≠ n → (⟨tableAt dir (m / 1024), m % 1024⟩ : PagePtr) ≠
      ⟨tableAt dir (n / 1024), n % 1024⟩ := fun m hm hmn he => by
    obtain ⟨h1, h2⟩ := PagePtr.mk.inj he
    by_cases hmd : m / 1024 = n / 1024
    · omega
    · exact hd.tableAt_ne (by omega) (by omega) hmd h1
  have hheap : ∀ j, (⟨dir + 0x3000, j⟩ : PagePtr) ≠ ⟨tableAt dir (n / 1024), n % 1024⟩ := fun j he =>
    hd.heapTable_ne (by omega) (PagePtr.mk.inj he).1
  refine ⟨k', hk', by rw [hs]; exact hb.kheap, by rw [hs]; exact hb.current, by rw [hs]; exact hb.uninit,
    by rw [hs]; exact hb.kernelDir, by rw [hs]; exact hb.placement, fun j hj => ?_, fun j hj => ?_, ?_, hnf, hbit,
    fun m hm => ?_, fun m hm hmt => ?_, fun j hj => absurd hj (Nat.not_lt_zero j), fun j hj hj' => ?_⟩
  · rw [hdir]; exact hb.tables j hj
  · rw [hdir]; exact hb.physical j hj
  · rw [hdir]; exact hb.physicalAddress
  · by_cases hmn : m = n
    · rw [hmn]; exact ⟨hpres, hframe⟩
    · rw [hq _ (hne m (by omega) hmn)]
      exact hb.low m (by omega)
  · rw [hq _ (hne m hmt (by omega))]
    exact hb.lowFree m (by omega) hmt
  · rw [hq _ (hheap j)]
    exact hb.heapFree j hj hj'

theorem Booting.alloc_heap (hb : Booting k dir junk t n h) (hd : DirFits dir) (ht : t ≤ 4) (hn : n ≤ 1024 * t)
    (hh : h < 256) (hlt : n + h < 4096) :
    ∃ k', k.allocFrame ⟨dir + 0x3000, h⟩ false false = some k' ∧ Booting k' dir junk t n (h + 1) := by
  obtain ⟨k', hk', hs, hq, hnf, hbit, hpres, hframe⟩ := hb.allocFrame hlt (hb.heapFree h (Nat.le_refl h) (by omega))
  have hdir : k'.directories = k.directories := by rw [hs]
  have hlow : ∀ m, m < 1024 * t → (⟨tableAt dir (m / 1024), m % 1024⟩ : PagePtr) ≠ ⟨dir + 0x3000, h⟩ := fun m hm he =>
    hd.heapTable_ne (by omega) (PagePtr.mk.inj he).1.symm
  have hheap : ∀ j, j ≠ h → (⟨dir + 0x3000, j⟩ : PagePtr) ≠ ⟨dir + 0x3000, h⟩ := fun j hj he =>
    hj (PagePtr.mk.inj he).2
  refine ⟨k', hk', by rw [hs]; exact hb.kheap, by rw [hs]; exact hb.current, by rw [hs]; exact hb.uninit,
    by rw [hs]; exact hb.kernelDir, by rw [hs]; exact hb.placement, fun j hj => ?_, fun j hj => ?_, ?_, hnf, hbit,
    fun m hm => ?_, fun m hm hmt => ?_, fun j hj => ?_, fun j hj hj' => ?_⟩
  · rw [hdir]; exact hb.tables j hj
  · rw [hdir]; exact hb.physical j hj
  · rw [hdir]; exact hb.physicalAddress
  · rw [hq _ (hlow m (by omega))]
    exact hb.low m hm
  · rw [hq _ (hlow m hmt)]
    exact hb.lowFree m hm hmt
  · by_cases hjh : j = h
    · rw [hjh]; exact ⟨hpres, hframe⟩
    · rw [hq _ (hheap j hjh)]
      exact hb.heap j (by omega)
  · rw [hq _ (hheap j (by omega))]
    exact hb.heapFree j (by omega) hj'

/-- **One step of the identity loop**: it makes a table when the page is the first of its 4 MB. -/
theorem Booting.mapPage (hb : Booting k dir junk ((n + 1023) / 1024) n 0) (hd : DirFits dir) (hn : n < 4096)
    (hi : i.toNat = 0x1000 * n) :
    ∃ k', mapPage alloc k i = some k' ∧ Booting k' dir junk ((n + 1 + 1023) / 1024) (n + 1) 0 := by
  have hmap : ∀ {p : PagePtr} {k₁ : Kernel}, getPage alloc k i k.kernel_directory = some (p, k₁) →
      Kernel.mapPage alloc k i = k₁.allocFrame p false false := fun hg => by
    unfold Kernel.mapPage
    rw [hg, Option.bind_some]
  by_cases hnew : n % 1024 = 0
  · obtain ⟨k₁, hk₁, hb₁⟩ := @Booting.getPage_new k alloc dir junk i _ _ _ hb hd (by omega) (by omega) (by omega)
    rw [show (n + 1023) / 1024 + 1 = (n + 1 + 1023) / 1024 by omega] at hb₁
    obtain ⟨k₂, hk₂, hb₂⟩ := hb₁.alloc_low hd (by omega) (by omega)
    refine ⟨k₂, ?_, hb₂⟩
    rw [hmap hk₁, show (n + 1023) / 1024 = n / 1024 by omega, ← hk₂, hnew]
  · rw [show (n + 1023) / 1024 = (n + 1 + 1023) / 1024 by omega] at hb
    obtain ⟨k₂, hk₂, hb₂⟩ := hb.alloc_low hd (by omega) (by omega)
    exact ⟨k₂, by rw [hmap (getPage_of_lookup (hb.lookup_low hd (by omega) (m := n) (by omega) (by omega))), hk₂], hb₂⟩

/-! ## The loops -/

theorem toNat_add_page {x : U32} (h : x.toNat < 0xFFFFF000) : (x + 0x1000).toNat = x.toNat + 0x1000 := by
  rw [BitVec.toNat_add]
  show (x.toNat + 0x1000) % 2 ^ 32 = _
  omega

theorem Booting.getLoop (hb : Booting k dir junk t n h) (hd : DirFits dir) : ∀ (d : Nat) {fuel j : Nat} {i : U32},
    j + d = 256 → i.toNat = 0xC0000000 + 0x1000 * j → d < fuel →
      getLoop alloc (kheapStart + kheapInitialSize) fuel k i = some k
  | 0, fuel + 1, j, i, hj, hi, _ => by
    have hbound : (kheapStart + kheapInitialSize).toNat = 0xC0100000 := rfl
    unfold Kernel.getLoop
    rw [if_neg (by rw [BitVec.lt_def]; omega)]
  | d + 1, fuel + 1, j, i, hj, hi, hf => by
    have hbound : (kheapStart + kheapInitialSize).toNat = 0xC0100000 := rfl
    have hnext : (i + 0x1000).toNat = 0xC0000000 + 0x1000 * (j + 1) := by rw [toNat_add_page (by omega)]; omega
    unfold Kernel.getLoop
    rw [if_pos (by rw [BitVec.lt_def]; omega), getPage_of_lookup (hb.lookup_heap hd (j := j) (by omega) (by omega)),
      Option.bind_some]
    exact Booting.getLoop hb hd d (by omega) hnext (by omega)

/-- **The identity loop ends**, at a page number that is past its own bound. -/
theorem Booting.identityLoop (hd : DirFits dir) {M : Nat} (hM : M ≤ 3840)
    (hfit : dir.toNat + 0x5000 + 0x2000 * ((M + 1023) / 1024) ≤ 0x1000 * M) : ∀ (d : Nat) {k : Kernel} {n : Nat}
    {i : U32},
    n + d = M → Booting k dir junk ((n + 1023) / 1024) n 0 → i.toNat = 0x1000 * n →
      ∃ k' N, (∀ fuel, d < fuel → identityLoop alloc fuel k i = some k') ∧ N ≤ M ∧
        Booting k' dir junk ((N + 1023) / 1024) N 0 ∧ k'.placement_address.toNat + 0x1000 ≤ 0x1000 * N
  | d, k, n, i, hn, hb, hi => by
    have hp := hb.placement
    have hhigh := hd.high
    have hbound : (k.placement_address + 0x1000).toNat = k.placement_address.toNat + 0x1000 := toNat_add_page (by omega)
    by_cases hlt : k.placement_address.toNat + 0x1000 ≤ 0x1000 * n
    · refine ⟨k, n, fun fuel hf => ?_, by omega, hb, hlt⟩
      obtain ⟨fuel, rfl⟩ : ∃ f, fuel = f + 1 := ⟨fuel - 1, by omega⟩
      unfold Kernel.identityLoop
      rw [if_neg (by rw [BitVec.lt_def]; omega)]
    · obtain ⟨d, rfl⟩ : ∃ e, d = e + 1 := ⟨d - 1, by omega⟩
      obtain ⟨k₁, hk₁, hb₁⟩ := @Booting.mapPage k alloc dir junk i n hb hd (by omega) hi
      have hnext : (i + 0x1000).toNat = 0x1000 * (n + 1) := by rw [toNat_add_page (by omega)]; omega
      obtain ⟨k', N, hrun, hN, hb', hend⟩ := Booting.identityLoop hd hM hfit d (by omega) hb₁ hnext
      refine ⟨k', N, fun fuel hf => ?_, hN, hb', hend⟩
      obtain ⟨fuel, rfl⟩ : ∃ f, fuel = f + 1 := ⟨fuel - 1, by omega⟩
      unfold Kernel.identityLoop
      rw [if_pos (by rw [BitVec.lt_def]; omega), hk₁, Option.bind_some]
      exact hrun fuel (by omega)

theorem Booting.allocLoop (hd : DirFits dir) (ht : t ≤ 4) (hn : n ≤ 1024 * t) (hfit : n + 256 ≤ 4096) : ∀ (d : Nat)
    {k : Kernel} {h : Nat} {i : U32}, h + d = 256 → Booting k dir junk t n h → i.toNat = 0xC0000000 + 0x1000 * h →
      ∃ k', (∀ fuel, d < fuel → allocLoop alloc (kheapStart + kheapInitialSize) fuel k i = some k') ∧
        Booting k' dir junk t n 256
  | 0, k, h, i, hh, hb, hi => by
    have hbound : (kheapStart + kheapInitialSize).toNat = 0xC0100000 := rfl
    obtain rfl : h = 256 := by omega
    refine ⟨k, fun fuel hf => ?_, hb⟩
    obtain ⟨fuel, rfl⟩ : ∃ f, fuel = f + 1 := ⟨fuel - 1, by omega⟩
    unfold Kernel.allocLoop
    rw [if_neg (by rw [BitVec.lt_def]; omega)]
  | d + 1, k, h, i, hh, hb, hi => by
    have hbound : (kheapStart + kheapInitialSize).toNat = 0xC0100000 := rfl
    have hnext : (i + 0x1000).toNat = 0xC0000000 + 0x1000 * (h + 1) := by rw [toNat_add_page (by omega)]; omega
    obtain ⟨k₁, hk₁, hb₁⟩ := hb.alloc_heap hd ht hn (by omega) (by omega)
    obtain ⟨k', hrun, hb'⟩ := Booting.allocLoop hd ht hn hfit d (by omega) hb₁ hnext
    refine ⟨k', fun fuel hf => ?_, hb'⟩
    obtain ⟨fuel, rfl⟩ : ∃ f, fuel = f + 1 := ⟨fuel - 1, by omega⟩
    unfold Kernel.allocLoop Kernel.mapPage
    rw [if_pos (by rw [BitVec.lt_def]; omega), getPage_of_lookup (hb.lookup_heap hd (j := h) (by omega) (by omega)),
      Option.bind_some, hk₁,
      Option.bind_some]
    exact hrun fuel (by omega)

end Steps

/-! ## From the start on -/

/-- The kernel's directory, for the first placement address. -/
def bootDirectory (p : U32) : U32 := nextPage (p + 128)

/-- How far memory is mapped once `n` pages are. -/
def bootBound (p n : Nat) : Nat := (p + 128) / 0x1000 * 0x1000 + 0x5000 + 0x2000 * ((n + 1023) / 1024) + 0x1000

/-- The pages that the identity loop maps leave 256 of the 4096 frames. -/
def BootFits (p : U32) : Prop := ∃ n, n + 256 ≤ 4096 ∧ bootBound p.toNat n ≤ 0x1000 * n

theorem bootFits_iff {p : U32} : BootFits p ↔ p.toNat + 128 < 0xEF3000 := by
  unfold BootFits bootBound
  constructor
  · rintro ⟨n, hn, hb⟩
    omega
  · intro h
    exact ⟨3840, by decide, by omega⟩

/-- Before `initialise_paging`. -/
structure AtStart (k : Kernel) : Prop where
  kheap : k.kheap = 0
  current : k.current_directory = 0

theorem toNat_bootDirectory {p : U32} (hfit : BootFits p) :
    (bootDirectory p).toNat = (p.toNat + 128) / 0x1000 * 0x1000 + 0x1000 := by
  have hlt := bootFits_iff.1 hfit
  have h1 : (p + 128).toNat = p.toNat + 128 := by
    rw [BitVec.toNat_add]
    show (p.toNat + 128) % 2 ^ 32 = _
    omega
  rw [← h1]
  exact toNat_nextPage (by omega)

theorem dirFits_bootDirectory {p : U32} (hp : 0x100000 ≤ p.toNat) (hfit : BootFits p) : DirFits (bootDirectory p) := by
  have hlt := bootFits_iff.1 hfit
  have h := toNat_bootDirectory hfit
  exact ⟨by omega, by omega, by omega⟩

/-- What `makeDirectory` leaves, with the directory at `dir`. -/
def withDirectory (k : Kernel) (dir : U32) : Kernel :=
  { k with
    mem := fill (fill k.mem k.placement_address 0 128) dir 0 8196
    placement_address := dir + sizeofPageDirectory
    frames := ⟨0x1000, fun _ => 0⟩
    directories := fun x => if x = dir then { PageDirectory.zero with physicalAddress := dir + 0x1000 }
      else k.directories x
    kernel_directory := dir }

theorem withDirectory_self (k : Kernel) (dir : U32) :
    (withDirectory k dir).directories dir = { PageDirectory.zero with physicalAddress := dir + 0x1000 } := if_pos rfl

theorem makeDirectory_eq (hk : k.kheap = 0) (hp : 0x1000 ≤ (k.placement_address + 128).toNat) :
    makeDirectory alloc k = some (withDirectory k (bootDirectory k.placement_address)) := by
  have hidx : indexFromBit (memEndPage / 0x1000) = 128 := by decide
  have hn : memEndPage / 0x1000 = 0x1000 := by decide
  unfold makeDirectory bootDirectory
  simp only
  rw [kmalloc_plain hk, Option.bind_some, hidx, hn, kmalloc_aligned (by exact hk) (by exact hp), Option.map_some]
  generalize nextPage (k.placement_address + 128) = dir
  simp only [withDirectory, setDirectory]
  rfl

/-- **The directory and the heap's table**: the first step of the first loop starts `Booting`. -/
theorem makeDirectory_booting (hs : AtStart k) (hp : 0x100000 ≤ k.placement_address.toNat)
    (hfit : BootFits k.placement_address) : ∃ k₁ k₂, makeDirectory alloc k = some k₁ ∧
      getPage alloc k₁ kheapStart k₁.kernel_directory = some (⟨bootDirectory k.placement_address + 0x3000, 0⟩, k₂) ∧
        Booting k₂ (bootDirectory k.placement_address) k.uninit 0 0 0 := by
  have hd := dirFits_bootDirectory hp hfit
  have hlt := bootFits_iff.1 hfit
  have h1 : (k.placement_address + 128).toNat = k.placement_address.toNat + 128 := by
    rw [BitVec.toNat_add]
    show (k.placement_address.toNat + 128) % 2 ^ 32 = _
    omega
  have hlow := hd.low
  have hhigh := hd.high
  have hal := hd.aligned
  have h1000 : 0x1000 ≤ (k.placement_address + 128).toNat := by omega
  revert hd hlow hhigh hal
  have hmade := @makeDirectory_eq k alloc hs.kheap h1000
  generalize bootDirectory k.placement_address = dir at hmade ⊢
  intro hd hlow hhigh hal
  have hplace : (withDirectory k dir).placement_address.toNat = dir.toNat + 8196 := by
    show (dir + sizeofPageDirectory).toNat = _
    rw [BitVec.toNat_add]
    show (dir.toNat + 8196) % 2 ^ 32 = _
    omega
  have htable : nextPage (withDirectory k dir).placement_address = dir + 0x3000 := BitVec.eq_of_toNat_eq (by
    rw [toNat_nextPage (by omega), hd.toNat_heapTable]; omega)
  have hidx : tableIndex kheapStart = 768 ∧ pageIndex kheapStart = 0 := tableIndex_of (m := 0xC0000) rfl
  have hzero : ((withDirectory k dir).directories dir).tables (tableIndex kheapStart) = 0 := by
    rw [withDirectory_self]; rfl
  have hget := @getPage_placement (withDirectory k dir) alloc hs.kheap
    (by omega) kheapStart dir hzero
  rw [htable, hidx.1, hidx.2] at hget
  refine ⟨_, _, hmade, hget, ?_⟩
  refine ⟨hs.kheap, hs.current, rfl, rfl, ?_, fun j hj => ?_, fun j hj => ?_, ?_, rfl, fun f => ?_,
    fun m hm => absurd hm (Nat.not_lt_zero m), fun m hm hmt => absurd hmt (by omega),
    fun j hj => absurd hj (Nat.not_lt_zero j), fun j hj hj' => ?_⟩
  · have hh := hd.toNat_heapTable
    show (dir + 0x3000 + sizeofPageTable).toNat = _
    rw [BitVec.toNat_add, hh]
    show (_ + 4096) % 2 ^ 32 = _
    omega
  · rw [addTable_directory, withDirectory_self]
    simp only [Nat.not_lt_zero, if_false, PageDirectory.zero]
  · have hne := hd.heapTable_ne_zero
    rw [addTable_directory, withDirectory_self]
    by_cases hj768 : j = 768
    · simp only [hj768, if_true, if_neg hne]
    · simp only [if_neg hj768, PageDirectory.zero, if_true]
  · rw [addTable_directory, withDirectory_self]
  · show (0 : U32).getLsbD (f % 32) = _
    simp
  · rw [addTable_page, if_pos rfl]
    rfl

/-- **The loops end in `Booting`**, with `n` pages of identity mapping that reach the bound. -/
theorem mapPages_booting (hs : AtStart k) (hp : 0x100000 ≤ k.placement_address.toNat) {M : Nat} (hM : M + 256 ≤ 4096)
    (hbound : bootBound k.placement_address.toNat M ≤ 0x1000 * M) :
    ∃ k' n steps, (∀ fuel, steps ≤ fuel → mapPages alloc fuel k = some k') ∧ n ≤ M ∧
    Booting k' (bootDirectory k.placement_address) k.uninit ((n + 1023) / 1024) n 256 ∧
        k'.placement_address.toNat + 0x1000 ≤ 0x1000 * n := by
  have hfit : BootFits k.placement_address := ⟨M, hM, hbound⟩
  have hd := dirFits_bootDirectory hp hfit
  have hdir := toNat_bootDirectory hfit
  unfold bootBound at hbound
  obtain ⟨k₁, k₂, hmade, hget, hb₂⟩ := @makeDirectory_booting k alloc hs hp hfit
  have hfirst : (kheapStart + 0x1000).toNat = 0xC0000000 + 0x1000 * 1 := rfl
  obtain ⟨k₃, n, hid, hn, hb₃, hend⟩ := @Booting.identityLoop alloc _ _ hd _ (by omega) (by omega) M _ 0 0
    (Nat.zero_add M) hb₂ rfl
  obtain ⟨k₄, hall, hb₄⟩ := Booting.allocLoop hd (by omega) (by omega) (by omega) 256
    (i := kheapStart) rfl hb₃ rfl
  have hplace : k₄.placement_address = k₃.placement_address := by
    have h3 := hb₃.placement
    have h4 := hb₄.placement
    exact BitVec.eq_of_toNat_eq (by omega)
  refine ⟨k₄, n, 3841, fun fuel hf => ?_, hn, hb₄, by rw [hplace]; exact hend⟩
  obtain ⟨fuel, rfl⟩ : ∃ f, fuel = f + 1 := ⟨fuel - 1, by omega⟩
  have hgo : getLoop alloc (kheapStart + kheapInitialSize) (fuel + 1) k₁ kheapStart = some k₂ := by
    rw [getLoop, if_pos (by decide), hget, Option.bind_some]
    exact hb₂.getLoop hd 255 rfl hfirst (by omega)
  unfold mapPages
  rw [hmade, Option.bind_some, hgo, Option.bind_some, hid _ (by omega), Option.bind_some]
  exact hall _ (by omega)

/-! ## What the loops leave -/

/-- The kernel's tables have the page of `x` present, with frame `f`. -/
def MappedTo (k : Kernel) (x : U32) (f : Nat) : Prop :=
  ∃ p, k.lookupPage x k.kernel_directory = some p ∧ (k.page p).present = true ∧ (k.page p).frame.toNat = f

/-- The addresses that `initialise_paging` maps: those from 0 on up to a page behind the placement address, and the
first pages of the heap. -/
def BootRange (k : Kernel) (x : U32) : Prop :=
  x.toNat / 0x1000 * 0x1000 < k.placement_address.toNat + 0x1000 ∨
    kheapStart.toNat ≤ x.toNat ∧ x.toNat < (kheapStart + kheapInitialSize).toNat

/-- `sizeof(Heap)`. -/
def sizeofHeap : U32 := 32

theorem MappedTo.unique {x : U32} {f g : Nat} (h₁ : MappedTo k x f) (h₂ : MappedTo k x g) : f = g := by
  obtain ⟨p, hp, -, rfl⟩ := h₁
  obtain ⟨q, hq, -, rfl⟩ := h₂
  rw [hp] at hq
  rw [Option.some.inj hq]

theorem MappedTo.translate {x : U32} (h : MappedTo k x (x.toNat / 0x1000)) :
    translate k k.kernel_directory x = some x := by
  obtain ⟨p, hp, hpres, hf⟩ := h
  unfold Kernel.translate
  rw [hp, Option.bind_some, if_pos hpres]
  refine congrArg some (BitVec.eq_of_toNat_eq ?_)
  have h1 : (0x1000 : U32).toNat = 0x1000 := rfl
  have h2 := x.isLt
  rw [BitVec.toNat_add, BitVec.toNat_mul, BitVec.toNat_setWidth, BitVec.toNat_umod, h1, hf]
  omega

variable {dir junk x y : U32} {n : Nat}

theorem Booting.mapped_low (hb : Booting k dir junk ((n + 1023) / 1024) n 256) (hd : DirFits dir) (hn : n ≤ 3840)
    (hx : x.toNat / 0x1000 < n) : MappedTo k x (x.toNat / 0x1000) :=
  ⟨_, hb.lookup_low hd (by omega) rfl (by omega), hb.low _ hx⟩

theorem Booting.mapped_heap (hb : Booting k dir junk ((n + 1023) / 1024) n 256) (hd : DirFits dir)
    (hlo : 0xC0000000 ≤ x.toNat) (hhi : x.toNat < 0xC0100000) :
    MappedTo k x (n + (x.toNat / 0x1000 - 0xC0000)) :=
  ⟨_, hb.lookup_heap hd (j := x.toNat / 0x1000 - 0xC0000) (by omega) (by omega), hb.heap _ (by omega)⟩

theorem Booting.free {t h : Nat} (hb : Booting k dir junk t n h) (hn : n + h ≤ 4096) :
    k.frames.free = 4096 - (n + h) := by
  have hsc : k.frames.scanned = 4096 := by
    unfold Frames.scanned
    rw [Frames.toNat_index, hb.nframes]
    rfl
  unfold Frames.free
  rw [hsc, show 4096 = (n + h) + (4096 - (n + h)) by omega, List.range_add, List.countP_append,
    List.countP_eq_zero.2 fun f hf => by simp [hb.bits, List.mem_range.1 hf], List.countP_map,
    List.countP_eq_length.2 fun f _ => by simp [hb.bits], List.length_range]
  omega

theorem Booting.table_lt (hb : Booting k dir junk ((n + 1023) / 1024) n 256) (hd : DirFits dir) (hn : n ≤ 3840)
    (hend : k.placement_address.toNat + 0x1000 ≤ 0x1000 * n) {j : Nat} (hj : j < 1024)
    (ht : (k.directories dir).tables j ≠ 0) : ((k.directories dir).tables j).toNat + 0x1000 ≤ 0x1000 * n := by
  have hp := hb.placement
  rw [hb.tables j hj] at ht ⊢
  split at ht
  · rw [if_pos ‹_›, hd.toNat_heapTable]
    omega
  · split at ht
    · rw [if_neg ‹_›, if_pos ‹_›, hd.toNat_tableAt (by omega)]
      omega
    · exact absurd rfl ht

/-- **The loops of `initialise_paging` end**, with every page up to one behind the placement address mapped to the frame
of its own number, a frame for each page of the heap, and no frame twice.  The page tables, and the heap object that
is allocated next, are where the tables say they are. -/
theorem boot_identity (hs : AtStart k) (hp : 0x100000 ≤ k.placement_address.toNat)
    (hfit : BootFits k.placement_address) : ∃ k' steps, (∀ fuel, steps ≤ fuel → mapPages alloc fuel k = some k') ∧
      (∀ x : U32, x.toNat / 0x1000 * 0x1000 < k'.placement_address.toNat + 0x1000 →
        MappedTo k' x (x.toNat / 0x1000)) ∧
      (∀ x : U32, kheapStart.toNat ≤ x.toNat → x.toNat < (kheapStart + kheapInitialSize).toNat →
        ∃ f, f ≠ 0 ∧ MappedTo k' x f) ∧
      (∀ x y f, BootRange k' x → BootRange k' y → MappedTo k' x f → MappedTo k' y f →
        x.toNat / 0x1000 = y.toNat / 0x1000) ∧
      (∀ j, j < 1024 → (k'.directories k'.kernel_directory).tables j ≠ 0 → ∀ x : U32,
        ((k'.directories k'.kernel_directory).tables j).toNat ≤ x.toNat →
          x.toNat < ((k'.directories k'.kernel_directory).tables j).toNat + 0x1000 →
            translate k' k'.kernel_directory x = some x) ∧
      ∃ p k'', kmalloc alloc k' sizeofHeap false = some (p, some p, k'') ∧ ∀ x : U32, p.toNat ≤ x.toNat →
        x.toNat < p.toNat + sizeofHeap.toNat → translate k'' k''.kernel_directory x = some x := by
  have hd := dirFits_bootDirectory hp hfit
  obtain ⟨M, hM, hbound⟩ := hfit
  obtain ⟨k', n, steps, hrun, hnM, hb, hend⟩ := @mapPages_booting k alloc hs hp M hM hbound
  have hn : n ≤ 3840 := by omega
  have hlow : ∀ {x : U32}, x.toNat / 0x1000 < n → MappedTo k' x (x.toNat / 0x1000) := fun hx => hb.mapped_low hd hn hx
  have hstart : kheapStart.toNat = 0xC0000000 := rfl
  have hstop : (kheapStart + kheapInitialSize).toNat = 0xC0100000 := rfl
  have hpos := hd.low
  have hpl := hb.placement
  -- what a mapped page's frame says about the page
  have hwhich : ∀ {x : U32} {f : Nat}, BootRange k' x → MappedTo k' x f →
      x.toNat / 0x1000 = if f < n then f else f - n + 0xC0000 := by
    rintro x f (hx | ⟨hlo, hhi⟩) hf
    · rw [hf.unique (hlow (by omega)), if_pos (by omega)]
    · rw [hf.unique (hb.mapped_heap hd (by omega) (by omega)), if_neg (by omega)]
      omega
  refine ⟨k', steps, hrun, fun x hx => hlow (by omega),
    fun x hlo hhi => ⟨_, ?_, hb.mapped_heap hd (by omega) (by omega)⟩,
    fun x y f hx hy hfx hfy => (hwhich hx hfx).trans (hwhich hy hfy).symm, fun j hj ht x hlo hhi => ?_, ?_⟩
  · omega
  · rw [hb.kernelDir] at ht hhi
    have := hb.table_lt hd hn hend hj ht
    exact (hlow (by omega)).translate
  · refine ⟨_, _, kmalloc_plain hb.kheap sizeofHeap, fun x hlo hhi => ?_⟩
    have h32 : sizeofHeap.toNat = 32 := rfl
    exact (hlow (x := x) (by omega)).translate

/-- The kernel as the image has it, loaded to end at 1 MB. -/
def imageAt1M : Kernel := { ofHeap ⟨⟨0, 0, 0⟩, 0, 0, 0, false, false⟩ fun _ => 0 with
  kheap := 0
  placement_address := 0x100000 }

theorem boot_identity_imageAt1M : ∃ k' steps,
    (∀ fuel, steps ≤ fuel → mapPages (Kernel.alloc 0) fuel imageAt1M = some k') ∧
    translate k' k'.kernel_directory 0 = some 0 := by
  obtain ⟨k', steps, hrun, hlow, -⟩ := @boot_identity imageAt1M (Kernel.alloc 0) ⟨rfl, rfl⟩ (by decide)
    (bootFits_iff.2 (by decide))
  have h0 : (0 : U32).toNat / 0x1000 * 0x1000 < k'.placement_address.toNat + 0x1000 :=
    Nat.lt_of_lt_of_le (by decide) (Nat.le_add_left _ _)
  exact ⟨k', steps, hrun, (hlow 0 h0).translate⟩

end Kernel

end Loris
