import Loris.AddressSpaces
/-!
# PhysicalAddresses — the tables that the kernel walks and those that the processor walks

A directory has the pointers of its page tables twice, as the kernel sees them and as physical addresses.  Runs of
`get_page`, `clone_directory` and `kmalloc` from the first directory on, with what else `initialise_paging` does.  The
two agree as long as what is made is made before the heap (`physical_addresses_agree`).  With the heap `kmalloc` writes
nothing through `phys`, and the clone that `initialise_paging` goes on in has a `PhysicalAddress` of its own
(`clone_physical_address`).
-/
namespace Loris

open ByteMem Runs Kernel

namespace Kernel

/-- The physical address of `x`: while paging is off, `x` itself. -/
def physicalOf (k : Kernel) (x : U32) : Option U32 :=
  if k.current_directory = 0 then some x else translate k k.kernel_directory x

/-- **The two walks of `dir` agree.** -/
def WalksAgree (k : Kernel) (dir : U32) : Prop :=
  (∀ i, i < 1024 →
    ((k.directories dir).tablesPhysical i = 0 ↔ (k.directories dir).tables i = 0) ∧
      ((k.directories dir).tables i ≠ 0 → ∃ a, k.physicalOf ((k.directories dir).tables i) = some a ∧
        (k.directories dir).tablesPhysical i = a ||| 0x7)) ∧
    k.physicalOf (dir + 0x1000) = some (k.directories dir).physicalAddress

/-- Where an aligned `kmalloc` takes memory without a heap. -/
def pageBehind (k : Kernel) : Nat := k.placement_address.toNat / 0x1000 * 0x1000 + 0x1000

/-- The `n` bytes from `a` on are there: below 4 GB, and where they seem to be once paging is on. -/
def HasRoom (k : Kernel) (a n : Nat) : Prop :=
  a + n < 2 ^ 32 ∧ (k.current_directory ≠ 0 → ∀ x : U32, a ≤ x.toNat → x.toNat < a + n →
    translate k k.kernel_directory x = some x)

/-- The tables that `clone_directory` copies have no pages, so that it calls no `copy_page_physical`. -/
def CopiesNoPage (k : Kernel) (src : U32) : Prop :=
  ∀ i, i < 1024 → (k.directories src).tables i ≠ 0 →
    (k.directories k.kernel_directory).tables i ≠ (k.directories src).tables i →
      ∀ j, j < 1024 → (k.page ⟨(k.directories src).tables i, j⟩).frame = 0

/-- The slots from `i` on that `clone_directory` copies. -/
def copied (ker src : PageDirectory) : Nat → Nat → Nat
  | 0, _ => 0
  | n + 1, i => (if src.tables i ≠ 0 ∧ ker.tables i ≠ src.tables i then 1 else 0) + copied ker src n (i + 1)

/-- What `clone_directory` writes without a heap: a directory, and behind it its tables, each in two pages. -/
def cloneBytes (c : Nat) : Nat := if c = 0 then 8196 else c * 0x2000 + 0x3004

end Kernel

/-- The kernel, and the directories that were made. -/
structure Paging where
  kernel : Kernel
  dirs : List U32

inductive PagingOp where
  | getPage (address : U32) (make : Bool) (dir : U32)
  | cloneDirectory (src : U32)
  | kmalloc (size : U32) (align : Bool)
  | allocFrame (p : PagePtr) (isKernel isWritable : Bool)
  | switchPageDirectory (dir : U32)
  | makeHeap

namespace Paging

/-- One call that returns. -/
def Step (s : Paging) : PagingOp → Paging → Prop
  | .getPage address make dir, t => dir ∈ s.dirs ∧
      if make = true then ∃ fuel p k', Kernel.getPage (alloc fuel) s.kernel address dir = some (p, k') ∧
        t = ⟨k', s.dirs⟩
      else t = s
  | .cloneDirectory src, t => src ∈ s.dirs ∧ ∃ fuel dir copies k',
      Kernel.cloneDirectory (alloc fuel) s.kernel src = some (dir, copies, k') ∧ t = ⟨k', dir :: s.dirs⟩
  | .kmalloc size align, t => ∃ fuel p phys k',
      Kernel.kmalloc (alloc fuel) s.kernel size align = some (p, phys, k') ∧ t = ⟨k', s.dirs⟩
  | .allocFrame p isKernel isWritable, t => ∃ k', s.kernel.allocFrame p isKernel isWritable = some k' ∧ t = ⟨k', s.dirs⟩
  | .switchPageDirectory dir, t => dir ∈ s.dirs ∧ t = ⟨s.kernel.switchPageDirectory dir, s.dirs⟩
  | .makeHeap, t => ∃ fuel k', Kernel.makeHeap (alloc fuel) s.kernel = some k' ∧ t = ⟨k', s.dirs⟩

theorem step_getPage {s t : Paging} {a dir : U32} {r : PagePtr × Kernel} (hd : dir ∈ s.dirs)
    (hg : ∀ f, Kernel.getPage f s.kernel a dir = some r) : s.Step (.getPage a true dir) t ↔ t = ⟨r.2, s.dirs⟩ := by
  constructor
  · rintro ⟨-, h⟩
    rw [if_pos rfl] at h
    obtain ⟨fuel, p, k', hk', rfl⟩ := h
    rw [Option.some.inj ((hg _).symm.trans hk')]
  · rintro rfl
    exact ⟨hd, by rw [if_pos rfl]; exact ⟨0, r.1, r.2, hg _, rfl⟩⟩

theorem step_kmalloc {s t : Paging} {size : U32} {align : Bool} {r : U32 × Option U32 × Kernel}
    (hm : ∀ f, Kernel.kmalloc f s.kernel size align = some r) :
    s.Step (.kmalloc size align) t ↔ t = ⟨r.2.2, s.dirs⟩ := by
  constructor
  · rintro ⟨fuel, p, phys, k', hk', rfl⟩
    rw [Option.some.inj ((hm _).symm.trans hk')]
  · rintro rfl
    exact ⟨0, r.1, r.2.1, r.2.2, hm _, rfl⟩

theorem step_kmalloc_found {s t : Paging} {size : U32} {align : Bool} {i : Nat} (hk : s.kernel.kheap ≠ 0)
    (hf : s.kernel.heap.findSmallestHole s.kernel.mem (size + sizeofHeader + sizeofFooter) align = some i) :
    s.Step (.kmalloc size align) t ↔ t = ⟨{ s.kernel with
      heap := (s.kernel.heap.allocAt s.kernel.mem i size align).2.1
      mem := (s.kernel.heap.allocAt s.kernel.mem i size align).2.2 }, s.dirs⟩ := by
  constructor
  · rintro ⟨fuel, p, phys, k', hm, rfl⟩
    unfold Kernel.kmalloc at hm
    rw [if_pos hk] at hm
    obtain ⟨⟨q, k₂⟩, ha, he⟩ := Option.map_eq_some_iff.1 hm
    obtain ⟨-, -, rfl⟩ : _ ∧ _ ∧ k₂ = k' := by simpa using he
    rw [(alloc_found hf ha).2]
  · rintro rfl
    refine ⟨1, (s.kernel.heap.allocAt s.kernel.mem i size align).1, none, _, ?_, rfl⟩
    unfold Kernel.kmalloc
    rw [if_pos hk, alloc_of_found 0 hf]
    rfl

theorem step_makeHeap {s t : Paging} (hk : s.kernel.kheap = 0) :
    s.Step .makeHeap t ↔ t = ⟨(madeHeap s.kernel).switchPageDirectory s.kernel.current_directory, s.dirs⟩ := by
  constructor
  · rintro ⟨fuel, k', hk', rfl⟩
    rw [Option.some.inj (hk'.symm.trans (makeHeap_here hk))]
  · rintro rfl
    exact ⟨0, _, makeHeap_here hk, rfl⟩

/-- **No page table and no directory is made once there is a heap**, and what is made before is made in memory that is
there.  What is copied has no pages: `copy_page_physical` does not write where it is told to. -/
def Sound (s : Paging) : PagingOp → Prop
  | .getPage address make dir => make = true → s.kernel.lookupPage address dir = none →
      s.kernel.kheap = 0 ∧ s.kernel.HasRoom s.kernel.pageBehind 0x1000
  | .cloneDirectory src => s.kernel.kheap = 0 ∧ s.kernel.CopiesNoPage src ∧ s.kernel.HasRoom s.kernel.pageBehind
      (cloneBytes (copied (s.kernel.directories s.kernel.kernel_directory) (s.kernel.directories src) 1024 0))
  | .kmalloc size align =>
      if s.kernel.kheap = 0 then
        (if align = true then s.kernel.pageBehind else s.kernel.placement_address.toNat) + size.toNat < 2 ^ 32
      else s.kernel.MakesNoTable size align
  | .allocFrame .. => True
  | .switchPageDirectory _ => s.kernel.current_directory = 0 →
      ∀ x : U32, x.toNat < s.kernel.placement_address.toNat →
        translate s.kernel s.kernel.kernel_directory x = some x
  | .makeHeap => s.kernel.kheap = 0 ∧ s.kernel.placement_address.toNat + sizeofHeap.toNat < 2 ^ 32

/-- **The two walks of every directory agree.** -/
def WalksAgree (s : Paging) : Prop := ∀ dir ∈ s.dirs, s.kernel.WalksAgree dir

/-- The bitmap at `frames` spares every directory. -/
def Spared (s : Paging) (frames : U32) : Prop := ∀ dir ∈ s.dirs, s.kernel.Spared frames dir

end Paging

namespace Kernel

/-! ## What was placed stays where it is -/

variable {k k' : Kernel} {x : U32} {n b : Nat}

/-- `n` bytes of the placement region, past the first page and behind `b`. -/
structure InPlace (b : Nat) (k : Kernel) (x : U32) (n : Nat) : Prop where
  low : 0x1000 ≤ x.toNat
  behind : b ≤ x.toNat
  high : x.toNat + n ≤ k.placement_address.toNat
  mapped : k.current_directory ≠ 0 → translate k k.kernel_directory x = some x

/-- A slot of a directory, null or with a table that was placed. -/
structure SlotOk (b : Nat) (k : Kernel) (d : PageDirectory) (i : Nat) : Prop where
  physical : d.tablesPhysical i = if d.tables i = 0 then 0 else d.tables i ||| 0x7
  table : d.tables i ≠ 0 → InPlace b k (d.tables i) 0x1000

/-- A directory that was placed. -/
structure DirOk (b : Nat) (k : Kernel) (dir : U32) : Prop where
  low : 0x1000 ≤ dir.toNat
  behind : b ≤ dir.toNat
  high : dir.toNat + 8196 ≤ k.placement_address.toNat
  array : InPlace b k (dir + 0x1000) 0x1004
  slots : ∀ i, i < 1024 → SlotOk b k (k.directories dir) i
  physicalAddress : (k.directories dir).physicalAddress = dir + 0x1000

/-- What was placed stays. -/
structure KeepsPlaced (k k' : Kernel) : Prop where
  kernelDir : k'.kernel_directory = k.kernel_directory
  current : k'.current_directory ≠ 0 → k.current_directory ≠ 0
  placement : k.placement_address.toNat ≤ k'.placement_address.toNat
  identity : ∀ x : U32, 0x1000 ≤ x.toNat → translate k k.kernel_directory x = some x →
    translate k' k.kernel_directory x = some x

theorem KeepsPlaced.placed (h : KeepsPlaced k k') (hx : InPlace b k x n) : InPlace b k' x n :=
  ⟨hx.low, hx.behind, Nat.le_trans hx.high h.placement, fun hc => by
    rw [h.kernelDir]
    exact h.identity x hx.low (hx.mapped (h.current hc))⟩

theorem KeepsPlaced.slot (h : KeepsPlaced k k') {d : PageDirectory} {i : Nat} (hs : SlotOk b k d i) : SlotOk b k' d i :=
  ⟨hs.physical, fun hne => h.placed (hs.table hne)⟩

theorem KeepsPlaced.dir (h : KeepsPlaced k k') {dir : U32} (hd : DirOk b k dir)
    (hsame : k'.directories dir = k.directories dir) : DirOk b k' dir := by
  refine ⟨hd.low, hd.behind, Nat.le_trans hd.high h.placement, h.placed hd.array, fun i hi => ?_, ?_⟩
  · rw [hsame]
    exact h.slot (hd.slots i hi)
  · rw [hsame]
    exact hd.physicalAddress

theorem KeepsPlaced.room (h : KeepsPlaced k k') {a : Nat} (ha : 0x1000 ≤ a) (hr : HasRoom k a n) : HasRoom k' a n :=
  ⟨hr.1, fun hc x hlo hhi => by
    rw [h.kernelDir]
    exact h.identity x (by omega) (hr.2 (h.current hc) x hlo hhi)⟩

theorem HasRoom.part {a c m : Nat} (h : HasRoom k a n) (hlo : a ≤ c) (hhi : c + m ≤ a + n) : HasRoom k c m :=
  ⟨by have := h.1; omega, fun hc x h1 h2 => h.2 hc x (by omega) (by omega)⟩

theorem physicalOf_placed (h : InPlace b k x n) : k.physicalOf x = some x := by
  unfold physicalOf
  split
  · rfl
  · exact h.mapped ‹_›

/-- **The two walks of a directory that was placed agree.** -/
theorem DirOk.agree {dir : U32} (h : DirOk b k dir) : k.WalksAgree dir := by
  refine ⟨fun i hi => ?_, ?_⟩
  · have hs := h.slots i hi
    by_cases h0 : (k.directories dir).tables i = 0
    · exact ⟨by rw [hs.physical, if_pos h0]; exact iff_of_true rfl h0, fun hne => absurd h0 hne⟩
    · have hp := hs.physical
      rw [if_neg h0] at hp
      refine ⟨?_, fun _ => ⟨_, physicalOf_placed (hs.table h0), hp⟩⟩
      rw [hp]
      refine iff_of_false (fun hz => ?_) h0
      have := congrArg (BitVec.getLsbD · 0) hz
      simp at this
  · rw [h.physicalAddress]
    exact physicalOf_placed h.array

/-- **The bitmap spares** what was placed behind it. -/
theorem DirOk.spared {frames dir : U32} (h : DirOk (bitmapEnd frames) k dir) : k.Spared frames dir :=
  TablesBehind.spared ⟨h.behind, fun i hi h0 => ((h.slots i hi).table h0).behind⟩

/-! ## A page table -/

theorem keepsPlaced_of (hd : k'.directories = k.directories) (hk : k'.kernel_directory = k.kernel_directory)
    (hc : k'.current_directory = k.current_directory)
    (hp : k.placement_address.toNat ≤ k'.placement_address.toNat) (hpages : KeepsPages k k') : KeepsPlaced k k' :=
  ⟨hk, by rw [hc]; exact id, hp, fun x hx h =>
    identity_kept (fun j _ _ => by rw [hd]) (fun j i _ _ hf => hpages _ hf) hx h⟩

theorem le_pageBehind (k : Kernel) : k.placement_address.toNat ≤ k.pageBehind := by
  unfold pageBehind
  omega

theorem toNat_pageBehind (h : k.pageBehind < 2 ^ 32) : (nextPage k.placement_address).toNat = k.pageBehind := by
  unfold pageBehind at *
  exact toNat_nextPage (by omega)

section AddTable

variable {dir T : U32} {i : Nat}

theorem addTable_placement (hT : T.toNat + 0x1000 < 2 ^ 32) :
    (addTable k dir i T).placement_address.toNat = T.toNat + 0x1000 := by
  show (T + sizeofPageTable).toNat = _
  rw [BitVec.toNat_add]
  show (T.toNat + 4096) % 2 ^ 32 = _
  omega

theorem addTable_keeps (hker : DirOk b k k.kernel_directory) (hT : k.placement_address.toNat ≤ T.toNat)
    (hroom : T.toNat + 0x1000 < 2 ^ 32) (h0 : (k.directories dir).tables i = 0) :
    KeepsPlaced k (addTable k dir i T) := by
  have hp := @addTable_placement k dir _ i hroom
  refine ⟨rfl, id, by omega, fun x hx h => identity_kept (fun j _ hne => ?_) (fun j l hj hne _ => ?_) hx h⟩
  · by_cases hkd : k.kernel_directory = dir
    · rw [hkd, addTable_directory]
      exact if_neg fun hji => hne (by rw [hkd, hji, h0])
    · exact congrArg (PageDirectory.tables · j) (if_neg hkd)
  · have := ((hker.slots j hj).table hne).high
    rw [addTable_page]
    exact if_neg fun he => by
      simp only at he
      rw [he] at this
      omega

/-- **The directory that the table is made for.** -/
theorem addTable_dirOk (hker : DirOk b k k.kernel_directory) (hd : DirOk b k dir) (hT : T.toNat = k.pageBehind)
    (hroom : HasRoom k k.pageBehind 0x1000) (h0 : (k.directories dir).tables i = 0) :
    DirOk b (addTable k dir i T) dir := by
  have hlow := hd.low
  have hbehind := hd.behind
  have hhigh := hd.high
  have hfit := hroom.1
  have hTp : k.placement_address.toNat ≤ T.toNat := by
    unfold pageBehind at hT
    omega
  have hk := addTable_keeps hker hTp (by omega) h0
  have hp := @addTable_placement k dir T i (by omega)
  refine ⟨hd.low, hbehind, by omega, hk.placed hd.array, fun j hj => ?_, ?_⟩
  · have hs := hk.slot (hd.slots j hj)
    rw [addTable_directory]
    by_cases hji : j = i
    · have hne : T ≠ 0 := fun he => by
        have h1 : (0 : U32).toNat = 0 := rfl
        rw [he, h1] at hTp
        omega
      refine ⟨?_, fun _ => ?_⟩
      · simp only [if_pos hji, if_neg hne]
      · simp only [if_pos hji]
        refine ⟨by omega, by omega, by omega, fun hc => hk.identity T (by omega) (hroom.2 hc T (by omega) (by omega))⟩
    · refine ⟨?_, fun hne => ?_⟩
      · simp only [if_neg hji]
        exact hs.physical
      · simp only [if_neg hji] at hne ⊢
        exact hs.table hne
  · rw [addTable_directory]
    exact hd.physicalAddress

end AddTable

/-! ## A clone -/

/-- The placement region grows; of the directories in it, only `dir` may change, and the page tables in it stay. -/
structure Placing (dir : U32) (k k' : Kernel) : Prop where
  kheap : k'.kheap = k.kheap
  current : k'.current_directory = k.current_directory
  kernelDir : k'.kernel_directory = k.kernel_directory
  placement : k.placement_address.toNat ≤ k'.placement_address.toNat
  directories : ∀ d : U32, d ≠ dir → d.toNat + 8196 ≤ k.placement_address.toNat → k'.directories d = k.directories d
  pages : ∀ q : PagePtr, q.table.toNat + 0x1000 ≤ k.placement_address.toNat → k'.page q = k.page q

theorem Placing.trans {dir : U32} {k₁ k₂ k₃ : Kernel} (h₁ : Placing dir k₁ k₂) (h₂ : Placing dir k₂ k₃) :
    Placing dir k₁ k₃ := by
  have hp := h₁.placement
  exact ⟨h₂.kheap.trans h₁.kheap, h₂.current.trans h₁.current, h₂.kernelDir.trans h₁.kernelDir,
    Nat.le_trans hp h₂.placement, fun d hd hb => (h₂.directories d hd (by omega)).trans (h₁.directories d hd hb),
    fun q hq => (h₂.pages q (by omega)).trans (h₁.pages q hq)⟩

theorem Placing.keeps {dir : U32} (h : Placing dir k k') (hker : DirOk b k k.kernel_directory)
    (hne : k.kernel_directory ≠ dir) : KeepsPlaced k k' :=
  ⟨h.kernelDir, by rw [h.current]; exact id, h.placement, fun x hx hid => identity_kept
    (fun j _ _ => by rw [h.directories _ hne hker.high])
    (fun j i hj h0 _ => h.pages _ ((hker.slots j hj).table h0).high) hx hid⟩

theorem setSlot_placing (dir : U32) (i : Nat) (table physical : U32) :
    Placing dir k (k.setSlot dir i table physical) :=
  ⟨rfl, rfl, rfl, Nat.le_refl _, fun _ hd _ => setDirectory_other _ _ hd, fun _ _ => rfl⟩

theorem setSlot_physicalAddress (k : Kernel) (dir : U32) (i : Nat) (table physical : U32) :
    ((k.setSlot dir i table physical).directories dir).physicalAddress = (k.directories dir).physicalAddress := by
  unfold setSlot
  rw [setDirectory_self]

theorem cloneEntries_pages {table src : U32} : ∀ {n i : Nat} {k k' : Kernel} {copies : List (U32 × U32)},
    cloneEntries table src n i k = some (copies, k') →
      SameButPages k k' ∧ ∀ q : PagePtr, q.table ≠ table → k'.page q = k.page q
  | 0, _, _, _, _, h => by
    obtain ⟨-, rfl⟩ := Prod.mk.inj (Option.some.inj h)
    exact ⟨rfl, fun _ _ => rfl⟩
  | n + 1, i, k, k', copies, h => by
    unfold cloneEntries at h
    split at h
    · exact cloneEntries_pages h
    · obtain ⟨k₁, hk₁, h⟩ := Option.bind_eq_some_iff.1 h
      obtain ⟨⟨copies', k₂⟩, hr, he⟩ := Option.map_eq_some_iff.1 h
      obtain ⟨-, rfl⟩ := Prod.mk.inj he
      obtain ⟨hs, hp⟩ := cloneEntries_pages hr
      have hset : SameButPages k₁ (k₁.setPage ⟨table, i⟩ (cloneFlags (k₁.page ⟨src, i⟩) (k₁.page ⟨table, i⟩))) := rfl
      refine ⟨(allocFrame_same hk₁).trans (hset.trans hs), fun q hq => ?_⟩
      have hne : q ≠ ⟨table, i⟩ := fun he => hq (by rw [he])
      have h1 : k₁.page q = k.page q := by
        rcases allocFrame_cases hk₁ with ⟨-, h1, -⟩ | ⟨-, h1, -⟩
        · exact h1 q
        · exact h1 q hne
      rw [hp q hq, ← h1]
      exact if_neg fun hc => hq hc.1

section Clone

variable {alloc : Allocator} {dir src T : U32} {copies : List (U32 × U32)} {phys : Option U32}

/-- **`clone_table` without a heap**: a table at the next page, its physical address written, and nothing else of the
placement region changed. -/
theorem cloneTable_placing (hk : k.kheap = 0) (hlow : 0x1000 ≤ k.placement_address.toNat)
    (hroom : k.pageBehind + 8196 < 2 ^ 32) (h : cloneTable alloc k src = some (T, phys, copies, k')) :
    T.toNat = k.pageBehind ∧ phys = some T ∧ Placing dir k k' ∧
      (dir.toNat + 8196 ≤ k.placement_address.toNat → k'.directories dir = k.directories dir) ∧
      k'.placement_address.toNat = T.toNat + 0x1000 := by
  have hnext := toNat_pageBehind (k := k) (by omega)
  unfold cloneTable at h
  rw [kmalloc_aligned hk hlow, Option.bind_some] at h
  generalize nextPage k.placement_address = P at hnext h
  generalize hend : P + sizeofPageTable = e at h
  obtain ⟨⟨c, k₁⟩, hr, he⟩ := Option.map_eq_some_iff.1 h
  obtain ⟨hT, he⟩ := Prod.mk.inj he
  obtain ⟨hphys, he⟩ := Prod.mk.inj he
  obtain ⟨-, hk₁⟩ := Prod.mk.inj he
  obtain rfl : k₁ = k' := hk₁
  subst hT
  obtain ⟨hs, hp⟩ := cloneEntries_pages hr
  have hle : k.placement_address.toNat ≤ P.toNat := by
    unfold pageBehind at hnext
    omega
  have h8196 : sizeofPageDirectory.toNat = 8196 := rfl
  rw [h8196] at hs hp
  have hplace : k₁.placement_address.toNat = P.toNat + 0x1000 := by
    have h1 : k₁.placement_address = e := by rw [hs]; rfl
    rw [h1, ← hend, BitVec.toNat_add]
    show (P.toNat + 4096) % 2 ^ 32 = _
    omega
  have hdirs : ∀ d : U32, d.toNat + 8196 ≤ k.placement_address.toNat → k₁.directories d = k.directories d :=
    fun d hd => by
    rw [hs]
    exact clear_directory (k := { k with placement_address := e }) (by omega) (by omega)
      (.inl (by omega))
  refine ⟨hnext, hphys.symm, ⟨by rw [hs]; rfl, by rw [hs]; rfl, by rw [hs]; rfl, by omega,
    fun d _ hd => hdirs d hd, fun q hq => ?_⟩, hdirs dir, hplace⟩
  have hclear := clear_page (k := { k with placement_address := e }) (p := P) (n := 8196) (q := q)
    (by omega) (by omega) (.inl (by omega))
  exact (hp q fun he => by rw [he] at hq; omega).trans hclear

/-- **A clone in the making**: the slots of `dir` so far are null or have tables that were placed. -/
structure Filling (b : Nat) (k : Kernel) (dir src : U32) : Prop where
  kheap : k.kheap = 0
  kernel : DirOk b k k.kernel_directory
  source : DirOk b k src
  kernel_ne : k.kernel_directory ≠ dir
  source_ne : src ≠ dir
  high : dir.toNat + 8196 ≤ k.placement_address.toNat
  slots : ∀ j, j < 1024 → SlotOk b k (k.directories dir) j

theorem Filling.placing (h : Filling b k dir src) (hp : Placing dir k k')
    (hslots : ∀ j, j < 1024 → SlotOk b k' (k'.directories dir) j) : Filling b k' dir src := by
  have hk := hp.keeps h.kernel h.kernel_ne
  refine ⟨hp.kheap.trans h.kheap, ?_, hk.dir h.source (hp.directories _ h.source_ne h.source.high), ?_, h.source_ne,
    Nat.le_trans h.high hp.placement, hslots⟩
  · rw [hp.kernelDir]
    exact hk.dir h.kernel (hp.directories _ h.kernel_ne h.kernel.high)
  · rw [hp.kernelDir]
    exact h.kernel_ne

theorem Filling.setSlot (h : Filling b k dir src) {i : Nat} (hT : InPlace b k T 0x1000) :
    Filling b (k.setSlot dir i T (T ||| 0x7)) dir src := by
  have hp := setSlot_placing (k := k) dir i T (T ||| 0x7)
  have hk := hp.keeps h.kernel h.kernel_ne
  have hne : T ≠ 0 := fun he => by
    have h1 := hT.low
    have h2 : (0 : U32).toNat = 0 := rfl
    rw [he, h2] at h1
    omega
  refine h.placing hp fun j hj => ?_
  unfold Kernel.setSlot
  rw [setDirectory_self]
  have hs := h.slots j hj
  by_cases hji : j = i
  · refine ⟨?_, fun _ => ?_⟩
    · simp only [if_pos hji, if_neg hne]
    · simp only [if_pos hji]
      exact hk.placed hT
  · refine ⟨?_, fun h0 => ?_⟩
    · simp only [if_neg hji]
      exact hs.physical
    · simp only [if_neg hji] at h0 ⊢
      exact hk.placed (hs.table h0)

theorem copied_pos {ker src : PageDirectory} {n i : Nat} (h0 : src.tables i ≠ 0) (hne : ker.tables i ≠ src.tables i) :
    copied ker src (n + 1) i = copied ker src n (i + 1) + 1 := by
  rw [copied, if_pos ⟨h0, hne⟩, Nat.add_comm]

theorem copied_skip {ker src : PageDirectory} {n i : Nat} (h : src.tables i = 0 ∨ ker.tables i = src.tables i) :
    copied ker src (n + 1) i = copied ker src n (i + 1) := by
  rw [copied, if_neg fun hc => h.elim hc.1 hc.2, Nat.zero_add]

/-- What a clone in the making copies of its source does not change. -/
theorem Filling.copied (h : Filling b k dir src) (hp : Placing dir k k') (n i : Nat) :
    copied (k'.directories k'.kernel_directory) (k'.directories src) n i =
      copied (k.directories k.kernel_directory) (k.directories src) n i := by
  rw [hp.kernelDir, hp.directories _ h.kernel_ne h.kernel.high, hp.directories _ h.source_ne h.source.high]

theorem HasRoom.tables {c : Nat} (h : HasRoom k k.pageBehind ((c + 1) * 0x2000 + 4)) :
    k.pageBehind + 8196 < 2 ^ 32 ∧ HasRoom k k.pageBehind 0x1000 ∧
      HasRoom k (k.pageBehind + 0x2000) (c * 0x2000 + 4) := by
  have := h.1
  exact ⟨by omega, h.part (Nat.le_refl _) (by omega), h.part (by omega) (by omega)⟩

/-- **The loop of `clone_directory`** fills the slots, if there is room for the tables that it copies. -/
theorem cloneSlots_filling : ∀ {n i : Nat} {k k' : Kernel} {copies : List (U32 × U32)}, i + n = 1024 →
    Filling b k dir src →
    (0 < copied (k.directories k.kernel_directory) (k.directories src) n i → HasRoom k k.pageBehind
      (copied (k.directories k.kernel_directory) (k.directories src) n i * 0x2000 + 4)) →
    cloneSlots alloc dir src n i k = some (copies, k') →
      Filling b k' dir src ∧ Placing dir k k' ∧
        (k'.directories dir).physicalAddress = (k.directories dir).physicalAddress
  | 0, _, k, _, _, _, hf, _, h => by
    obtain ⟨-, rfl⟩ := Prod.mk.inj (Option.some.inj h)
    exact ⟨hf, ⟨rfl, rfl, rfl, Nat.le_refl _, fun _ _ _ => rfl, fun _ _ => rfl⟩, rfl⟩
  | n + 1, i, k, k', copies, hi, hf, hroom, h => by
    have hplace := hf.kernel.low
    have hbehind := hf.kernel.behind
    have hplace' := hf.kernel.high
    have hback := le_pageBehind k
    have h1000 : 0x1000 ≤ k.pageBehind := Nat.le_add_left _ _
    unfold cloneSlots at h
    simp only at h
    split at h
    · exact cloneSlots_filling (by omega) hf (by rw [copied_skip (.inl ‹_›)] at hroom; exact hroom) h
    rename_i h0
    split at h
    · -- the table is shared
      rename_i hshare
      rw [copied_skip (.inr hshare)] at hroom
      have hs := hf.source.slots i (by omega)
      have hphys := hs.physical
      rw [if_neg h0] at hphys
      rw [hphys] at h
      have hset := setSlot_placing (k := k) dir i ((k.directories src).tables i) ((k.directories src).tables i ||| 0x7)
      obtain ⟨hf', hp', ha⟩ := cloneSlots_filling (by omega) (hf.setSlot (i := i) (hs.table h0)) (fun hc => by
        rw [hf.copied hset] at hc ⊢
        exact (hset.keeps hf.kernel hf.kernel_ne).room h1000 (hroom hc)) h
      exact ⟨hf', hset.trans hp', ha.trans (setSlot_physicalAddress ..)⟩
    · -- the table is copied
      rename_i hshare
      rw [copied_pos h0 hshare] at hroom
      obtain ⟨hfit, hr, hrest⟩ := (hroom (Nat.succ_pos _)).tables
      obtain ⟨⟨T, phys, copies₁, k₁⟩, htable, h⟩ := Option.bind_eq_some_iff.1 h
      obtain ⟨⟨copies₂, k₂⟩, hloop, he⟩ := Option.map_eq_some_iff.1 h
      obtain rfl : k₂ = k' := (Prod.mk.inj he).2
      obtain ⟨hT, rfl, hp, hdir, hend⟩ := @cloneTable_placing _ _ _ dir _ _ _ _ hf.kheap (by omega) hfit htable
      have hdir := hdir hf.high
      have hk := hp.keeps hf.kernel hf.kernel_ne
      have hf₁ := hf.placing hp fun j hj => by
        rw [hdir]
        exact hk.slot (hf.slots j hj)
      have hTP : InPlace b k₁ T 0x1000 := ⟨by omega, by omega, by omega, fun hc => by
        rw [hp.kernelDir]
        exact hk.identity T (by omega) (hr.2 (hk.current hc) T (by omega) (by omega))⟩
      have hset := setSlot_placing (k := k₁) dir i T (T ||| 0x7)
      have hnext : (k₁.setSlot dir i T (T ||| 0x7)).pageBehind = k.pageBehind + 0x2000 := by
        show k₁.placement_address.toNat / 0x1000 * 0x1000 + 0x1000 = _
        unfold pageBehind at *
        omega
      have hrest := (hset.keeps hf₁.kernel hf₁.kernel_ne).room (by omega) (hk.room (by omega) hrest)
      obtain ⟨hf', hp', ha⟩ := cloneSlots_filling (by omega) (hf₁.setSlot (i := i) hTP) (fun _ => by
        rw [hf₁.copied hset, hf.copied hp, hnext]
        exact hrest) hloop
      refine ⟨hf', hp.trans (hset.trans hp'), ha.trans ?_⟩
      rw [← hdir]
      exact setSlot_physicalAddress ..

theorem clear_filling {e : U32} (hk : k.kheap = 0) (hker : DirOk b k k.kernel_directory) (hsrc : DirOk b k src)
    (hdir : dir.toNat = k.pageBehind) (he : e.toNat = dir.toNat + 8196) :
    let k₁ := { k with placement_address := e }.clear dir 8196
    let k₂ := k₁.setDirectory dir { k₁.directories dir with physicalAddress := dir + 0x1000 }
    Filling b k₂ dir src ∧ Placing dir k k₂ ∧ (k₂.directories dir).physicalAddress = dir + 0x1000 ∧
      k₂.placement_address = e := by
  intro k₁ k₂
  have hlt := e.isLt
  have hle : k.placement_address.toNat ≤ dir.toNat := by
    unfold pageBehind at hdir
    omega
  have hne : ∀ {d : U32}, DirOk b k d → d ≠ dir := fun hd he => by
    have := hd.high
    rw [he] at this
    omega
  have hp : Placing dir k k₂ := ⟨rfl, rfl, rfl, show _ ≤ e.toNat by omega, fun d hd hb =>
      (setDirectory_other k₁ _ hd).trans
        (clear_directory (k := { k with placement_address := e }) (by omega) (by omega) (.inl (by omega))),
    fun q hq => clear_page (k := { k with placement_address := e }) (by omega) (by omega) (.inl (by omega))⟩
  have hkeep := hp.keeps hker (hne hker)
  have hself : k₂.directories dir = { k₁.directories dir with physicalAddress := dir + 0x1000 } := setDirectory_self ..
  refine ⟨⟨hk, hkeep.dir hker (hp.directories _ (hne hker) hker.high),
    hkeep.dir hsrc (hp.directories _ (hne hsrc) hsrc.high), hne hker, hne hsrc, show _ ≤ e.toNat by omega,
    fun j hj => ?_⟩, hp, by rw [hself], rfl⟩
  obtain ⟨h1, h2⟩ := clear_self (k := { k with placement_address := e }) (p := dir) hj
  have h1 : (k₂.directories dir).tables j = 0 := by rw [hself]; exact h1
  have h2 : (k₂.directories dir).tablesPhysical j = 0 := by rw [hself]; exact h2
  exact ⟨by rw [h2, if_pos h1], fun h0 => absurd h1 h0⟩

/-- **`clone_directory` without a heap**: a directory at the next page whose walks agree. -/
theorem cloneDirectory_placing (hk : k.kheap = 0) (hker : DirOk b k k.kernel_directory) (hsrc : DirOk b k src)
    (hroom : HasRoom k k.pageBehind
      (cloneBytes (copied (k.directories k.kernel_directory) (k.directories src) 1024 0)))
    (h : cloneDirectory alloc k src = some (dir, copies, k')) :
    dir.toNat = k.pageBehind ∧ Placing dir k k' ∧ DirOk b k' dir := by
  have hlow := hker.low
  have hbehind := hker.behind
  have hhigh := hker.high
  have hback₀ := le_pageBehind k
  have hdirRoom : HasRoom k k.pageBehind 8196 := by
    refine hroom.part (Nat.le_refl _) ?_
    unfold cloneBytes
    split <;> omega
  have hfit := hdirRoom.1
  have hnext := toNat_pageBehind (k := k) (by omega)
  unfold cloneDirectory at h
  rw [kmalloc_aligned hk (by omega), Option.bind_some] at h
  simp only [Option.getD_some] at h
  generalize nextPage k.placement_address = P at hnext h
  obtain ⟨⟨c, k₃⟩, hloop, he⟩ := Option.map_eq_some_iff.1 h
  obtain ⟨hdir, he⟩ := Prod.mk.inj he
  obtain ⟨-, hk₃⟩ := Prod.mk.inj he
  obtain rfl : k₃ = k' := hk₃
  subst hdir
  have hend : (P + sizeofPageDirectory).toNat = P.toNat + 8196 := by
    rw [BitVec.toNat_add]
    show (P.toNat + 8196) % 2 ^ 32 = _
    omega
  have h8196 : sizeofPageDirectory.toNat = 8196 := rfl
  rw [h8196] at hloop
  generalize P + sizeofPageDirectory = e at hend hloop
  obtain ⟨hf, hp, ha, he⟩ := clear_filling hk hker hsrc hnext hend
  simp only at hf hp ha he
  generalize ({ k with placement_address := e }.clear P 8196).setDirectory P _ = k₂ at hf hp ha he hloop
  have hne := hf.kernel_ne
  rw [hp.kernelDir] at hne
  have hkeep := hp.keeps hker hne
  have hback : k₂.pageBehind = k.pageBehind + 0x3000 := by
    unfold pageBehind at hnext ⊢
    rw [he, hend]
    omega
  have hloopRoom : 0 < copied (k₂.directories k₂.kernel_directory) (k₂.directories src) 1024 0 →
    HasRoom k₂ k₂.pageBehind
      (copied (k₂.directories k₂.kernel_directory) (k₂.directories src) 1024 0 * 0x2000 + 4) := by
    rw [hp.kernelDir, hp.directories _ hne hker.high, hp.directories _ hf.source_ne hsrc.high, hback]
    generalize copied (k.directories k.kernel_directory) (k.directories src) 1024 0 = c at hroom
    intro hc
    unfold cloneBytes at hroom
    rw [if_neg (by omega)] at hroom
    exact hkeep.room (by omega) (hroom.part (by omega) (by omega))
  obtain ⟨hf', hp', ha'⟩ := cloneSlots_filling rfl hf hloopRoom hloop
  have hall := hp.trans hp'
  have hkeep' := hall.keeps hker hne
  have h1000 : 0x1000 ≤ k.pageBehind := Nat.le_add_left _ _
  refine ⟨hnext, hall, by omega, by omega, hf'.high, ?_, hf'.slots, ha'.trans ha⟩
  have harray : (P + 0x1000).toNat = P.toNat + 0x1000 := toNat_add_page (by omega)
  have hhigh' := hf'.high
  refine ⟨by omega, by omega, by omega, fun hc => ?_⟩
  rw [hall.kernelDir]
  exact hkeep'.identity _ (by omega) (hdirRoom.2 (hkeep'.current hc) _ (by omega) (by omega))

end Clone

end Kernel

/-! ## Runs -/

namespace Paging

variable {s t : Paging} {b : Nat}

/-- **Every directory was placed**, and `kernel_directory` is one of them. -/
structure Inv (s : Paging) (b : Nat) : Prop where
  kernel : s.kernel.kernel_directory ∈ s.dirs
  dirs : ∀ dir ∈ s.dirs, DirOk b s.kernel dir

theorem Inv.agree (h : s.Inv b) : s.WalksAgree := fun dir hd => (h.dirs dir hd).agree

theorem Inv.spared {frames : U32} (h : s.Inv (bitmapEnd frames)) : s.Spared frames :=
  fun dir hd => (h.dirs dir hd).spared

theorem Inv.keep {k' : Kernel} (h : s.Inv b) (hk : KeepsPlaced s.kernel k')
    (hd : k'.directories = s.kernel.directories) : Inv ⟨k', s.dirs⟩ b :=
  ⟨by show k'.kernel_directory ∈ _; rw [hk.kernelDir]; exact h.kernel,
    fun dir hdir => hk.dir (h.dirs dir hdir) (by rw [hd])⟩

theorem Inv.getPage (h : s.Inv b) {address dir : U32} {make : Bool} (hs : s.Sound (.getPage address make dir))
    (hstep : s.Step (.getPage address make dir) t) : t.Inv b := by
  obtain ⟨hdir, hstep⟩ := hstep
  cases make with
  | false =>
    rw [if_neg (by decide)] at hstep
    rw [hstep]
    exact h
  | true =>
    rw [if_pos rfl] at hstep
    obtain ⟨fuel, p, k', hg, rfl⟩ := hstep
    cases hl : s.kernel.lookupPage address dir with
    | some q =>
      rw [getPage_of_lookup hl] at hg
      obtain ⟨-, rfl⟩ := Prod.mk.inj (Option.some.inj hg)
      exact h
    | none =>
      obtain ⟨hk, hroom⟩ := hs rfl hl
      have h0 : (s.kernel.directories dir).tables (tableIndex address) = 0 := by
        by_contra hne
        unfold lookupPage at hl
        rw [if_pos hne] at hl
        cases hl
      have hker := h.dirs _ h.kernel
      have hlow := hker.low
      have hhigh := hker.high
      have hfit := hroom.1
      have hT := toNat_pageBehind (k := s.kernel) (by omega)
      rw [getPage_placement hk (by omega) h0] at hg
      obtain ⟨-, rfl⟩ := Prod.mk.inj (Option.some.inj hg)
      have hle := le_pageBehind s.kernel
      refine ⟨h.kernel, fun d hd => ?_⟩
      by_cases hdd : d = dir
      · rw [hdd]
        exact addTable_dirOk hker (h.dirs dir hdir) hT hroom h0
      · exact (addTable_keeps hker (by omega) (by omega) h0).dir (h.dirs d hd) (if_neg hdd)

theorem Inv.clone (h : s.Inv b) {src : U32} (hs : s.Sound (.cloneDirectory src))
    (hstep : s.Step (.cloneDirectory src) t) :
    t.Inv b := by
  obtain ⟨hsrc, fuel, dir, copies, k', hc, rfl⟩ := hstep
  have hker := h.dirs _ h.kernel
  obtain ⟨hdir, hp, hd⟩ := cloneDirectory_placing hs.1 hker (h.dirs src hsrc) hs.2.2 hc
  have hne : ∀ d ∈ s.dirs, d ≠ dir := fun d hd he => by
    have := (h.dirs d hd).high
    unfold pageBehind at hdir
    rw [he] at this
    omega
  have hkeep := hp.keeps hker (hne _ h.kernel)
  refine ⟨List.mem_cons_of_mem _ (by show k'.kernel_directory ∈ _; rw [hp.kernelDir]; exact h.kernel), fun d hd' => ?_⟩
  rcases List.mem_cons.1 hd' with rfl | hd'
  · exact hd
  · exact hkeep.dir (h.dirs d hd') (hp.directories d (hne d hd') (h.dirs d hd').high)

theorem Inv.kmalloc (h : s.Inv b) {size : U32} {align : Bool} (hs : s.Sound (.kmalloc size align))
    (hstep : s.Step (.kmalloc size align) t) : t.Inv b := by
  obtain ⟨fuel, p, phys, k', hm, rfl⟩ := hstep
  simp only [Sound] at hs
  by_cases hk : s.kernel.kheap = 0
  · have hker := h.dirs _ h.kernel
    have hlow := hker.low
    have hhigh := hker.high
    have hle : s.kernel.placement_address.toNat ≤ s.kernel.pageBehind := by
      unfold pageBehind
      omega
    rw [if_pos hk] at hs
    cases align with
    | true =>
      rw [if_pos rfl] at hs
      have hT := toNat_pageBehind (k := s.kernel) (by omega)
      rw [kmalloc_aligned hk (by omega)] at hm
      obtain ⟨-, -, rfl⟩ := Prod.mk.inj (Option.some.inj hm)
      generalize nextPage s.kernel.placement_address = P at hT ⊢
      have hend : (P + size).toNat = P.toNat + size.toNat := by
        rw [BitVec.toNat_add]
        omega
      generalize P + size = e at hend ⊢
      exact h.keep (keepsPlaced_of rfl rfl rfl (show _ ≤ e.toNat by omega) fun _ _ => rfl) rfl
    | false =>
      rw [if_neg (by decide)] at hs
      rw [kmalloc_plain hk] at hm
      obtain ⟨-, -, rfl⟩ := Prod.mk.inj (Option.some.inj hm)
      have hend : (s.kernel.placement_address + size).toNat = s.kernel.placement_address.toNat + size.toNat := by
        rw [BitVec.toNat_add]
        omega
      generalize s.kernel.placement_address + size = e at hend ⊢
      exact h.keep (keepsPlaced_of rfl rfl rfl (show _ ≤ e.toNat by omega) fun _ _ => rfl) rfl
  · rw [if_neg hk] at hs
    unfold Kernel.kmalloc at hm
    rw [if_pos hk] at hm
    obtain ⟨⟨q, k₁⟩, ha, he⟩ := Option.map_eq_some_iff.1 hm
    obtain ⟨-, -, rfl⟩ := Prod.mk.inj he
    obtain ⟨hsame, hpages⟩ := hs.spaces ha
    have hd : k₁.directories = s.kernel.directories := by rw [hsame]
    exact h.keep (keepsPlaced_of hd (by rw [hsame]) (by rw [hsame]) (Nat.le_of_eq (by rw [hsame])) hpages) hd

theorem Inv.switch (h : s.Inv b) {dir : U32} (hs : s.Sound (.switchPageDirectory dir))
    (hstep : s.Step (.switchPageDirectory dir) t) : t.Inv b := by
  obtain ⟨-, rfl⟩ := hstep
  have hplaced : ∀ {x : U32} {n : Nat}, 0 < n → InPlace b s.kernel x n →
      InPlace b (s.kernel.switchPageDirectory dir) x n := fun {x n} hn hx => ⟨hx.low, hx.behind, hx.high, fun _ => by
      have hhigh := hx.high
      by_cases hc : s.kernel.current_directory = 0
      · exact hs hc x (by omega)
      · exact hx.mapped hc⟩
  exact ⟨h.kernel, fun d hd => by
    have hok := h.dirs d hd
    exact ⟨hok.low, hok.behind, hok.high, hplaced (by decide) hok.array, fun i hi => ⟨(hok.slots i hi).physical,
      fun h0 => hplaced (by decide) ((hok.slots i hi).table h0)⟩, hok.physicalAddress⟩⟩

/-- **A sound step keeps the directories placed.** -/
theorem Inv.step (h : s.Inv b) {op : PagingOp} (hs : s.Sound op) (hstep : s.Step op t) : t.Inv b := by
  cases op with
  | getPage address make dir => exact h.getPage hs hstep
  | cloneDirectory src => exact h.clone hs hstep
  | kmalloc size align => exact h.kmalloc hs hstep
  | allocFrame p isKernel isWritable =>
    obtain ⟨k', hk', rfl⟩ := hstep
    have hsame := allocFrame_same hk'
    have hd : k'.directories = s.kernel.directories := by rw [hsame]
    exact h.keep (keepsPlaced_of hd (by rw [hsame]) (by rw [hsame]) (Nat.le_of_eq (by rw [hsame]))
      (allocFrame_keeps hk')) hd
  | switchPageDirectory dir => exact h.switch hs hstep
  | makeHeap =>
    obtain ⟨fuel, k', hm, rfl⟩ := hstep
    obtain ⟨hk, hfit⟩ := hs
    unfold Kernel.makeHeap at hm
    rw [kmalloc_plain hk, Option.map_some] at hm
    obtain rfl := Option.some.inj hm
    have hend :
        (s.kernel.placement_address + sizeofHeap).toNat = s.kernel.placement_address.toNat + sizeofHeap.toNat := by
      rw [BitVec.toNat_add]
      omega
    generalize s.kernel.placement_address + sizeofHeap = e at hend ⊢
    exact h.keep (keepsPlaced_of rfl rfl rfl (show _ ≤ e.toNat by omega) fun _ _ => rfl) rfl

/-- The kernel with its first directory. -/
def start (k : Kernel) : Paging := ⟨k, [k.kernel_directory]⟩

/-- **`initialise_paging` makes its first directory**, and that is placed. -/
theorem start_inv {k : Kernel} (hs : AtStart k) (hp : 0x1000 ≤ k.placement_address.toNat)
    (hfit : k.placement_address.toNat + 0x4000 ≤ 2 ^ 32) (hb : b ≤ (bootDirectory k.placement_address).toNat) :
    ∃ k₁, (∀ alloc, makeDirectory alloc k = some k₁) ∧ (start k₁).Inv b := by
  have h128 : (k.placement_address + 128).toNat = k.placement_address.toNat + 128 := by
    rw [BitVec.toNat_add]
    show (k.placement_address.toNat + 128) % 2 ^ 32 = _
    omega
  have hdir : (bootDirectory k.placement_address).toNat =
      (k.placement_address.toNat + 128) / 0x1000 * 0x1000 + 0x1000 := by
    rw [← h128]
    exact toNat_nextPage (by omega)
  have hmade : ∀ alloc, makeDirectory alloc k = some (withDirectory k (bootDirectory k.placement_address)) :=
    fun alloc =>
    makeDirectory_eq hs.kheap (by omega)
  generalize bootDirectory k.placement_address = dir at hb hdir hmade
  have hend : (start (withDirectory k dir)).kernel.placement_address.toNat = dir.toNat + 8196 := by
    show (dir + sizeofPageDirectory).toNat = _
    rw [BitVec.toNat_add]
    show (dir.toNat + 8196) % 2 ^ 32 = _
    omega
  have harray : (dir + 0x1000).toNat = dir.toNat + 0x1000 := toNat_add_page (by omega)
  have hself := withDirectory_self k dir
  refine ⟨_, hmade, List.mem_singleton.2 rfl, fun d hd => ?_⟩
  obtain rfl : d = dir := List.mem_singleton.1 hd
  refine ⟨by omega, hb, Nat.le_of_eq hend.symm, ⟨by omega, by omega, by omega, fun hc => absurd hs.current hc⟩,
    fun i _ => ?_, ?_⟩
  · show SlotOk b _ ((withDirectory k d).directories d) i
    rw [hself]
    exact ⟨rfl, fun h0 => absurd rfl h0⟩
  · show ((withDirectory k d).directories d).physicalAddress = _
    rw [hself]

end Paging

open Paging in
/-- **The kernel's walk and the processor's agree** in every run from the first directory of `initialise_paging` on that
makes no page table and no directory once there is a heap.  The bitmap has its words for itself from then on. -/
theorem physical_addresses_agree {k : Kernel} (hs : AtStart k) (hp : 0x1000 ≤ k.placement_address.toNat)
    (hfit : k.placement_address.toNat + 0x4000 ≤ 2 ^ 32) (hbit : k.BitmapAlone) :
    ∃ k₁, (∀ alloc, makeDirectory alloc k = some k₁) ∧
      (∀ i, i < 128 → (framesAt k₁.mem k.placement_address k₁.frames.nframes).words i = k₁.frames.words i) ∧
      ∀ ops, (∀ l₁ op l₂ t, ops = l₁ ++ op :: l₂ → Reaches Step (start k₁) l₁ t → t.Sound op) →
        ∀ l₁ l₂ t, ops = l₁ ++ l₂ → Reaches Step (start k₁) l₁ t → t.WalksAgree ∧ t.Spared k.placement_address := by
  obtain ⟨k₁, hmade, hinv⟩ := start_inv hs hp hfit hbit.apart
  refine ⟨k₁, hmade, fun i hi => hbit.framesAt hs.kheap hp (by omega) (hmade (Kernel.alloc 0)) hi,
    fun ops hsound l₁ l₂ t hl hr => ?_⟩
  have halong : Along Step (fun s => s.Inv (bitmapEnd k.placement_address)) (start k₁) ops :=
    (Runs.guarded_iff.2 hsound).along (fun _ _ _ h hg hstep => h.step hg hstep) hinv
  have ht := along_iff.1 halong l₁ l₂ t hl hr
  exact ⟨ht.agree, ht.spared⟩

open Paging in
/-- A table for the heap, some bytes behind it, and the heap; then bytes of the heap, and the page of its start. -/
theorem physical_addresses_agree_imageAt1M : ∃ k₁ t, (∀ alloc, makeDirectory alloc imageAt1M = some k₁) ∧
    Reaches Step (start k₁) [.getPage kheapStart true k₁.kernel_directory, .kmalloc 0x123 false, .makeHeap,
      .kmalloc 0x40 false, .getPage kheapStart true k₁.kernel_directory] t ∧ t.WalksAgree ∧
      t.Spared imageAt1M.placement_address := by
  obtain ⟨k₁, hmade, -, h⟩ := physical_addresses_agree (k := imageAt1M) ⟨rfl, rfl⟩ (by decide) (by decide)
    bitmapAlone_imageAt1M
  obtain rfl : k₁ = withDirectory imageAt1M (bootDirectory 0x100000) :=
    Option.some.inj ((hmade (Kernel.alloc 0)).symm.trans (makeDirectory_eq rfl (by decide)))
  generalize hk : withDirectory imageAt1M (bootDirectory 0x100000) = k at h ⊢
  have hheap : k.kheap = 0 ∧ k.current_directory = 0 := by rw [← hk]; exact ⟨rfl, rfl⟩
  have hplace : k.placement_address = 0x103004 := by rw [← hk]; rfl
  have hnone : (k.directories k.kernel_directory).tables (tableIndex kheapStart) = 0 := by rw [← hk]; rfl
  -- the table
  obtain ⟨s₁, he₁⟩ : ∃ s : Paging, s = ⟨addTable k k.kernel_directory (tableIndex kheapStart)
    (nextPage k.placement_address), [k.kernel_directory]⟩ := ⟨_, rfl⟩
  have hone₁ : ∀ {t}, (start k).Step (.getPage kheapStart true k.kernel_directory) t ↔ t = s₁ := by
    rw [he₁]
    exact step_getPage (s := start k) (List.mem_singleton.2 rfl) fun f =>
      getPage_placement (k := k) hheap.1 (by rw [hplace]; decide) hnone
  have hs₁ : s₁.kernel.kheap = 0 ∧ s₁.kernel.placement_address = 0x105000 := by
    rw [he₁]
    exact ⟨hheap.1, by show nextPage k.placement_address + sizeofPageTable = _; rw [hplace]; rfl⟩
  -- the bytes, and the heap
  obtain ⟨s₂, he₂⟩ : ∃ s : Paging, s = ⟨{ s₁.kernel with placement_address := 0x105123 }, s₁.dirs⟩ := ⟨_, rfl⟩
  have hone₂ : ∀ {t}, s₁.Step (.kmalloc 0x123 false) t ↔ t = s₂ := by
    rw [he₂]
    exact step_kmalloc fun f => by rw [kmalloc_plain hs₁.1, hs₁.2]
  obtain ⟨s₃, he₃⟩ : ∃ s : Paging,
    s = ⟨(madeHeap s₂.kernel).switchPageDirectory s₂.kernel.current_directory, s₂.dirs⟩ := ⟨_, rfl⟩
  have hone₃ : ∀ {t}, s₂.Step .makeHeap t ↔ t = s₃ := by
    rw [he₃]
    exact step_makeHeap (by rw [he₂]; exact hs₁.1)
  have hs₃ : s₃.kernel.kheap = 0x105123 ∧ s₃.dirs = [k.kernel_directory] ∧
      s₃.kernel.directories = (addTable k k.kernel_directory (tableIndex kheapStart)
        (nextPage k.placement_address)).directories := by
    rw [he₃, he₂, he₁]
    exact ⟨rfl, rfl, rfl⟩
  obtain ⟨g, hi, hg, -, hgs⟩ := madeHeap_inv s₂.kernel
  obtain ⟨i, hfind⟩ : ∃ i, s₃.kernel.heap.findSmallestHole s₃.kernel.mem (0x40 + sizeofHeader + sizeofFooter) false =
      some i := by
    rw [he₃]
    exact Heap.findSmallestHole_exists hi.toMarks (x := g) (by simp) hg (by rw [hgs]; decide)
  -- the heap's bytes, and the page
  have hkheap : s₃.kernel.kheap ≠ 0 := by
    rw [hs₃.1]
    decide
  obtain ⟨s₄, he₄⟩ : ∃ s : Paging, s = ⟨{ s₃.kernel with
    heap := (s₃.kernel.heap.allocAt s₃.kernel.mem i 0x40 false).2.1
    mem := (s₃.kernel.heap.allocAt s₃.kernel.mem i 0x40 false).2.2 }, s₃.dirs⟩ := ⟨_, rfl⟩
  have hone₄ : ∀ {t}, s₃.Step (.kmalloc 0x40 false) t ↔ t = s₄ := by
    rw [he₄]
    exact step_kmalloc_found hkheap hfind
  have hlook : s₄.kernel.lookupPage kheapStart k.kernel_directory =
      some ⟨nextPage k.placement_address, pageIndex kheapStart⟩ := by
    rw [he₄]
    unfold lookupPage
    dsimp only
    rw [hs₃.2.2, addTable_directory]
    simp only [if_true]
    exact if_pos (by rw [hplace]; decide)
  have hone₅ : ∀ {t}, s₄.Step (.getPage kheapStart true k.kernel_directory) t ↔ t = s₄ :=
    step_getPage (by rw [he₄, hs₃.2.1]; exact List.mem_singleton.2 rfl) fun f => getPage_of_lookup hlook
  have hroom : k.pageBehind + 0x1000 < 2 ^ 32 := by
    unfold pageBehind
    rw [hplace]
    decide
  have hsound₂ : s₁.Sound (.kmalloc 0x123 false) := by
    show if _ then _ else _
    rw [if_pos hs₁.1, if_neg (by decide), hs₁.2]
    decide
  have hsound₃ : s₂.Sound .makeHeap := by
    rw [he₂]
    exact ⟨hs₁.1, show (0x105123 : U32).toNat + sizeofHeap.toNat < 2 ^ 32 by decide⟩
  have hsound₄ : s₃.Sound (.kmalloc 0x40 false) := by
    show if _ then _ else _
    rw [if_neg hkheap]
    exact .found hfind
  have hg : Guarded Step Sound (start k) [.getPage kheapStart true k.kernel_directory, .kmalloc 0x123 false, .makeHeap,
      .kmalloc 0x40 false, .getPage kheapStart true k.kernel_directory] :=
    .cons (fun _ _ => ⟨hheap.1, hroom, fun hc => absurd hheap.2 hc⟩) (fun _ => hone₁.1) <|
      .cons hsound₂ (fun _ => hone₂.1) <| .cons hsound₃ (fun _ => hone₃.1)
        (.cons hsound₄ (fun _ => hone₄.1)
          ⟨fun _ hn => absurd (hn.symm.trans hlook) (by simp), fun _ _ => trivial⟩)
  have hr : Reaches Step _ _ _ := .cons (hone₁.2 rfl) (.cons (hone₂.2 rfl) (.cons (hone₃.2 rfl)
    (.cons (hone₄.2 rfl) (reaches_one (hone₅.2 rfl)))))
  obtain ⟨hagree, hspared⟩ := h _ (guarded_iff.1 hg) _ [] _ (List.append_nil _).symm hr
  exact ⟨k, s₄, by rw [← hk]; exact hmade, hr, hagree, hspared⟩

/-! ## The run of `initialise_paging` -/

namespace Paging

/-- Without a heap, a run from `k` to `k'` over the directories `dirs`. -/
structure Continues (dirs : List U32) (k k' : Kernel) : Prop where
  reaches : ∃ ops, Reaches Step ⟨k, dirs⟩ ops ⟨k', dirs⟩
  kheap : k'.kheap = 0
  kernelDir : k'.kernel_directory = k.kernel_directory

variable {dirs : List U32} {k k' : Kernel} {fuel : Nat} {i : U32}

theorem Continues.refl (hk : k.kheap = 0) : Continues dirs k k := ⟨⟨[], rfl⟩, hk, rfl⟩

theorem Continues.trans {k₁ k₂ k₃ : Kernel} (h₁ : Continues dirs k₁ k₂) (h₂ : Continues dirs k₂ k₃) :
    Continues dirs k₁ k₃ := by
  obtain ⟨l, hl⟩ := h₁.reaches
  obtain ⟨r, hr⟩ := h₂.reaches
  exact ⟨⟨l ++ r, reaches_append.2 ⟨_, hl, hr⟩⟩, h₂.kheap, h₂.kernelDir.trans h₁.kernelDir⟩

theorem Continues.getPage {a : U32} {p : PagePtr} (hk : k.kheap = 0) (hker : k.kernel_directory ∈ dirs)
    (h : getPage (alloc fuel) k a k.kernel_directory = some (p, k')) : Continues dirs k k' := by
  have hstep : Step ⟨k, dirs⟩ (.getPage a true k.kernel_directory) ⟨k', dirs⟩ :=
    ⟨hker, by rw [if_pos rfl]; exact ⟨fuel, p, k', h, rfl⟩⟩
  have hsame : k'.kheap = 0 ∧ k'.kernel_directory = k.kernel_directory := by
    unfold Kernel.getPage at h
    split at h
    · obtain ⟨-, rfl⟩ := Prod.mk.inj (Option.some.inj h)
      exact ⟨hk, rfl⟩
    · obtain ⟨T, hm⟩ := @kmalloc_noHeap (alloc fuel) k hk sizeofPageTable true
      generalize T + sizeofPageTable = e at hm
      rw [hm, Option.map_some] at h
      obtain ⟨-, rfl⟩ := Prod.mk.inj (Option.some.inj h)
      exact ⟨hk, rfl⟩
  exact ⟨⟨_, reaches_one hstep⟩, hsame.1, hsame.2⟩

theorem Continues.allocFrame {p : PagePtr} {a b : Bool} (hk : k.kheap = 0) (h : k.allocFrame p a b = some k') :
    Continues dirs k k' := by
  have hstep : Step ⟨k, dirs⟩ (.allocFrame p a b) ⟨k', dirs⟩ := ⟨k', h, rfl⟩
  have hs := allocFrame_same h
  exact ⟨⟨_, reaches_one hstep⟩, by rw [hs]; exact hk, by rw [hs]⟩

theorem Continues.mapPage (hk : k.kheap = 0) (hker : k.kernel_directory ∈ dirs)
    (h : mapPage (alloc fuel) k i = some k') : Continues dirs k k' := by
  obtain ⟨⟨p, k₁⟩, hg, ha⟩ := Option.bind_eq_some_iff.1 h
  have h₁ := Continues.getPage hk hker hg
  exact h₁.trans (.allocFrame h₁.kheap ha)

theorem Continues.getLoop {bound : U32} : ∀ {n : Nat} {k k' : Kernel} {i : U32}, k.kheap = 0 →
    k.kernel_directory ∈ dirs →
    getLoop (alloc fuel) bound n k i = some k' → Continues dirs k k'
  | 0, _, _, _, _, _, h => by cases h
  | n + 1, k, k', i, hk, hker, h => by
    unfold Kernel.getLoop at h
    split at h
    · obtain ⟨⟨p, k₁⟩, hg, h⟩ := Option.bind_eq_some_iff.1 h
      have h₁ := Continues.getPage hk hker hg
      exact h₁.trans (Continues.getLoop h₁.kheap (by rw [h₁.kernelDir]; exact hker) h)
    · obtain rfl := Option.some.inj h
      exact .refl hk

theorem Continues.identityLoop {n : Nat} (hk : k.kheap = 0) (hker : k.kernel_directory ∈ dirs)
    (h : identityLoop (alloc fuel) n k i = some k') : Continues dirs k k' := by
  induction n generalizing k i with
  | zero => cases h
  | succ n ih =>
    rw [Kernel.identityLoop] at h
    generalize k.placement_address + 0x1000 = bound at h
    by_cases hlt : i < bound
    · rw [if_pos hlt] at h
      obtain ⟨k₁, hm, h⟩ := Option.bind_eq_some_iff.1 h
      have h₁ := Continues.mapPage hk hker hm
      exact h₁.trans (ih h₁.kheap (by rw [h₁.kernelDir]; exact hker) h)
    · rw [if_neg hlt] at h
      obtain rfl := Option.some.inj h
      exact .refl hk

theorem Continues.allocLoop {bound : U32} : ∀ {n : Nat} {k k' : Kernel} {i : U32}, k.kheap = 0 →
    k.kernel_directory ∈ dirs → allocLoop (alloc fuel) bound n k i = some k' → Continues dirs k k'
  | 0, _, _, _, _, _, h => by cases h
  | n + 1, k, k', i, hk, hker, h => by
    unfold Kernel.allocLoop at h
    split at h
    · obtain ⟨k₁, hm, h⟩ := Option.bind_eq_some_iff.1 h
      have h₁ := Continues.mapPage hk hker hm
      exact h₁.trans (Continues.allocLoop h₁.kheap (by rw [h₁.kernelDir]; exact hker) h)
    · obtain rfl := Option.some.inj h
      exact .refl hk

/-- **`initialise_paging` is a run** from its first directory on, to its clone. -/
theorem initialisePaging_reaches {loops : Nat} (hk : k.kheap = 0)
    (h : initialisePaging (alloc fuel) loops k = some k') : ∃ k₁ ops, makeDirectory (alloc fuel) k = some k₁ ∧
      Reaches Step (start k₁) ops ⟨k', [k'.current_directory, k₁.kernel_directory]⟩ := by
  obtain ⟨k₅, hmap, h⟩ := Option.bind_eq_some_iff.1 h
  obtain ⟨k₁, hmade, hmap⟩ := Option.bind_eq_some_iff.1 hmap
  obtain ⟨k₂, hget, hmap⟩ := Option.bind_eq_some_iff.1 hmap
  obtain ⟨k₃, hid, hall⟩ := Option.bind_eq_some_iff.1 hmap
  have hk₁ : k₁.kheap = 0 := by
    obtain ⟨p, hm⟩ := @kmalloc_noHeap (alloc fuel) k hk (indexFromBit (memEndPage / 0x1000)) false
    unfold makeDirectory at hmade
    simp only at hmade
    rw [hm, Option.bind_some] at hmade
    obtain ⟨q, hm'⟩ := @kmalloc_noHeap (alloc fuel)
      { k with
        placement_address := p + indexFromBit (memEndPage / 0x1000)
        frames := ⟨memEndPage / 0x1000, fun _ => 0⟩
        mem := fill k.mem p 0 (indexFromBit (memEndPage / 0x1000)).toNat } hk sizeofPageDirectory true
    rw [hm', Option.map_some] at hmade
    obtain rfl := Option.some.inj hmade
    exact hk
  refine ⟨k₁, ?_⟩
  have hker : k₁.kernel_directory ∈ [k₁.kernel_directory] := List.mem_singleton.2 rfl
  have h₂ := Continues.getLoop hk₁ hker hget
  have h₃ := h₂.trans (.identityLoop h₂.kheap (by rw [h₂.kernelDir]; exact hker) hid)
  have h₅ := h₃.trans (.allocLoop h₃.kheap (by rw [h₃.kernelDir]; exact hker) hall)
  rw [makeHeap_eq h₅.kheap, Option.bind_some] at h
  obtain ⟨⟨dir, copies, k₆⟩, hc, he⟩ := Option.map_eq_some_iff.1 h
  obtain rfl : k₆.switchPageDirectory dir = k' := he
  obtain ⟨ops, hr⟩ := h₅.reaches
  have hker₅ : k₅.kernel_directory ∈ [k₁.kernel_directory] := List.mem_singleton.2 h₅.kernelDir
  have h₆ : Step ⟨k₅, [k₁.kernel_directory]⟩ (.switchPageDirectory k₅.kernel_directory)
      ⟨k₅.switchPageDirectory k₅.kernel_directory, [k₁.kernel_directory]⟩ := ⟨hker₅, rfl⟩
  have h₇ : Step ⟨k₅.switchPageDirectory k₅.kernel_directory, [k₁.kernel_directory]⟩ .makeHeap
      ⟨madeHeap k₅, [k₁.kernel_directory]⟩ := ⟨fuel, _, makeHeap_eq h₅.kheap, rfl⟩
  have h₈ : Step ⟨madeHeap k₅, [k₁.kernel_directory]⟩ (.cloneDirectory (madeHeap k₅).kernel_directory)
      ⟨k₆, [dir, k₁.kernel_directory]⟩ := ⟨hker₅, fuel, dir, copies, k₆, hc, rfl⟩
  have h₉ : Step ⟨k₆, [dir, k₁.kernel_directory]⟩ (.switchPageDirectory dir)
      ⟨k₆.switchPageDirectory dir, [dir, k₁.kernel_directory]⟩ := ⟨List.mem_cons_self .., rfl⟩
  have hrest : Reaches Step ⟨k₅, [k₁.kernel_directory]⟩ [.switchPageDirectory k₅.kernel_directory, .makeHeap,
      .cloneDirectory (madeHeap k₅).kernel_directory, .switchPageDirectory dir]
      ⟨k₆.switchPageDirectory dir, [dir, k₁.kernel_directory]⟩ := ⟨_, h₆, _, h₇, _, h₈, _, h₉, rfl⟩
  exact ⟨_, hmade, reaches_append.2 ⟨_, hr, hrest⟩⟩

end Paging

open Paging in
/-- `initialise_paging` from a placement address of 1 MB: the clone's `PhysicalAddress` is not that of its array. -/
theorem clone_physical_address : ∃ k₁ k' steps ops, makeDirectory (Kernel.alloc 1) imageAt1M = some k₁ ∧
    (∀ loops, steps ≤ loops → initialisePaging (Kernel.alloc 1) loops imageAt1M = some k') ∧
      Reaches Step (start k₁) ops ⟨k', [k'.current_directory, k₁.kernel_directory]⟩ ∧
        ¬ WalksAgree ⟨k', [k'.current_directory, k₁.kernel_directory]⟩ := by
  obtain ⟨k', k₂, n, f, b, t, steps, hn, hab, hun, hrun⟩ :=
    initialisePaging_spec 0 (k := imageAt1M) ⟨rfl, rfl⟩ (by decide)
    (M := 264) (by decide) (by decide)
  obtain ⟨k₁, ops, hmade, hr⟩ := initialisePaging_reaches rfl (hrun steps (Nat.le_refl _))
  refine ⟨k₁, k', steps, ops, hmade, hrun, hr, fun hagree => ?_⟩
  have hw := (hagree k'.current_directory (List.mem_cons_self ..)).2
  generalize bootDirectory imageAt1M.placement_address = dir at hab
  -- the frame of the page behind the start of the clone
  have hx : (0xC0082000 : U32).toNat / 0x1000 = 0xC0000 + 0x82 := rfl
  have hlook := hab.booting.lookup_heap hab.fits hx (by decide)
  obtain ⟨hpres, hframe⟩ := hab.booting.heap 0x82 (by decide)
  have hhigh := hab.fits.high
  rw [← hab.pages _ (by
    show (dir + 0x3000).toNat + 0x1000 ≤ _
    rw [hab.fits.toNat_heapTable]
    omega)] at hpres hframe
  have hlook' : k'.lookupPage 0xC0082000 k'.kernel_directory = some ⟨dir + 0x3000, 0x82⟩ := by
    rw [← hlook, hab.booting.kernelDir, hab.kernelDir]
    unfold lookupPage
    rw [hab.directory]
  have hne : bootClone ≠ 0 := by decide
  unfold physicalOf Kernel.translate at hw
  rw [hab.current, if_neg hne, hab.clonePhysical, hun, show bootClone + 0x1000 = 0xC0082000 from rfl, hlook',
    Option.bind_some, if_pos hpres] at hw
  have he := congrArg BitVec.toNat (Option.some.inj hw)
  have h1 : (0xC0082000 % 0x1000 : U32).toNat = 0 := rfl
  have h2 : (imageAt1M.uninit + 0x1000).toNat = 0x1000 := rfl
  have h3 : (0x1000 : U32).toNat = 0x1000 := rfl
  rw [BitVec.toNat_add, BitVec.toNat_mul, BitVec.toNat_setWidth, h1, h2, h3, hframe] at he
  omega

end Loris
