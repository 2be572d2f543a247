import Loris.FramesBuffer
import Loris.HeapReady
/-!
# AddressSpaces — the directories after `initialise_paging`

Runs of `clone_directory`, `Alloc`, `Free` and task switches.  A clone shares the tables that `kernel_directory` has at
that moment, so that all directories translate the heap alike as long as `Expand` makes no new table
(`kernel_mappings_agree`).  A table made later is entered in `kernel_directory` alone (`clone_misses_table`).
-/
namespace Loris

open ByteMem Runs Kernel Cut

/-- The tables of `dir` that `kernel_directory` has not in their slots. -/
def Kernel.ownTables (k : Kernel) (dir : U32) : List U32 :=
  (List.range 1024).filterMap fun i =>
    let table := (k.directories dir).tables i
    if table ≠ 0 ∧ table ≠ (k.directories k.kernel_directory).tables i then some table else none

theorem Kernel.ownTables_shared {k : Kernel} {dir : U32}
    (h : ∀ i, i < 1024 → (k.directories dir).tables i = (k.directories k.kernel_directory).tables i) :
    k.ownTables dir = [] :=
  List.filterMap_eq_nil_iff.2 fun i hi => if_neg fun hne => hne.2 (h i (List.mem_range.1 hi))

/-- The kernel and its live pointers, and the directories that were cloned and not freed. -/
structure Spaces where
  heap : HeapState
  dirs : List U32

inductive SpaceOp where
  | clone (src : U32)
  | alloc (size : U32) (page_align : Bool)
  | free (p : U32)
  | switch (dir : U32)

namespace Spaces

def kernel (s : Spaces) : Kernel := s.heap.kernel

def IsDir (s : Spaces) (d : U32) : Prop := d = s.kernel.kernel_directory ∨ d ∈ s.dirs

/-- One call that returns. -/
def Step (s : Spaces) : SpaceOp → Spaces → Prop
  | .clone src, t => s.IsDir src ∧ ∃ fuel dir copies k',
      cloneDirectory (Kernel.alloc fuel) s.kernel src = some (dir, copies, k') ∧
        t = ⟨⟨k', (dir, sizeofPageDirectory) :: (k'.ownTables dir).map (·, sizeofPageTable) ++ s.heap.live⟩,
        dir :: s.dirs⟩
  | .alloc size page_align, t => s.heap.Step (.alloc size page_align) t.heap ∧ t.dirs = s.dirs
  | .free p, t => s.heap.Step (.free p) t.heap ∧ t.dirs = s.dirs.filter (· != p)
  | .switch dir, t => s.IsDir dir ∧ t = ⟨⟨s.kernel.switchPageDirectory dir, s.heap.live⟩, s.dirs⟩

theorem step_alloc {s t : Spaces} {size : U32} {al : Bool} {i : Nat} (hsize : size.toNat + 20 < 2 ^ 32)
    (hf : s.kernel.heap.findSmallestHole s.kernel.mem (size + sizeofHeader + sizeofFooter) al = some i) :
    s.Step (.alloc size al) t ↔ t = ⟨s.heap.allocated i size al, s.dirs⟩ := by
  obtain ⟨h, d⟩ := t
  show s.heap.Step (.alloc size al) h ∧ d = s.dirs ↔ _
  rw [HeapState.step_alloc hsize hf, Spaces.mk.injEq]

/-- **The call is sound in the state it is made in.** -/
def Sound (s : Spaces) : SpaceOp → Prop
  | .clone _ => s.kernel.AllocSound sizeofPageDirectory true
  | .alloc size page_align => s.kernel.AllocSound size page_align
  | .free p => s.kernel.FreeSound p
  | .switch _ => True

/-- **Every directory translates the heap as `kernel_directory` does.** -/
def Agree (s : Spaces) : Prop :=
  ∀ d ∈ s.dirs, ∀ x : U32, kheapStart.toNat ≤ x.toNat → x.toNat < s.kernel.heap.endAddress.toNat →
    translate s.kernel d x = translate s.kernel s.kernel.kernel_directory x

/-- The bitmap at `frames` spares every directory. -/
def Spared (s : Spaces) (frames : U32) : Prop := ∀ d, s.IsDir d → s.kernel.Spared frames d

/-- **Every directory shares the tables of `kernel_directory`**, and is a live block of the heap. -/
structure Sharing (s : Spaces) (segs : List Seg) : Prop where
  tiled : s.heap.Tiled 0xC0080000 segs
  kheap : s.kernel.kheap ≠ 0
  low : s.kernel.kernel_directory.toNat + 8196 ≤ 0xC0080000
  block : ∀ d ∈ s.dirs, (d, sizeofPageDirectory) ∈ s.heap.live
  tables : ∀ d ∈ s.dirs, ∀ i, i < 1024 →
    (s.kernel.directories d).tables i = (s.kernel.directories s.kernel.kernel_directory).tables i

variable {s t : Spaces} {segs : List Seg}

theorem translate_congr {k : Kernel} {d e x : U32}
    (h : (k.directories d).tables (tableIndex x) = (k.directories e).tables (tableIndex x)) :
    translate k d x = translate k e x := by
  unfold Kernel.translate lookupPage
  rw [h]

theorem Sharing.agree (h : s.Sharing segs) : s.Agree := fun d hd x _ _ =>
  translate_congr (h.tables d hd _ (tableIndex_lt x))

/-- A live block lies in the heap. -/
theorem Sharing.inHeap (h : s.Sharing segs) {b : U32 × U32} (hb : b ∈ s.heap.live) :
    0xC0080000 ≤ b.1.toNat ∧ b.1.toNat + b.2.toNat < 2 ^ 32 := by
  obtain ⟨g, hg, hbg⟩ := h.tiled.live b hb
  have hw := h.tiled.inv.within g hg
  have hp := hbg.ptr hw.2
  have hroom := hbg.2.2
  exact ⟨by omega, by omega⟩

theorem Sharing.of_spaces {live : List (U32 × U32)} {k' : Kernel} {dirs : List U32} {segs' : List Seg}
    (h : s.Sharing segs) (hs : SameSpaces s.kernel k') (ht : HeapState.Tiled ⟨k', live⟩ 0xC0080000 segs')
    (hd : ∀ d ∈ dirs, d ∈ s.dirs ∧ (d, sizeofPageDirectory) ∈ live) : Sharing ⟨⟨k', live⟩, dirs⟩ segs' := by
  have h1 : k'.directories = s.kernel.directories := by rw [hs]
  have h2 : k'.kernel_directory = s.kernel.kernel_directory := by rw [hs]
  refine ⟨ht, ?_, ?_, fun d hd' => (hd d hd').2, fun d hd' i hi => ?_⟩
  · show k'.kheap ≠ 0
    rw [hs]
    exact h.kheap
  · show k'.kernel_directory.toNat + 8196 ≤ _
    rw [h2]
    exact h.low
  · show (k'.directories d).tables i = (k'.directories k'.kernel_directory).tables i
    rw [h1, h2]
    exact h.tables d (hd d hd').1 i hi

theorem Sharing.alloc (h : s.Sharing segs) {size : U32} {al : Bool} (hs : s.kernel.AllocSound size al)
    (hstep : s.Step (.alloc size al) t) : ∃ segs', t.Sharing segs' := by
  obtain ⟨hstep, hdirs⟩ := hstep
  obtain ⟨⟨segs', ht⟩, -⟩ := h.tiled.alloc hs hstep
  obtain ⟨th, td⟩ := t
  obtain ⟨-, fuel, p, k', ha, rfl⟩ := hstep
  obtain rfl : td = s.dirs := hdirs
  exact ⟨segs', h.of_spaces (hs.makesNoTable.spaces ha).1 ht fun d hd => ⟨hd, List.mem_cons_of_mem _ (h.block d hd)⟩⟩

theorem Sharing.free (h : s.Sharing segs) {p : U32} (hs : s.kernel.FreeSound p) (hstep : s.Step (.free p) t) :
    ∃ segs', t.Sharing segs' := by
  obtain ⟨hstep, hdirs⟩ := hstep
  obtain ⟨⟨segs', ht⟩, -⟩ := h.tiled.free hs hstep
  obtain ⟨th, td⟩ := t
  obtain ⟨-, k', hk, rfl⟩ := hstep
  obtain rfl : td = s.dirs.filter (· != p) := hdirs
  refine ⟨segs', h.of_spaces (free_spaces hk) ht fun d hd => ?_⟩
  obtain ⟨hd, hne⟩ := List.mem_filter.1 hd
  exact ⟨hd, List.mem_filter.2 ⟨h.block d hd, hne⟩⟩

theorem Sharing.isDir_bound (h : s.Sharing segs) {d : U32} (hd : s.IsDir d) : d.toNat + 8196 ≤ 2 ^ 32 := by
  rcases hd with rfl | hd
  · have := h.low
    omega
  · have h1 := h.tiled.safe.below _ (h.block d hd)
    have h2 := s.heap.kernel.heap.endAddress.isLt
    have h3 : sizeofPageDirectory.toNat = 8196 := rfl
    simp only at h1
    omega

/-- **What a sound clone does**: a block of the heap, apart from every directory, with a clone that shares every table.
-/
structure Cloned (s : Spaces) (src dir : U32) (k₁ : Kernel) (segs' : List Seg) (t : Spaces) : Prop where
  alloc : ∃ fuel, Kernel.alloc fuel s.kernel sizeofPageDirectory true = some (dir, k₁)
  tiled : HeapState.Tiled ⟨k₁, (dir, sizeofPageDirectory) :: s.heap.live⟩ 0xC0080000 segs'
  spaces : SameSpaces s.kernel k₁
  pages : KeepsPages s.kernel k₁
  low : 0xC0080000 ≤ dir.toNat
  high : dir.toNat + 8196 ≤ 2 ^ 32
  apart : ∀ d, s.IsDir d → Apart d.toNat 8196 dir.toNat 8196
  kernel : t.kernel = k₁.sharedClone dir src
  live : t.heap.live = (dir, sizeofPageDirectory) :: s.heap.live
  dirs : t.dirs = dir :: s.dirs

theorem Sharing.same (h : s.Sharing segs) {d : U32} (hd : s.IsDir d) {i : Nat} (hi : i < 1024) :
    (s.kernel.directories d).tables i = (s.kernel.directories s.kernel.kernel_directory).tables i := by
  rcases hd with rfl | hd
  · rfl
  · exact h.tables _ hd i hi

theorem Cloned.directory {src dir : U32} {k₁ : Kernel} {segs' : List Seg} (hc : Cloned s src dir k₁ segs' t)
    (h : s.Sharing segs) {d : U32} (hd : s.IsDir d) : t.kernel.directories d = s.kernel.directories d := by
  rw [hc.kernel, sharedClone_other hc.high (h.isDir_bound hd) (hc.apart d hd), hc.spaces]

theorem Cloned.kernelDir {src dir : U32} {k₁ : Kernel} {segs' : List Seg} (hc : Cloned s src dir k₁ segs' t) :
    t.kernel.kernel_directory = s.kernel.kernel_directory := by
  rw [hc.kernel]
  show k₁.kernel_directory = _
  rw [hc.spaces]

theorem Cloned.self {src dir : U32} {k₁ : Kernel} {segs' : List Seg} (hc : Cloned s src dir k₁ segs' t)
    (h : s.Sharing segs) (hsrc : s.IsDir src) {i : Nat} (hi : i < 1024) :
    (t.kernel.directories dir).tables i = (s.kernel.directories s.kernel.kernel_directory).tables i := by
  rw [hc.kernel, (sharedClone_self hc.high (h.isDir_bound hsrc) (hc.apart src hsrc) hi).1, hc.spaces]
  exact h.same hsrc hi

/-- **A clone returns when its block does.** -/
theorem Sharing.clone_eq (h : s.Sharing segs) {src dir : U32} {k₁ : Kernel} {fuel : Nat} (hsrc : s.IsDir src)
    (hs : s.kernel.AllocSound sizeofPageDirectory true)
    (ha : Kernel.alloc fuel s.kernel sizeofPageDirectory true = some (dir, k₁)) :
    cloneDirectory (Kernel.alloc fuel) s.kernel src = some (dir, [], k₁.sharedClone dir src) ∧
      ∃ segs', Cloned s src dir k₁ segs' ⟨⟨k₁.sharedClone dir src, (dir, sizeofPageDirectory) ::
        ((k₁.sharedClone dir src).ownTables dir).map (·, sizeofPageTable) ++ s.heap.live⟩, dir :: s.dirs⟩ := by
  obtain ⟨⟨segs', ht⟩, -⟩ := h.tiled.alloc (t := ⟨k₁, (dir, sizeofPageDirectory) :: s.heap.live⟩) hs
    ⟨by decide, fuel, dir, k₁, ha, rfl⟩
  obtain ⟨hsp, hpages⟩ := hs.makesNoTable.spaces ha
  have hkd : k₁.kernel_directory = s.kernel.kernel_directory := by rw [hsp]
  have hdirs : k₁.directories = s.kernel.directories := by rw [hsp]
  have hsize : sizeofPageDirectory.toNat = 8196 := rfl
  -- the new block is apart from every directory
  obtain ⟨g, hg, hbg⟩ := ht.live _ (List.mem_cons_self ..)
  have hptr := hbg.ptr (ht.inv.within g hg).2
  have hlow := (ht.inv.within g hg).1
  have hroom := hbg.2.2
  have hgw := (ht.inv.within g hg).2
  simp only [hsize] at hptr hroom
  have hap : ∀ d, s.IsDir d → Apart d.toNat 8196 dir.toNat 8196 := fun d hd => by
    rcases hd with rfl | hd
    · have := h.low
      exact .inl (by omega)
    · have := (List.pairwise_cons.1 ht.safe.disjoint).1 _ (h.block _ hd)
      exact Or.symm this
  have hdir : dir.toNat + 8196 ≤ 2 ^ 32 := by omega
  have hker : s.IsDir s.kernel.kernel_directory := .inl rfl
  refine ⟨cloneDirectory_shared h.kheap ha hdir (h.isDir_bound hsrc) (hap src hsrc)
    (by rw [hkd]; exact h.isDir_bound hker) (by rw [hkd]; exact hap _ hker) fun j hj _ => ?_,
    segs', ⟨fuel, ha⟩, ht, hsp, hpages, by omega, hdir, hap, rfl, ?_, rfl⟩
  · rw [hdirs, hkd]
    exact (h.same hsrc hj).symm
  · have hown : (k₁.sharedClone dir src).ownTables dir = [] := Kernel.ownTables_shared fun i hi => by
      rw [(sharedClone_self hdir (h.isDir_bound hsrc) (hap src hsrc) hi).1,
        show (k₁.sharedClone dir src).kernel_directory =
        s.kernel.kernel_directory from hkd, sharedClone_other hdir (h.isDir_bound hker) (hap _ hker), hdirs]
      exact h.same hsrc hi
    show (dir, sizeofPageDirectory) ::
      ((k₁.sharedClone dir src).ownTables dir).map (·, sizeofPageTable) ++ s.heap.live = _
    rw [hown]
    rfl

theorem Sharing.clone_shared (h : s.Sharing segs) {src : U32} (hs : s.kernel.AllocSound sizeofPageDirectory true)
    (hstep : s.Step (.clone src) t) : ∃ dir k₁ segs', Cloned s src dir k₁ segs' t := by
  obtain ⟨hsrc, fuel, dir, copies, k', hc, rfl⟩ := hstep
  obtain ⟨k₁, ha⟩ := cloneDirectory_alloc h.kheap hc
  obtain ⟨heq, segs', hcloned⟩ := h.clone_eq hsrc hs ha
  rw [heq] at hc
  obtain ⟨-, rfl⟩ := Prod.mk.inj (Prod.mk.inj (Option.some.inj hc)).2
  exact ⟨dir, k₁, segs', hcloned⟩

/-- The heap after a clone whose block is behind the gap of the last hole. -/
theorem Cloned.inv_tail {src dir : U32} {k₁ k' : Kernel} {segs' pre : List Seg} {x f b r : Seg} {base : Nat}
    (hc : Cloned s src dir k₁ segs' t)
    (ha : ∀ fuel, Kernel.alloc (fuel + 1) s.kernel sizeofPageDirectory true = some (b.addr + sizeofHeader, k'))
    (ht : TailTaken s.kernel base pre x sizeofPageDirectory k' f b r) :
    Inv t.kernel.heap t.kernel.mem base (pre ++ [f, b, r]) := by
  obtain ⟨fuel, ha'⟩ := hc.alloc
  cases fuel with
  | zero => cases ha'
  | succ fuel =>
    obtain ⟨hd, rfl⟩ := Prod.mk.inj (Option.some.inj (ha'.symm.trans (ha fuel)))
    have hb := ht.inv.within b (by simp)
    have hbs := ht.block.2.2
    have h8196 : sizeofPageDirectory.toNat = 8196 := rfl
    have hdn : dir.toNat = b.addr.toNat + 12 := by
      rw [hd, BitVec.toNat_add, show sizeofHeader.toNat = 12 from rfl]
      omega
    rw [hc.kernel]
    exact HeapState.inv_inside ht.inv (g := b) (by simp) (keeps_fill k₁.mem dir 0 8196 hc.high) (by omega) (by omega)

theorem Cloned.sharing {src dir : U32} {k₁ : Kernel} {segs' : List Seg} (hc : Cloned s src dir k₁ segs' t)
    (h : s.Sharing segs) (hsrc : s.IsDir src) : t.Sharing segs' := by
  have hsize : sizeofPageDirectory.toNat = 8196 := rfl
  have hker : s.IsDir s.kernel.kernel_directory := .inl rfl
  obtain ⟨g, hg, hbg⟩ := hc.tiled.live _ (List.mem_cons_self ..)
  have hptr := hbg.ptr (hc.tiled.inv.within g hg).2
  have hroom := hbg.2.2
  have hhigh := hc.high
  simp only [hsize] at hptr hroom
  refine ⟨⟨?_, ?_, ?_⟩, ?_, ?_, fun d hd => ?_, fun d hd i hi => ?_⟩
  · show Inv t.kernel.heap t.kernel.mem _ _
    rw [hc.kernel]
    exact HeapState.inv_inside hc.tiled.inv hg (keeps_fill k₁.mem dir 0 8196 hhigh) (by omega) (by omega)
  · rw [hc.live]
    exact hc.tiled.live
  · rw [hc.live]
    exact hc.tiled.distinct
  · rw [hc.kernel]
    show k₁.kheap ≠ 0
    rw [hc.spaces]
    exact h.kheap
  · rw [hc.kernelDir]
    exact h.low
  · rw [hc.dirs] at hd
    rw [hc.live]
    rcases List.mem_cons.1 hd with rfl | hd
    · exact List.mem_cons_self ..
    · exact List.mem_cons_of_mem _ (h.block d hd)
  · rw [hc.dirs] at hd
    rw [hc.kernelDir, hc.directory h hker]
    rcases List.mem_cons.1 hd with rfl | hd
    · exact hc.self h hsrc hi
    · rw [hc.directory h (.inr hd)]
      exact h.tables d hd i hi

theorem Sharing.clone (h : s.Sharing segs) {src : U32} (hs : s.kernel.AllocSound sizeofPageDirectory true)
    (hstep : s.Step (.clone src) t) : ∃ segs', t.Sharing segs' := by
  obtain ⟨dir, k₁, segs', hc⟩ := h.clone_shared hs hstep
  exact ⟨segs', hc.sharing h hstep.1⟩

/-- **A sound step keeps the tables shared.** -/
theorem Sharing.step (h : s.Sharing segs) {op : SpaceOp} (hs : s.Sound op) (hstep : s.Step op t) :
    ∃ segs', t.Sharing segs' := by
  cases op with
  | clone src => exact h.clone hs hstep
  | alloc size al => exact h.alloc hs hstep
  | free p => exact h.free hs hstep
  | switch dir =>
    obtain ⟨-, rfl⟩ := hstep
    exact ⟨segs, ⟨h.tiled.inv, h.tiled.live, h.tiled.distinct⟩, h.kheap, h.low, h.block, h.tables⟩

/-- No call changes the directory of the kernel. -/
theorem Sharing.kernel_kept (h : s.Sharing segs) {op : SpaceOp} (hs : s.Sound op) (hstep : s.Step op t) :
    t.kernel.kernel_directory = s.kernel.kernel_directory ∧
      t.kernel.directories s.kernel.kernel_directory = s.kernel.directories s.kernel.kernel_directory := by
  cases op with
  | clone src =>
    obtain ⟨dir, k₁, segs', hc⟩ := h.clone_shared hs hstep
    exact ⟨hc.kernelDir, hc.directory h (.inl rfl)⟩
  | alloc size al =>
    obtain ⟨⟨-, fuel, p, k', ha, he⟩, -⟩ := hstep
    have hsame := (hs.makesNoTable.spaces ha).1
    unfold kernel
    rw [he, hsame]
    exact ⟨rfl, rfl⟩
  | free p =>
    obtain ⟨⟨-, k', hk, he⟩, -⟩ := hstep
    have hsame := free_spaces hk
    unfold kernel
    rw [he, hsame]
    exact ⟨rfl, rfl⟩
  | switch dir =>
    obtain ⟨-, rfl⟩ := hstep
    exact ⟨rfl, rfl⟩

/-- **Every directory is spared** when that of the kernel is behind the bitmap: the others are in the heap. -/
theorem Sharing.spared (h : s.Sharing segs) {frames : U32}
    (hb : s.kernel.TablesBehind (bitmapEnd frames) s.kernel.kernel_directory) : s.Spared frames := fun d hd => by
  refine (hb.congr ?_ fun i hi => h.same hd hi).spared
  rcases hd with rfl | hd
  · exact hb.self
  · have hself := hb.self
    have hlow := h.low
    have hblock := (h.inHeap (h.block d hd)).1
    simp only at hblock
    omega

/-- After `initialise_paging`. -/
def start (k : Kernel) : Spaces := ⟨⟨k, [(k.current_directory, sizeofPageDirectory)]⟩, [k.current_directory]⟩

end Spaces

/-- **`initialise_paging` leaves the tables shared.** -/
theorem Kernel.AfterBoot.sharing {k k₁ : Kernel} {dir : U32} {n : Nat} {f b t : Seg} (h : AfterBoot k k₁ dir n f b t) :
    (Spaces.start k).Sharing [f, b, t] := by
  obtain ⟨hbh, hba, hbs⟩ := h.block
  have hhigh := h.fits.high
  have hlive : ∀ x ∈ (Spaces.start k).heap.live, x = (bootClone, sizeofPageDirectory) := fun x hx => by
    rw [List.mem_singleton.1 hx, h.current]
  refine ⟨⟨h.inv, fun x hx => ⟨b, by simp, ?_⟩, List.pairwise_singleton ..⟩, h.kheap, ?_, fun d hd => ?_,
    fun d hd i hi => ?_⟩
  · rw [hlive x hx]
    refine ⟨hbh, ?_, ?_⟩
    · rw [hba]
      rfl
    · rw [hbs]
      decide
  · show k.kernel_directory.toNat + 8196 ≤ _
    rw [h.kernelDir]
    omega
  · rw [List.mem_singleton.1 hd]
    exact List.mem_cons_self ..
  · rw [List.mem_singleton.1 hd]
    show (k.directories k.current_directory).tables i = (k.directories k.kernel_directory).tables i
    rw [h.current, h.kernelDir, h.clone i hi, h.directory]

/-- **`initialise_paging` leaves the kernel's directory behind** what ends before it. -/
theorem Kernel.AfterBoot.behind {k k₁ : Kernel} {dir : U32} {n b : Nat} {f c t : Seg}
    (h : AfterBoot k k₁ dir n f c t) (hle : b ≤ dir.toNat) : k.TablesBehind b k.kernel_directory := by
  have hfew := h.few
  refine (h.booting.behind h.fits (by omega) hle).congr ?_ fun i _ => ?_
  · rw [h.kernelDir]
    exact hle
  · rw [h.kernelDir, h.directory]

open Spaces in
/-- **The kernel's mappings agree in all address spaces**: `initialise_paging` returns, and in every run from there
whose calls are sound every directory translates the heap as `kernel_directory` does, and the bitmap spares it. -/
theorem kernel_mappings_agree (fuel : Nat) {k : Kernel} (hs : AtStart k) (hp : 0x100000 ≤ k.placement_address.toNat)
    (hfit : BootFits k.placement_address) (hbit : k.BitmapAlone) : ∃ k' steps,
      (∀ loops, steps ≤ loops → initialisePaging (Kernel.alloc (fuel + 1)) loops k = some k') ∧
      ∀ ops, (∀ l₁ op l₂ t, ops = l₁ ++ op :: l₂ → Reaches Step (start k') l₁ t → t.Sound op) →
        ∀ l₁ l₂ t, ops = l₁ ++ l₂ → Reaches Step (start k') l₁ t → t.Agree ∧ t.Spared k.placement_address := by
  obtain ⟨M, hM, hbound⟩ := hfit
  obtain ⟨k', k₁, n, f, b, t, steps, -, hab, -, hrun⟩ := initialisePaging_spec fuel hs hp hM hbound
  refine ⟨k', steps, hrun, fun ops hsound l₁ l₂ u hl hr => ?_⟩
  have halong : Along Step (fun s => (∃ segs, s.Sharing segs) ∧
      s.kernel.TablesBehind (bitmapEnd k.placement_address) s.kernel.kernel_directory) (start k') ops :=
    (Runs.guarded_iff.2 hsound).along (fun s op t ⟨⟨segs, h⟩, hb⟩ hg hstep => ⟨h.step hg hstep, by
      obtain ⟨hkd, hdir⟩ := h.kernel_kept hg hstep
      exact hb.congr (by rw [hkd]; exact hb.self) fun i _ => by rw [hkd, hdir]⟩)
      ⟨⟨_, hab.sharing⟩, hab.behind hbit.apart⟩
  obtain ⟨⟨segs, h⟩, hb⟩ := along_iff.1 halong l₁ l₂ u hl hr
  exact ⟨h.agree, h.spared hb⟩

/-- Two pages from the hole behind the clone, and what is left takes a directory. -/
theorem Kernel.AfterBoot.two_pages {k k₁ : Kernel} {dir : U32} {n : Nat} {f b t : Seg}
    (h : AfterBoot k k₁ dir n f b t) : ∃ i k₂ c r,
      k.heap.findSmallestHole k.mem (0x2000 + sizeofHeader + sizeofFooter) false = some i ∧
      (∀ fuel, Kernel.alloc (fuel + 1) k 0x2000 false = some (c.addr + sizeofHeader, k₂)) ∧
      Inv k₂.heap k₂.mem 0xC0080000 ([f, b, c] ++ [r]) ∧ c.hole = false ∧
      TailFits k₂ [f, b, c] r sizeofPageDirectory := by
  obtain ⟨hfh, hfa, hfs⟩ := h.front
  obtain ⟨hbh, -⟩ := h.block
  obtain ⟨hth, hta, hts⟩ := h.rest
  have hta' : t.addr.toNat = 0xC008300C := by rw [hta]; rfl
  have hts' : t.size.toNat = 0x7CFF4 := by rw [hts]; rfl
  have hfits : ∀ s ∈ [f, b, t], Heap.fits k.mem (0x2000 + sizeofHeader + sizeofFooter) false s.addr = true ↔
      0x2014 ≤ s.size.toNat := fun s hs => by
    rw [fits_plain, BitVec.le_def, (h.inv.header s hs).2.2]
    rfl
  obtain ⟨i, hfind, hget⟩ := Heap.findSmallestHole_only h.inv.toMarks (x := t) (by simp) hth
    ((hfits t (by simp)).2 (by rw [hts]; decide)) fun y hy hyh hyt => by
      rw [← Bool.not_eq_true, hfits y hy]
      simp only [List.mem_cons, List.not_mem_nil, or_false] at hy
      rcases hy with rfl | rfl | rfl
      · rw [hfs]
        decide
      · rw [hbh] at hyh
        cases hyh
      · exact absurd rfl hyt
  obtain ⟨k₂, c, r, ha, hinv, hch, hca, hcs, hrh, hra, hre⟩ :=
    @alloc_split k 0xC0080000 [f, b] t 0x2000 [] i h.inv hth hfind hget (by rw [hts]; decide)
  rw [hta'] at hra
  rw [hta', hts'] at hre
  have h2000 : (0x2000 : U32).toNat = 0x2000 := rfl
  have hdir : sizeofPageDirectory.toNat = 8196 := rfl
  have hrv : r.addr = 0xC0085020 := BitVec.eq_of_toNat_eq (by
    show _ = 0xC0085020
    omega)
  have hgap : (frontGap r.addr).toNat = 0xFD4 := by rw [hrv]; decide
  refine ⟨i, k₂, c, r, hfind, ha, by simpa using hinv, hch, hrh, by omega, fun y hy hyh => ?_, by omega, by omega,
    Nat.lt_of_le_of_lt hinv.toMarks.size_le (show 4 < heapIndexSize.toNat by decide)⟩
  simp only [List.mem_cons, List.not_mem_nil, or_false] at hy
  rcases hy with rfl | rfl | rfl
  · rw [hfa, hfs]
    decide
  · rw [hbh] at hyh
    cases hyh
  · rw [hch] at hyh
    cases hyh

open Spaces in
/-- A block, a clone of the kernel's directory, a switch to the clone, and the block freed. -/
theorem kernel_mappings_agree_clone : ∃ k' steps p d t,
    (∀ loops, steps ≤ loops → initialisePaging (Kernel.alloc 1) loops imageAt1M = some k') ∧
      Reaches Step (start k') [.alloc 0x2000 false, .clone k'.kernel_directory, .switch d, .free p] t ∧ d ∈ t.dirs ∧
      t.Agree ∧ t.Spared imageAt1M.placement_address := by
  obtain ⟨k, k₁, n, f, b, t, steps, -, hab, -, hrun⟩ := initialisePaging_spec 0 (k := imageAt1M) ⟨rfl, rfl⟩ (by decide)
    (M := 264) (by decide) (by decide)
  obtain ⟨k', steps', hrun', h⟩ := kernel_mappings_agree 0 (k := imageAt1M) ⟨rfl, rfl⟩ (by decide)
    (bootFits_iff.2 (by decide)) bitmapAlone_imageAt1M
  obtain rfl : k' = k := Option.some.inj
    ((hrun' (steps + steps') (by omega)).symm.trans (hrun (steps + steps') (by omega)))
  obtain ⟨i, k₂, c, r, hfind, ha, hi, hch, htail⟩ := hab.two_pages
  obtain ⟨hs, k₃, f', b', t', ha', ht⟩ := alloc_tail hi htail
  -- the block
  obtain ⟨s, he⟩ : ∃ s : Spaces, s = ⟨(start k').heap.allocated i 0x2000 false, (start k').dirs⟩ := ⟨_, rfl⟩
  have hone : ∀ {v}, (start k').Step (.alloc 0x2000 false) v ↔ v = s := by
    rw [he]
    exact step_alloc (by decide) hfind
  have hgot : (s.heap.live.head?, s.kernel) = (some (c.addr + sizeofHeader, 0x2000), k₂) := by
    obtain ⟨hp, hk⟩ := alloc_found hfind (ha 0)
    rw [he, hp, hk]
    rfl
  obtain ⟨hlive, rfl⟩ := Prod.mk.inj hgot
  have hin : (c.addr + sizeofHeader, 0x2000) ∈ s.heap.live := List.mem_of_head? hlive
  have hs₁ : (start k').Sound (.alloc 0x2000 false) := .plain hfind
  obtain ⟨segs, hsh⟩ := hab.sharing.step hs₁ (hone.2 rfl)
  -- the clone
  have hsrc : s.IsDir k'.kernel_directory := .inl (hab.sharing.kernel_kept hs₁ (hone.2 rfl)).1.symm
  obtain ⟨heq, segs', hc⟩ := hsh.clone_eq hsrc hs (ha' 0)
  have hclone : s.Step (.clone k'.kernel_directory) _ := ⟨hsrc, 1, _, _, _, heq, rfl⟩
  have hfree : ∀ v d, s.Step (.clone k'.kernel_directory) v →
      FreeSound (v.kernel.switchPageDirectory d) (c.addr + sizeofHeader) := fun v d hv => by
    obtain ⟨dir, k₁, segs', hc⟩ := hsh.clone_shared hs hv
    have hinv := hc.inv_tail ha' ht
    exact freeSound_between (p := [f]) (c := b) (b := c) (r := f') (d := b') (q := [t']) hinv hab.block.1
      (Nat.lt_of_le_of_lt hinv.toMarks.size_le (show 6 < heapIndexSize.toNat by decide))
  generalize (⟨⟨k₃.sharedClone _ _, _⟩, _⟩ : Spaces) = v at hc hclone
  have hdir : (b'.addr + sizeofHeader) ∈ v.dirs := by
    rw [hc.dirs]
    exact List.mem_cons_self ..
  -- the switch, and the block freed
  obtain ⟨w, hw⟩ : ∃ w : Spaces, w = ⟨⟨v.kernel.switchPageDirectory (b'.addr + sizeofHeader), v.heap.live⟩, v.dirs⟩ :=
    ⟨_, rfl⟩
  have hswitch : v.Step (.switch (b'.addr + sizeofHeader)) w := ⟨.inr hdir, hw⟩
  obtain ⟨segs₁, pre, left, right, post, hi₁, -, har, hpost, hroom⟩ :=
    (hfree v (b'.addr + sizeofHeader) hclone).around (hc.inv_tail ha' ht) (by simp)
  obtain ⟨k₄, M, hk₄, -⟩ := free_inside hi₁ har hch hpost hroom
  have hlive' : (c.addr + sizeofHeader, 0x2000) ∈ w.heap.live := by
    rw [hw, hc.live]
    exact List.mem_cons_of_mem _ hin
  have hfreed : w.Step (.free (c.addr + sizeofHeader)) ⟨⟨k₄, _⟩, _⟩ :=
    ⟨(HeapState.step_free hlive' (by rw [hw]; exact hk₄)).2 rfl, rfl⟩
  have hg : Guarded Step Sound (start k') [.alloc 0x2000 false, .clone k'.kernel_directory,
      .switch (b'.addr + sizeofHeader), .free (c.addr + sizeofHeader)] :=
    .cons hs₁ (fun _ => hone.1) ⟨hs, fun v hv => ⟨trivial, fun w hw => ⟨hw.2 ▸ hfree v _ hv, fun _ _ => trivial⟩⟩⟩
  have hr : Reaches Step _ _ _ := .cons (hone.2 rfl) (.cons hclone (.cons hswitch (reaches_one hfreed)))
  obtain ⟨hagree, hspared⟩ := h _ (guarded_iff.1 hg) _ [] _ (List.append_nil _).symm hr
  refine ⟨k', steps, _, _, _, hrun, hr, List.mem_filter.2 ⟨by rw [hw]; exact hdir, ?_⟩, hagree, hspared⟩
  have hne := (List.pairwise_cons.1 hc.tiled.distinct).1 _ hin
  simpa using hne

/-! ## Growth past the page table of the heap -/

namespace Kernel

theorem expandLoop_append {f : Allocator} {e c : U32} (he : c.toNat ≤ e.toNat) (n : Nat) : ∀ (p : Nat) {k : Kernel}
    {i : U32}, i.toNat + 0x1000 * p = c.toNat → expandLoop f e (p + n) k i =
      (expandLoop f c (p + 1) k i).bind fun k' => expandLoop f e n k' c
  | 0, k, i, hi => by
    obtain rfl : i = c := BitVec.eq_of_toNat_eq (by omega)
    rw [expandLoop, if_neg (by rw [BitVec.lt_def]; omega), Option.bind_some, Nat.zero_add]
  | p + 1, k, i, hi => by
    have hi' : (i + 0x1000).toNat = i.toNat + 0x1000 := toNat_add_page (by have := c.isLt; omega)
    rw [show p + 1 + n = (p + n) + 1 by omega, expandLoop, expandLoop, if_pos (by rw [BitVec.lt_def]; omega),
      if_pos (by rw [BitVec.lt_def]; omega), Option.bind_assoc]
    refine congrArg (Option.bind _) (funext fun ⟨q, k₁⟩ => ?_)
    rw [Option.bind_assoc]
    exact congrArg (Option.bind _) (funext fun k₂ => expandLoop_append he n p (by omega))

theorem tablesPresent_of_lookup {k : Kernel} {e : U32} (he : e.toNat < 0xFFFFF000) : ∀ (n : Nat) {i : U32},
    (∀ j : U32, i.toNat ≤ j.toNat → j.toNat < e.toNat →
      (k.lookupPage (k.heap.startAddress + j) k.kernel_directory).isSome = true) → k.tablesPresent e n i = true
  | 0, _, _ => rfl
  | n + 1, i, h => by
    unfold tablesPresent
    by_cases hi : i < e
    · rw [BitVec.lt_def] at hi
      have hi' : (i + 0x1000).toNat = i.toNat + 0x1000 := toNat_add_page (by omega)
      rw [if_pos (by rw [BitVec.lt_def]; exact hi), h i (Nat.le_refl _) hi, Bool.true_and]
      exact tablesPresent_of_lookup he n fun j hj hlt => h j (by omega) hlt
    · rw [if_neg hi]

variable {k k₁ k₂ : Kernel} {dir : U32} {n : Nat} {f b t : Seg}

theorem AfterBoot.fill_table (h : AfterBoot k k₁ dir n f b t) (hn : n ≤ 3071) (F : Allocator) :
    ∃ k₂, expandLoop F 0xF0401000 769 k 0xF0101000 = some k₂ ∧ SameButPages k k₂ ∧ 0 < k₂.frames.free := by
  have htab : k.tablesPresent 0xF0401000 769 0xF0101000 = true := by
    refine tablesPresent_of_lookup (by decide) _ fun j hj hlt => ?_
    have h1 : (0xF0101000 : U32).toNat = 0xF0101000 := rfl
    have h2 : (0xF0401000 : U32).toNat = 0xF0401000 := rfl
    have h3 : (0xCFFFF000 : U32).toNat = 0xCFFFF000 := rfl
    have hx : (k.heap.startAddress + j).toNat = j.toNat - 0x30001000 := by
      rw [h.bounds.1, BitVec.toNat_add, h3]
      omega
    have hidx : tableIndex (k.heap.startAddress + j) = 768 := by
      rw [(tableIndex_of rfl).1, hx]
      omega
    have ht := h.booting.tables 768 (by decide)
    rw [if_pos rfl] at ht
    unfold lookupPage
    rw [hidx, h.kernelDir, h.directory, ht, if_pos h.fits.heapTable_ne_zero]
    rfl
  have hfree := h.booting.free (by have := h.few; omega)
  rw [← h.frames] at hfree
  obtain ⟨k₂, hk₂, hf⟩ := expandLoop_of_free (f := F) 769 (p := 768) htab (by decide) (by decide) (by decide) (by omega)
  exact ⟨k₂, hk₂, expandLoop_same htab hk₂, by omega⟩

/-- What `get_page` leaves when it makes `table` in the heap: `tmp` is never written. -/
def heapTable (k : Kernel) (dir : U32) (i : Nat) (table : U32) : Kernel :=
  { k.setSlot dir i table (k.uninit ||| 0x7) with
    mem := fill k.mem table 0 0x1000
    pageTables := fun t j => if t = table then Page.zero else k.pageTables t j }

theorem heapTable_directory (k : Kernel) (dir : U32) (i : Nat) (table : U32) :
    (heapTable k dir i table).directories dir = { k.directories dir with
      tables := fun j => if j = i then table else (k.directories dir).tables j
      tablesPhysical := fun j => if j = i then k.uninit ||| 0x7 else (k.directories dir).tablesPhysical j } :=
  setDirectory_self ..

theorem getPage_heap {f : Allocator} {k' : Kernel} {a T : U32} (hk : k.kheap ≠ 0) (hl : k.lookupPage a dir = none)
    (ha : f k sizeofPageTable true = some (T, k')) :
    getPage f k a dir = some (⟨T, pageIndex a⟩, k'.heapTable dir (tableIndex a) T) := by
  have hm : kmalloc f k sizeofPageTable true = some (T, none, k') := by
    unfold kmalloc
    rw [if_pos hk, ha]
    rfl
  unfold getPage
  rw [hl, hm]
  rfl

theorem heap_indices : tableIndex 0xC0400000 = 769 ∧ pageIndex 0xC0400000 = 0 := tableIndex_of (m := 0xC0400) rfl

/-- Behind the 4 MB of the heap's table `kernel_directory` has no table. -/
theorem AfterBoot.no_table (h : AfterBoot k k₁ dir n f b t) : (k₁.directories dir).tables 769 = 0 := by
  have ht := h.booting.tables 769 (by decide)
  have hfew := h.few
  rwa [if_neg (by decide), if_neg (by omega)] at ht

theorem AfterBoot.tailFits (h : AfterBoot k k₁ dir n f b t) (hs : SameButPages k k₂) :
    TailFits k₂ [f, b] t sizeofPageTable := by
  have hi : Inv k₂.heap k₂.mem 0xC0080000 ([f, b] ++ [t]) := by
    rw [hs]
    exact h.inv
  obtain ⟨hfh, hfa, hfs⟩ := h.front
  obtain ⟨hth, hta, hts⟩ := h.rest
  have hgap : frontGap t.addr = 0xFE8 := by rw [hta]; decide
  have hsz := hi.toMarks.length_holes
  have hholes : (holes ([f, b] ++ [t])).length = 2 := by
    simp [holes, hfh, h.block.1, hth]
  rw [hholes] at hsz
  refine ⟨hth, ?_, fun y hy hyh => ?_, ?_, ?_, ?_⟩
  · rw [hta]
    decide
  · rcases List.mem_cons.1 hy with rfl | hy
    · rw [hfa, hfs]
      decide
    · rw [List.mem_singleton.1 hy, h.block.1] at hyh
      cases hyh
  · rw [hgap]
    decide
  · rw [hgap, hts]
    decide
  · rw [← hsz]
    decide

/-- **The page behind has none**: `get_page` makes one for `kernel_directory` alone. -/
theorem AfterBoot.new_table (h : AfterBoot k k₁ dir n f b t) (hs : SameButPages k k₂) (fuel : Nat) :
    ∃ T k₃ segs y, getPage (alloc (fuel + 1)) k₂ 0xC0400000 dir = some (⟨T, 0⟩, k₃) ∧ T ≠ 0 ∧
      (k₃.directories dir).tables 769 = T ∧ k₃.directories bootClone = k.directories bootClone ∧
      k₃.page ⟨T, 0⟩ = Page.zero ∧ k₃.frames = k₂.frames ∧ k₃.kernel_directory = dir ∧
      k₃.heap.startAddress = k.heap.startAddress ∧ k₃.heap.endAddress = k.heap.endAddress ∧
      Inv k₃.heap k₃.mem 0xC0080000 (segs ++ [y]) ∧ y.hole = true := by
  have hi : Inv k₂.heap k₂.mem 0xC0080000 ([f, b] ++ [t]) := by
    rw [hs]
    exact h.inv
  have hta := h.rest.2.1
  have hgap : frontGap t.addr = 0xFE8 := by rw [hta]; decide
  obtain ⟨-, k₃, f', b', t', ha, ht⟩ := alloc_tail hi (h.tailFits hs)
  have hk₂ : k₂.kheap ≠ 0 := by
    rw [hs]
    exact h.kheap
  have hlook : k₂.lookupPage 0xC0400000 dir = none := by
    unfold lookupPage
    rw [heap_indices.1, hs]
    simp only [h.directory, h.no_table]
    rfl
  have hT : (b'.addr + sizeofHeader).toNat = 0xC0084000 := by
    have h1 := ht.block.2.1
    have h3 : (0xC008300C : U32).toNat = 0xC008300C := rfl
    have h4 : (0xFE8 : U32).toNat = 0xFE8 := rfl
    have h5 : sizeofHeader.toNat = 12 := rfl
    rw [hgap, hta, h3, h4] at h1
    rw [BitVec.toNat_add, h1, h5]
  generalize hp : b'.addr + sizeofHeader = T at *
  have hget := getPage_heap hk₂ hlook (ha fuel)
  rw [heap_indices.1, heap_indices.2] at hget
  have hT0 : T ≠ 0 := fun he => by
    have h1 : (0 : U32).toNat = 0 := rfl
    rw [he, h1] at hT
    cases hT
  have hcd : bootClone ≠ dir := fun he => by
    have h1 := h.fits.high
    have h3 : bootClone.toNat = 0xC0081000 := rfl
    rw [← he] at h1
    omega
  have hb : b'.addr.toNat + 12 = T.toNat := by
    have h1 := (ht.inv.within b' (by simp)).2
    have h3 := b'.room
    have h5 : sizeofHeader.toNat = 12 := rfl
    rw [← hp, BitVec.toNat_add, h5]
    omega
  have h2 : sizeofPageTable.toNat = 4096 := rfl
  have hbs := ht.block.2.2
  refine ⟨T, _, [f, b] ++ [f', b'], t', hget, hT0, ?_, ?_, ?_, ?_, ?_, ?_, ?_, ?_, ht.rest.1⟩
  · exact (congrArg (PageDirectory.tables · 769) (heapTable_directory k₃ dir 769 T)).trans (by simp only [if_true])
  · refine (setDirectory_other k₃ _ hcd).trans ?_
    rw [ht.same, hs]
  · exact if_pos rfl
  · show k₃.frames = _
    rw [ht.same]
  · show k₃.kernel_directory = _
    rw [ht.same, hs]
    exact h.kernelDir
  · show k₃.heap.startAddress = _
    rw [ht.same, hs]
  · show k₃.heap.endAddress = _
    rw [ht.same, hs]
  · have hk := keeps_fill k₃.mem T 0 0x1000 (by omega)
    have hi' : Inv k₃.heap (fill k₃.mem T 0 0x1000) 0xC0080000 ([f, b] ++ [f', b', t']) :=
      HeapState.inv_inside ht.inv (g := b') (by simp) hk (by omega) (by omega)
    rw [List.append_assoc]
    exact hi'

/-- **`Expand` to 0xC0400014** takes the pages that have a table, and then the one that gets a table. -/
theorem AfterBoot.expand_past {k₃ k₄ : Kernel} {q : PagePtr} {F : Allocator} (h : AfterBoot k k₁ dir n f b t)
    (hloop : expandLoop F 0xF0401000 769 k 0xF0101000 = some k₂) (hs : SameButPages k k₂)
    (hget : getPage F k₂ 0xC0400000 dir = some (q, k₃))
    (hk₄ : k₃.allocFrame q k₃.heap.supervisor (!k₃.heap.readonly) = some k₄)
    (hstart : k₄.heap.startAddress = k.heap.startAddress) :
    k.expand F (k.heap.endAddress - k.heap.startAddress + 0x300014) =
      some { k₄ with heap := { k₄.heap with endAddress := 0xC0400014 } } := by
  have hstart₂ : k₂.heap.startAddress = 0xCFFFF000 := by
    rw [hs]
    exact h.bounds.1
  have hkd₂ : k₂.kernel_directory = dir := by
    rw [hs]
    exact h.kernelDir
  have hsize : k.heap.endAddress - k.heap.startAddress = 0xF0101000 := by
    rw [h.bounds.1, h.bounds.2]
    rfl
  -- the last page of the loop
  have hrest : ∀ m, expandLoop F 0xF0401014 (m + 1 + 1) k₂ 0xF0401000 = some k₄ := fun m => by
    rw [expandLoop, if_pos (by decide), hstart₂, hkd₂, show (0xCFFFF000 : U32) + 0xF0401000 = 0xC0400000 from rfl, hget,
      Option.bind_some]
    simp only [hk₄, Option.bind_some]
    rw [expandLoop, if_neg (by decide)]
  have hround : expandSize (0xF0101000 + 0x300014) = 0xF0401014 := by decide
  unfold expand
  simp only [hsize, hround]
  rw [show 0x100000 + 1 = 768 + (1047807 + 1 + 1) from rfl,
    expandLoop_append (c := 0xF0401000) (by decide) _ 768 (by decide), hloop, Option.bind_some, hrest, Option.map_some,
    hstart, h.bounds.1]
  rfl

/-- **The heap grows past its page table**, and only `kernel_directory` translates what is behind. -/
theorem AfterBoot.grow_past (h : AfterBoot k k₁ dir n f b t) (hn : n ≤ 3071) (fuel : Nat) :
    ∃ k₂ segs z, grow (alloc (fuel + 1)) k 0x300014 = some k₂ ∧ Inv k₂.heap k₂.mem 0xC0080000 (segs ++ [z]) ∧
      z.hole = true ∧ 0x300014 ≤ z.size.toNat ∧ k₂.heap.endAddress = 0xC0400014 ∧ k₂.kernel_directory = dir ∧
      k₂.lookupPage 0xC0400000 bootClone = none ∧
      ∃ q, k₂.lookupPage 0xC0400000 dir = some q ∧ (k₂.page q).present = true := by
  obtain ⟨k₂, hloop, hs, hfree⟩ := h.fill_table hn (alloc (fuel + 1))
  obtain ⟨T, k₃, segs, y, hget, hT, htab, hclone, hpage, hfr, hkd, hstart, hend, hi, hy⟩ := h.new_table hs fuel
  rw [← hfr] at hfree
  obtain ⟨k₄, hk₄, -⟩ := allocFrame_of_free ⟨T, 0⟩ k₃.heap.supervisor (!k₃.heap.readonly) hfree
  have hs₄ := allocFrame_same hk₄
  have hpres : (k₄.page ⟨T, 0⟩).present = true := by
    rcases allocFrame_cases hk₄ with ⟨hne, -⟩ | ⟨-, -, idx, -, -, hp⟩
    · rw [hpage] at hne
      exact absurd rfl hne
    · rw [hp]
  have hmem₄ : k₄.mem = k₃.mem := by rw [hs₄]
  have hheap₄ : k₄.heap = k₃.heap := by rw [hs₄]
  have hd₄ : k₄.directories = k₃.directories := by rw [hs₄]
  have hgrow := grow_eq (h.expand_past hloop hs hget hk₄ (by rw [hheap₄, hstart]))
  simp only at hgrow
  have hcut := hi.cut
  rw [hend] at hcut
  have hm : Marks { k₄.heap with endAddress := 0xC0400014 } k₄.mem 0xC0080000 (segs ++ [y]) := by
    rw [hmem₄]
    exact hi.toMarks.of_index (by rw [hheap₄])
  have hnew : k.heap.endAddress.toNat + ((0xC0400014 : U32) - k₄.heap.startAddress -
      (k.heap.endAddress - k.heap.startAddress)).toNat = (0xC0400014 : U32).toNat := by
    rw [hheap₄, hstart, h.bounds.1, h.bounds.2]
    rfl
  obtain ⟨z, hz, hza, hzh, -⟩ := adjust_extend hm hcut hy hnew
  have hend₂ := (Heap.adjust_bounds { k₄.heap with endAddress := 0xC0400014 } k₄.mem k.heap.endAddress
    (k.heap.endAddress - k.heap.startAddress) ((0xC0400014 : U32) - k₄.heap.startAddress)).2
  refine ⟨_, segs, z, hgrow, hz, hzh, ?_, hend₂, ?_, ?_, ⟨T, 0⟩, ?_, hpres⟩
  · -- the last hole got all of it
    have hzcut := hz.cut
    rw [hend₂] at hzcut
    obtain ⟨c, h1, h2, -, h3⟩ := cuts_append.1 hzcut
    obtain ⟨c', h1', h2', -, h3'⟩ := cuts_append.1 hcut
    simp only [Seg.start_eq, Seg.len_eq, cuts_nil] at h2 h3 h2' h3'
    rw [hza] at h2
    rw [h.bounds.2] at h3'
    have h4 : (0xC0100000 : U32).toNat = 0xC0100000 := rfl
    have h5 : (0xC0400014 : U32).toNat = 0xC0400014 := rfl
    omega
  · show k₄.kernel_directory = dir
    rw [hs₄]
    exact hkd
  · unfold lookupPage
    simp only
    rw [heap_indices.1, hd₄, hclone, h.clone 769 (by decide), h.no_table]
    rfl
  · unfold lookupPage
    simp only
    rw [heap_indices.1, heap_indices.2, hd₄, htab, if_pos hT]

end Kernel

open Spaces in
/-- A request that makes the heap grow past the 4 MB of its table: the clone that `initialise_paging` made has no table
there. -/
theorem clone_misses_table : ∃ k' steps,
    (∀ loops, steps ≤ loops → initialisePaging (Kernel.alloc 1) loops imageAt1M = some k') ∧
      ∃ t, Reaches Step (start k') [.alloc 0x300000 false] t ∧ ¬ t.Agree := by
  obtain ⟨k, k₁, n, f, b, t, steps, hn, h, -, hrun⟩ := initialisePaging_spec 0 (k := imageAt1M) ⟨rfl, rfl⟩ (by decide)
    (M := 264) (by decide) (by decide)
  obtain ⟨k₂, segs, z, hgrow, hi, hz, hsz, hend, hkd, hnone, q, hq, hpres⟩ := h.grow_past (by omega) 0
  have hsmall : ∀ s ∈ [f, b, t], s.hole = true → s.size.toNat < 0x300014 := fun s hs _ => by
    have h1 := h.inv.cut.bounds s hs
    have h2 : (0xC0100000 : U32).toNat = 0xC0100000 := rfl
    simp only [Seg.start_eq, Seg.len_eq, h.bounds.2, h2] at h1
    omega
  have hnofit : k.heap.findSmallestHole k.mem (0x300000 + sizeofHeader + sizeofFooter) false = none :=
    Heap.findSmallestHole_none.2 fun j hj => by
      obtain ⟨s, hs, hsh, hsa⟩ := h.inv.toMarks.hole_at hj
      have h1 := hsmall s hs hsh
      have h2 : (0x300000 + sizeofHeader + sizeofFooter : U32).toNat = 0x300014 := rfl
      rw [← hsa, ← Bool.not_eq_true, fits_plain, BitVec.le_def, (h.inv.header s hs).2.2, h2]
      omega
  obtain ⟨i, hfind⟩ := Heap.findSmallestHole_exists hi.toMarks (x := z) (by simp) hz
    (show (0x300000 + sizeofHeader + sizeofFooter : U32).toNat ≤ z.size.toNat from hsz)
  generalize hr : k₂.heap.allocAt k₂.mem i 0x300000 false = r at *
  have hre : r.2.1.endAddress = 0xC0400014 := by rw [← hr, (allocAt_bounds ..).2, hend]
  have halloc : Kernel.alloc 2 k 0x300000 false = some (r.1, { k₂ with
      heap := r.2.1
      mem := r.2.2 }) := by
    rw [Kernel.alloc]
    simp only [hnofit]
    rw [show (0x300000 : U32) + sizeofHeader + sizeofFooter = 0x300014 from rfl, hgrow, Option.bind_some,
      alloc_of_found 0 hfind, hr]
  refine ⟨k, steps, hrun, _, ⟨⟨⟨{ k₂ with
      heap := r.2.1
      mem := r.2.2 }, (r.1, 0x300000) :: (start k).heap.live⟩, (start k).dirs⟩,
    ⟨⟨by decide, 2, _, _, halloc, rfl⟩, rfl⟩, rfl⟩, fun ha => ?_⟩
  have h1 : translate k₂ k.current_directory 0xC0400000 = translate k₂ k₂.kernel_directory 0xC0400000 :=
    ha k.current_directory (List.mem_singleton.2 rfl) 0xC0400000 (by decide) (by
      show (0xC0400000 : U32).toNat < r.2.1.endAddress.toNat
      rw [hre]
      decide)
  unfold Kernel.translate at h1
  rw [h.current, hkd, hnone, hq] at h1
  simp [hpres] at h1

end Loris
