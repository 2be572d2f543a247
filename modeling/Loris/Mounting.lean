import Loris.BootMemory
import Loris.Termination
import Loris.FileSystem
/-!
# Mounting — `initialise_initrd` on the heap of the running kernel

A heap with a large hole (`Roomy`) serves requests until the hole is used up, so that the three calls of `kmalloc` in
`initialise_initrd` return after boot.  Their blocks are the private storage that the file system rests on, and the
ramdisk's memory is the kernel's.
-/
namespace Loris

open ByteMem Cut Kernel

/-- A hole of `n` bytes is listed. -/
def Roomy (k : Kernel) (n : Nat) : Prop :=
  ∃ i, i < k.heap.index.size.toNat ∧ n ≤ (headerSize k.mem (k.heap.index.getItemAtIndex k.mem i)).toNat

theorem Roomy.mono {k : Kernel} {n n' : Nat} (h : Roomy k n) (hn : n' ≤ n) : Roomy k n' := by
  obtain ⟨i, hi, hle⟩ := h
  exact ⟨i, hi, hn.trans hle⟩

section Room

variable {k k' : Kernel} {base n : Nat} {segs : List Seg} {x : Seg} {size p : U32} {al : Bool}

theorem roomy_of_hole (hi : Inv k.heap k.mem base segs) (hx : x ∈ segs) (hh : x.hole = true) (hn : n ≤ x.size.toNat) :
    Roomy k n := by
  obtain ⟨i, hlt, hget⟩ := hi.toMarks.index_of hx hh
  refine ⟨i, hlt, ?_⟩
  rw [hget, (hi.header x hx).2.2]
  exact hn

theorem Roomy.hole (h : Roomy k n) (hi : Inv k.heap k.mem base segs) :
    ∃ x ∈ segs, x.hole = true ∧ n ≤ x.size.toNat := by
  obtain ⟨i, hlt, hle⟩ := h
  obtain ⟨x, hx, hh, hxa⟩ := hi.toMarks.hole_at hlt
  rw [← hxa, (hi.header x hx).2.2] at hle
  exact ⟨x, hx, hh, hle⟩

theorem toNat_newSize (hsize : size.toNat + 20 < 2 ^ 32) :
    (size + sizeofHeader + sizeofFooter).toNat = size.toNat + 20 := by
  unfold sizeofHeader sizeofFooter
  bv_omega

/-- **A large hole is found**, for either alignment. -/
theorem Roomy.found (h : Roomy k n) (hsize : size.toNat + 20 < 2 ^ 32) (hn : size.toNat + 0x1014 ≤ n) (al : Bool) :
    ∃ i, k.heap.findSmallestHole k.mem (size + sizeofHeader + sizeofFooter) al = some i := by
  rw [← Option.isSome_iff_exists, ← Option.ne_none_iff_isSome, Ne, Heap.findSmallestHole_none]
  intro hnone
  obtain ⟨i, hlt, hle⟩ := h
  have hno := hnone i hlt
  rw [fits_eq] at hno
  have := lt_of_not_fitsAt hno
  rw [toNat_newSize hsize] at this
  omega

theorem mem_beside {pre mid post : List Seg} {y : Seg} (hy : y ∈ pre ++ post) : y ∈ pre ++ mid ++ post := by
  simp only [List.mem_append] at hy ⊢
  exact hy.imp_left .inl

theorem mem_of_ne {pre post : List Seg} {y : Seg} (hy : y ∈ pre ++ x :: post) (hne : y ≠ x) : y ∈ pre ++ post := by
  simp only [List.mem_append, List.mem_cons] at hy ⊢
  exact hy.imp_right fun hy => hy.resolve_left hne

/-- **What a request leaves of a large hole.** -/
theorem Roomy.alloc (h : Roomy k n) (hi : Inv k.heap k.mem base segs) (hs : k.AllocSound size al)
    (hsize : size.toNat + 20 < 2 ^ 32) (hn : size.toNat + 0x1014 ≤ n) {fuel : Nat}
    (ha : Kernel.alloc fuel k size al = some (p, k')) : Roomy k' (n - (size.toNat + 0x1014)) := by
  obtain ⟨i, hfound⟩ := h.found hsize hn al
  obtain ⟨y, hy, hyh, hle⟩ := h.hole hi
  have hadd := toNat_newSize hsize
  cases hs with
  | @plain _ _ i hfind =>
    obtain ⟨rfl, rfl⟩ := alloc_found hfind ha
    obtain ⟨pre, x, post, rfl, hxh, hlt, hxa, hxle⟩ := exists_found hi hsize hfind
    obtain ⟨b, rest, hb, hba, hbs, hcut, hrest, -⟩ := @allocAt_front _ _ _ _ _ _ _ size hi hxh hlt hxa hxle
    by_cases hyx : y = x
    · subst hyx
      rw [if_neg (by omega)] at hbs
      cases hrest with
      | nothing hsz => rw [hsz] at hbs; omega
      | hole r _ hrh _ hra _ =>
        obtain ⟨hb1, -, hr1, -, hr2⟩ := hcut
        simp only [Seg.start_eq, Seg.len_eq, cuts_nil] at hb1 hr1 hr2
        exact roomy_of_hole hb.inv (x := r) (by simp) hrh (by omega)
    · exact roomy_of_hole hb.inv (mem_beside (mem_of_ne hy hyx)) hyh (by omega)
  | @aligned _ _ i x₀ hfind haddr hxs hfit₀ hroom₀ =>
    obtain ⟨rfl, rfl⟩ := alloc_found hfind ha
    obtain ⟨pre, x, post, rfl, hxh, -, hxa, hfit, hroom⟩ := exists_found_aligned hi hfind haddr hxs hfit₀ hroom₀
    clear haddr hxs hfit₀ hroom₀
    obtain ⟨b, segs', hb, -, hbs, f, rest, rfl, hfa, hfs, hfh, -, -, hrest⟩ := allocAt_aligned hi hxh hxa hfit hroom
    by_cases hyx : y = x
    · subst hyx
      have hgap := toNat_frontGap y.addr
      obtain ⟨hg20, hfit⟩ := hfit
      have hbsz : b.size.toNat = size.toNat + 20 := by rw [hbs, hadd]
      obtain ⟨j, hj⟩ := hb.heap
      have hcut := hb.inv.cut
      rw [hj] at hcut
      obtain ⟨mid, hmid, hm⟩ := hi.cut.middle hcut fun z hz => mem_beside hz
      obtain rfl : f :: b :: rest = mid := List.append_cancel_left (List.append_cancel_right hmid)
      have hS : (y.size - frontGap y.addr).toNat = y.size.toNat - (frontGap y.addr).toNat := by
        rw [BitVec.toNat_sub]
        omega
      cases hrest with
      | nothing hsz => rw [← hsz] at hS; omega
      | hole t _ hth _ hta _ =>
        obtain ⟨hf1, -, hb1, -, ht1, -, ht2⟩ := hm
        simp only [Seg.start_eq, Seg.len_eq, cuts_nil] at hf1 hb1 ht1 ht2
        have hfn : f.size.toNat = (frontGap y.addr).toNat := by rw [hfs]
        exact roomy_of_hole hb.inv (x := t) (by simp) hth (by omega)
    · exact roomy_of_hole hb.inv (mem_beside (mem_of_ne hy hyx)) hyh (by omega)
  | expand hfind => rw [hfound] at hfind; cases hfind

theorem Roomy.congr (h : Roomy k n) (hi : Inv k.heap k.mem base segs) (hi' : Inv k'.heap k'.mem base segs) :
    Roomy k' n := by
  obtain ⟨x, hx, hh, hle⟩ := h.hole hi
  exact roomy_of_hole hi' hx hh hle

end Room

/-! ## Calls of `kmalloc` -/

/-- The same kernel, but for the memory and what of the heap is not a bound. -/
structure SamePages (k k' : Kernel) : Prop where
  same : k' = { k with
    heap := k'.heap
    mem := k'.mem }
  bounds : k'.heap.startAddress = k.heap.startAddress ∧ k'.heap.endAddress = k.heap.endAddress

theorem SamePages.trans {k₁ k₂ k₃ : Kernel} (h₁ : SamePages k₁ k₂) (h₂ : SamePages k₂ k₃) : SamePages k₁ k₃ :=
  ⟨by rw [h₂.same, h₁.same], h₂.bounds.1.trans h₁.bounds.1, h₂.bounds.2.trans h₁.bounds.2⟩

namespace Forking

def withMem (s : Forking) (m : Mem) : Forking := ⟨⟨s.spaces.heap.withMem m, s.spaces.dirs⟩, s.tasks⟩

@[simp] theorem withMem_mem (s : Forking) (m : Mem) : (s.withMem m).kernel.mem = m := rfl

@[simp] theorem withMem_dirs (s : Forking) (m : Mem) : (s.withMem m).spaces.dirs = s.spaces.dirs := rfl

@[simp] theorem withMem_tasks (s : Forking) (m : Mem) : (s.withMem m).tasks = s.tasks := rfl

@[simp] theorem withMem_live (s : Forking) (m : Mem) : (s.withMem m).spaces.heap.live = s.spaces.heap.live := rfl

theorem samePages_withMem (s : Forking) (m : Mem) : SamePages s.kernel (s.withMem m).kernel := ⟨rfl, rfl, rfl⟩

variable {s t u : Forking} {top n : Nat} {size p : U32} {m : Mem}

/-- **Writes to loose bytes keep the invariant.** -/
theorem Inv.withMem (h : s.Inv top) (hm : ∀ x, ¬ s.spaces.heap.Loose x → m x = s.kernel.mem x) :
    (s.withMem m).Inv top := by
  obtain ⟨segs, hsh⟩ := h.sharing
  exact ⟨⟨segs, ⟨hsh.tiled.withMem hm, hsh.kheap, hsh.low, hsh.block, hsh.tables⟩⟩,
    ⟨h.mapped.behind.congr h.mapped.behind.self fun _ _ => rfl, h.mapped.tables, h.mapped.stack⟩, h.ring, h.live⟩

/-- The invariant, with the index where `initialise_paging` puts it, and a hole of `n` bytes. -/
structure Ready (s : Forking) (top n : Nat) : Prop where
  inv : s.Inv top
  elements : s.kernel.heap.index.elements = kheapStart
  room : Roomy s.kernel n

theorem Ready.mono (h : s.Ready top n) {n' : Nat} (hn : n' ≤ n) : s.Ready top n' :=
  ⟨h.inv, h.elements, h.room.mono hn⟩

theorem Ready.withMem (h : s.Ready top n) (hm : ∀ x, ¬ s.spaces.heap.Loose x → m x = s.kernel.mem x) :
    (s.withMem m).Ready top n := by
  obtain ⟨segs, hsh⟩ := h.inv.sharing
  exact ⟨h.inv.withMem hm, h.elements, h.room.congr hsh.tiled.inv (hsh.tiled.withMem hm).inv⟩

/-- `kmalloc(size)` returns `p`, and leads from `s` to `t`. -/
structure Kmalloc (s : Forking) (size p : U32) (t : Forking) : Prop where
  returns : ∀ fuel, kmalloc (Kernel.alloc (fuel + 1)) s.kernel size false = some (p, none, t.kernel)
  sound : s.Sound (.call (.alloc size false))
  step : ∀ u, s.Step (.call (.alloc size false)) u ↔ u = t
  live : t.spaces.heap.live = (p, size) :: s.spaces.heap.live
  dirs : t.spaces.dirs = s.spaces.dirs
  tasks : t.tasks = s.tasks
  leaves : s.spaces.heap.Leaves t.spaces.heap
  pages : SamePages s.kernel t.kernel

/-- **`kmalloc` returns while there is room.** -/
theorem Ready.kmalloc (h : s.Ready top n) (size : U32) (hsize : size.toNat + 20 < 2 ^ 32)
    (hn : size.toNat + 0x1014 ≤ n) : ∃ p t, s.Kmalloc size p t ∧ t.Ready top (n - (size.toNat + 0x1014)) := by
  obtain ⟨segs, hsh⟩ := h.inv.sharing
  obtain ⟨i, hfind⟩ := h.room.found hsize hn false
  have hs : s.Sound (.call (.alloc size false)) := AllocSound.plain hfind
  have hiff := fun u => step_alloc (s := s) (t := u) hsize hfind
  have ha : ∀ fuel, Kernel.alloc (fuel + 1) s.kernel size false = _ := fun fuel => alloc_of_found fuel hfind
  have hl := h.inv.leaves hs ((hiff _).2 rfl)
  refine ⟨_, _, ⟨fun fuel => ?_, hs, hiff, rfl, rfl, rfl, hl, rfl, allocAt_bounds ..⟩, h.inv.step hs ((hiff _).2 rfl),
    hl.confined.elements.trans h.elements, h.room.alloc hsh.tiled.inv hs hsize hn (ha 0)⟩
  unfold Loris.Kernel.kmalloc
  rw [if_pos (by exact hsh.kheap), ha fuel]
  rfl

theorem Ready.cloned (h : s.Ready top n) (hs : s.Sound .fork) (hn : 0x3018 ≤ n) {v : Spaces}
    (hclone : s.spaces.Step (.clone s.kernel.current_directory) v) : Roomy v.kernel (n - 0x3018) := by
  obtain ⟨segs, hsh⟩ := h.inv.sharing
  obtain ⟨dir, k₁, segs₁, hc⟩ := hsh.clone_shared hs.1 hclone
  obtain ⟨fuel, ha⟩ := hc.alloc
  exact (h.room.alloc hsh.tiled.inv hs.1 (by decide) (show 8196 + 0x1014 ≤ n from hn) ha).congr hc.tiled.inv
    (hc.sharing hsh hclone.1).tiled.inv

/-- **`fork` leaves the rest of the room**, behind a directory and a task. -/
theorem Ready.fork (h : s.Ready top n) (hs : s.Sound .fork) {M : Machine} {resume d id : U32}
    (hm : Elsewhere s.tasks.machine M) (hf : s.Fork M resume t d p id) (hn : 0x4044 ≤ n) :
    t.Ready top (n - 0x4044) := by
  obtain ⟨hl, -⟩ := h.inv.fork_leaves hs hf
  refine ⟨(h.inv.forked hs hm hf).1, hl.confined.elements.trans h.elements, ?_⟩
  obtain ⟨⟨v, hclone, -, halloc, -⟩, -⟩ := hf
  obtain ⟨segs, hsh⟩ := h.inv.sharing
  obtain ⟨dir, k₁, segs₁, hc⟩ := hsh.clone_shared hs.1 hclone
  have hshv := hc.sharing hsh hclone.1
  have hroom := h.cloned hs (by omega) hclone
  obtain ⟨⟨-, fuel', q, k', ha', he⟩, -⟩ := halloc
  have h24 : taskSize.toNat + 0x1014 = 0x102C := rfl
  have hlast := hroom.alloc hshv.tiled.inv (hs.2 v hclone) (by decide) (by rw [h24]; omega) ha'
  rw [h24] at hlast
  show Roomy t.spaces.heap.kernel _
  rw [he]
  exact hlast.mono (by omega)

end Forking

/-! ## The loop over the files -/

namespace Ramdisk

variable {m : Mem} {st : Storage} {s s' : Ramdisk} {location x : U32} {size k fuel : Nat} {files : List File} {f : File}

/-- Neither in the image nor in a file's node. -/
def Clear (st : Storage) (location : U32) (size n : Nat) (x : U32) : Prop :=
  (x.toNat < location.toNat ∨ location.toNat + size ≤ x.toNat) ∧
    (x.toNat < st.nodes.toNat ∨ st.nodes.toNat + 184 * n ≤ x.toNat)

theorem Loading.makeNode_clear (h : Loading m st location size files s k) (him : Image m location size files)
    (hp : Private st location size files.length) (hf : files[k]? = some f) (hfuel : 64 < fuel)
    (hrun : Ramdisk.makeNode fuel s location (BitVec.ofNat 32 k) = some s')
    (hx : Clear st location size files.length x) : s'.mem x = s.mem x := by
  have hk := (List.getElem?_eq_some_iff.1 hf).1
  have hfit := him.fits
  have hhead := him.headers
  obtain ⟨h1, h2, -⟩ := @toNat_fields location k (by omega)
  have hnode := toNat_nodeAt hp hk
  have hoff := h.load_eq (a := fieldOffset (headerAt location k)) (by omega) (by omega) hfit fun j hj => by omega
  obtain ⟨m₂, hm₂, -, hk1, hk2⟩ := h.copyName him hp hf
  have hne : nodeAt st k ≠ 0 := fun h0 => hp.nonnull.2.2 (BitVec.eq_of_toNat_eq (by
    have hz : (0 : U32).toNat = 0 := rfl
    rw [h0] at hnode
    omega))
  have hcopy := hm₂ fuel hfuel
  unfold offsetStored at hcopy
  simp only [Ramdisk.makeNode, strcpy, fileHeader_eq h.headers, rootNode_eq h.rootNodes, hoff, if_neg hne, hcopy,
    Option.map_some] at hrun
  rw [← Option.some.inj hrun]
  obtain ⟨hx1, hx2⟩ := hx
  exact (hk2 x (by omega)).trans (hk1 x (by omega))

/-- **The loop of `initialise_initrd` writes to the image and the nodes** alone. -/
theorem Loading.makeNodes_clear (him : Image m location size files) (hp : Private st location size files.length)
    (hfuel : 64 < fuel) (hx : Clear st location size files.length x) : ∀ {n : Nat} {s : Ramdisk} {k : Nat},
      k ≤ files.length → Loading m st location size files s k →
        Ramdisk.makeNodes fuel location n s (BitVec.ofNat 32 k) = some s' → s'.mem x = s.mem x
  | 0, _, _, _, _, hrun => by cases hrun
  | n + 1, s, k, hk, h, hrun => by
    have hfit := him.fits
    have hhead := him.headers
    have hcount : load s.mem s.initrd_header = load m location := by
      rw [h.header]
      exact h.load_eq (by omega) (by omega) hfit fun j hj => by omega
    have hki : (BitVec.ofNat 32 k).toNat = k := by
      rw [BitVec.toNat_ofNat]
      omega
    unfold Ramdisk.makeNodes at hrun
    split at hrun
    · rename_i hlt
      rw [hcount, BitVec.lt_def, him.count, hki] at hlt
      have hf := List.getElem?_eq_getElem hlt
      obtain ⟨s₁, hs₁, h₁, -⟩ := h.makeNode him hp hf
      rw [hs₁ fuel hfuel, Option.bind_some] at hrun
      rw [show (BitVec.ofNat 32 k + 1 : U32) = BitVec.ofNat 32 (k + 1) from (BitVec.ofNat_add ..).symm] at hrun
      exact (makeNodes_clear him hp hfuel hx hlt h₁ hrun).trans (h.makeNode_clear him hp hf hfuel (hs₁ fuel hfuel) hx)
    · rw [← Option.some.inj hrun]

end Ramdisk

/-! ## `initialise_initrd` with the kernel's `kmalloc` -/

open Ramdisk in
/-- `initialise_initrd`; `s` holds the globals of `initrd.cpp`, and the kernel the memory. -/
def Kernel.initialiseInitrd (alloc : Allocator) (fuel : Nat) (k : Kernel) (s : Ramdisk) (location : U32) :
    Option (Ramdisk × Kernel) :=
  (kmalloc alloc k sizeofFsNode false).bind fun (root, _, k) =>
    let k := { k with mem := strcpyLiteral k.mem root nameInitrd }
    (kmalloc alloc k sizeofFsNode false).bind fun (dev, _, k) =>
      let k := { k with mem := strcpyLiteral k.mem dev nameDev }
      (kmalloc alloc k (sizeofFsNode * load k.mem location) false).bind fun (root_nodes, _, k) =>
        let s : Ramdisk := {
          mem := k.mem
          nodes := fun p => if p = dev then directory else if p = root then directory else s.nodes p
          initrd_header := location
          file_headers := location + sizeofInitrdHeader
          initrd_root := root
          initrd_dev := dev
          root_nodes := root_nodes
          nroot_nodes := load k.mem location }
        (makeNodes fuel location fuel s 0).map fun s => (s, { k with mem := s.mem })

/-- The memory `m` below the heap, and `m'` from there on. -/
def heapPart (m' m : Mem) : Mem := fun x => if x.toNat < kheapStart.toNat then m x else m' x

theorem heapPart_eq {m m' : Mem} (h : ∀ x : U32, x.toNat < kheapStart.toNat → m' x = m x) : heapPart m' m = m' := by
  funext x
  unfold heapPart
  split
  · next hx => exact (h x hx).symm
  · rfl

/-- The storage that three calls of `kmalloc` give, which lead to the memories `m₁`, `m₂` and `m₃`. -/
def storageOf (root dev nodes : U32) (m₁ m₂ m₃ : Mem) : Storage :=
  ⟨root, dev, nodes, fun i => heapPart (if i = 0 then m₁ else if i = 1 then m₂ else m₃)⟩

/-- The size of the array of nodes. -/
def nodesSize (files : List File) : U32 := BitVec.ofNat 32 (184 * files.length)

theorem toNat_nodesSize (files : List File) (h : 184 * files.length < 2 ^ 32) :
    (nodesSize files).toNat = 184 * files.length := by
  unfold nodesSize
  rw [BitVec.toNat_ofNat, Nat.mod_eq_of_lt h]

section Refines

open Ramdisk

variable {alloc : Allocator} {k k₁ k₂ k₃ : Kernel} {root dev nodes location : U32}

theorem makeRoots_storageOf (d : Ramdisk) (e₁ : ∀ x : U32, x.toNat < kheapStart.toNat → k₁.mem x = k.mem x)
    (e₂ : ∀ x : U32, x.toNat < kheapStart.toNat → k₂.mem x = strcpyLiteral k₁.mem root nameInitrd x)
    (e₃ : ∀ x : U32, x.toNat < kheapStart.toNat → k₃.mem x = strcpyLiteral k₂.mem dev nameDev x) :
    makeRoots (storageOf root dev nodes k₁.mem k₂.mem k₃.mem) { d with mem := k.mem } location = {
      mem := k₃.mem
      nodes := fun p => if p = dev then directory else if p = root then directory else d.nodes p
      initrd_header := location
      file_headers := location + sizeofInitrdHeader
      initrd_root := root
      initrd_dev := dev
      root_nodes := nodes
      nroot_nodes := load k₃.mem location } := by
  simp [makeRoots, storageOf, heapPart_eq e₁, heapPart_eq e₂, heapPart_eq e₃]
  rfl

/-- **With the kernel's `kmalloc`** `initialise_initrd` does what it does over the storage that the calls give. -/
theorem initialiseInitrd_refines (fuel : Nat) (d : Ramdisk)
    (h₁ : kmalloc alloc k sizeofFsNode false = some (root, none, k₁))
    (h₂ : kmalloc alloc { k₁ with mem := strcpyLiteral k₁.mem root nameInitrd } sizeofFsNode false =
      some (dev, none, k₂))
    (h₃ : kmalloc alloc { k₂ with mem := strcpyLiteral k₂.mem dev nameDev }
      (sizeofFsNode * load (strcpyLiteral k₂.mem dev nameDev) location) false = some (nodes, none, k₃))
    (e₁ : ∀ x : U32, x.toNat < kheapStart.toNat → k₁.mem x = k.mem x)
    (e₂ : ∀ x : U32, x.toNat < kheapStart.toNat → k₂.mem x = strcpyLiteral k₁.mem root nameInitrd x)
    (e₃ : ∀ x : U32, x.toNat < kheapStart.toNat → k₃.mem x = strcpyLiteral k₂.mem dev nameDev x) :
    Kernel.initialiseInitrd alloc fuel k d location =
      (Ramdisk.initialiseInitrd fuel (storageOf root dev nodes k₁.mem k₂.mem k₃.mem) { d with mem := k.mem }
        location).map fun s => (s, { k₃ with mem := s.mem }) := by
  unfold Kernel.initialiseInitrd Ramdisk.initialiseInitrd
  rw [h₁, Option.bind_some]
  simp only
  rw [h₂, Option.bind_some]
  simp only
  rw [h₃, Option.bind_some, makeRoots_storageOf d e₁ e₂ e₃]

end Refines

namespace Forking

open Ramdisk

variable {s t u : Forking} {top n size : Nat} {p location : U32} {d : Ramdisk} {files : List File}

theorem Inv.block (h : s.Inv top) {b : U32 × U32} (hb : b ∈ s.spaces.heap.live) :
    0xC0080000 ≤ b.1.toNat ∧ b.1.toNat + b.2.toNat < 2 ^ 32 := by
  obtain ⟨segs, hsh⟩ := h.sharing
  exact hsh.inHeap hb

theorem Inv.apart (h : s.Inv top) : s.spaces.heap.live.Pairwise fun b c =>
    Apart b.1.toNat b.2.toNat c.1.toNat c.2.toNat := by
  obtain ⟨segs, hsh⟩ := h.sharing
  exact hsh.tiled.safe.disjoint

/-- A new block is apart from those before. -/
theorem Kmalloc.apart {size : U32} (hk : s.Kmalloc size p t) (ht : t.Inv top) {b : U32 × U32}
    (hb : b ∈ s.spaces.heap.live) : Apart p.toNat size.toNat b.1.toNat b.2.toNat := by
  have hap := ht.apart
  rw [hk.live] at hap
  exact (List.pairwise_cons.1 hap).1 b hb

/-- A name is written into a new node. -/
theorem Ready.name (h : s.Ready top n) (hp : (p, sizeofFsNode) ∈ s.spaces.heap.live) {l : List Byte}
    (hl : l.length < 184) : (s.withMem (strcpyLiteral s.kernel.mem p l)).Ready top n ∧
      ∀ x : U32, x.toNat < kheapStart.toNat → strcpyLiteral s.kernel.mem p l x = s.kernel.mem x := by
  obtain ⟨hlo, hhi⟩ : 0xC0080000 ≤ p.toNat ∧ p.toNat + 184 < 2 ^ 32 := h.inv.block hp
  have hstart : kheapStart.toNat = 0xC0000000 := rfl
  have hk : Keeps p.toNat (p.toNat + l.length + 1) s.kernel.mem (strcpyLiteral s.kernel.mem p l) :=
    keeps_strcpyLiteral (by omega)
  refine ⟨h.withMem fun x hx => hk x ?_, fun x hx => hk x (by omega)⟩
  by_contra hin
  exact hx (.inr ⟨_, hp, show p.toNat ≤ x.toNat by omega, show x.toNat < p.toNat + 184 by omega⟩)

/-- **What `initialise_initrd` leaves**: the ramdisk is mounted, on three blocks of the heap. -/
structure Mounts (s : Forking) (d : Ramdisk) (location : U32) (size : Nat) (files : List File) (st : Storage)
    (r : Ramdisk) (t : Forking) : Prop where
  returns : ∃ steps, ∀ fuel, steps ≤ fuel →
    Kernel.initialiseInitrd (Kernel.alloc fuel) fuel s.kernel d location = some (r, t.kernel)
  mem : r.mem = t.kernel.mem
  mounted : Mounted s.kernel.mem st location size files r
  storage : Private st location size files.length
  live : t.spaces.heap.live = (st.nodes, nodesSize files) :: (st.dev, sizeofFsNode) :: (st.root, sizeofFsNode) ::
    s.spaces.heap.live
  dirs : t.spaces.dirs = s.spaces.dirs
  tasks : t.tasks = s.tasks
  pages : SamePages s.kernel t.kernel

/-- Blocks of the heap are private storage for the nodes of an image below the heap. -/
theorem Inv.private (h : t.Inv top) {root dev nodes : U32} {live : List (U32 × U32)} (m₁ m₂ m₃ : Mem)
    (hlive : t.spaces.heap.live = (nodes, nodesSize files) :: (dev, sizeofFsNode) :: (root, sizeofFsNode) :: live)
    (hlen : 184 * files.length < 2 ^ 32) (hlow : location.toNat + size ≤ kheapStart.toNat) :
    Private (storageOf root dev nodes m₁ m₂ m₃) location size files.length := by
  have hstart : kheapStart.toNat = 0xC0000000 := rfl
  have hnodes := toNat_nodesSize files hlen
  obtain ⟨hr, hr'⟩ : 0xC0080000 ≤ root.toNat ∧ root.toNat + 184 < 2 ^ 32 :=
    h.block (b := (root, sizeofFsNode)) (by rw [hlive]; simp)
  obtain ⟨hd, hd'⟩ : 0xC0080000 ≤ dev.toNat ∧ dev.toNat + 184 < 2 ^ 32 :=
    h.block (b := (dev, sizeofFsNode)) (by rw [hlive]; simp)
  obtain ⟨hn, hn'⟩ : 0xC0080000 ≤ nodes.toNat ∧ nodes.toNat + (nodesSize files).toNat < 2 ^ 32 :=
    h.block (b := (nodes, nodesSize files)) (by rw [hlive]; simp)
  have hap := h.apart
  rw [hlive] at hap
  obtain ⟨hap₁, hap⟩ := List.pairwise_cons.1 hap
  obtain ⟨hap₂, -⟩ := List.pairwise_cons.1 hap
  have hnd : Apart nodes.toNat (nodesSize files).toNat dev.toNat 184 := hap₁ _ (List.mem_cons_self ..)
  have hnr : Apart nodes.toNat (nodesSize files).toNat root.toNat 184 :=
    hap₁ _ (List.mem_cons_of_mem _ (List.mem_cons_self ..))
  have hdr : Apart dev.toNat 184 root.toNat 184 := hap₂ _ (List.mem_cons_self ..)
  rw [hnodes] at hnd hnr hn'
  have hne : ∀ {q : U32}, 0xC0080000 ≤ q.toNat → q ≠ 0 := fun hq h0 => by
    have hz : (0 : U32).toNat = 0 := rfl
    rw [h0] at hq
    omega
  exact ⟨⟨hne hr, hne hd, hne hn⟩, ⟨hr'.le, hd'.le, hn'.le⟩, ⟨Or.symm hdr, Or.symm hnr, Or.symm hnd⟩,
    ⟨.inl (hlow.trans (by show _ ≤ root.toNat; omega)), .inl (hlow.trans (by show _ ≤ dev.toNat; omega)),
      .inl (hlow.trans (by show _ ≤ nodes.toNat; omega))⟩, fun i m x _ hx => if_pos (by omega)⟩

theorem Ready.below (h : s.Ready top n) {size : U32} (hk : s.Kmalloc size p t) {x : U32}
    (hx : x.toNat < kheapStart.toNat) : t.kernel.mem x = s.kernel.mem x :=
  hk.leaves.confined.bytes x (by rw [show s.spaces.heap.kernel.heap.index.elements = _ from h.elements]; exact hx)

/-- **`initialise_initrd` mounts the ramdisk**, on three new blocks. -/
theorem Ready.initialiseInitrd (h : s.Ready top n) (him : Image s.kernel.mem location size files)
    (hlow : location.toNat + size ≤ kheapStart.toNat) (hn : 0x31AC + 184 * files.length ≤ n) (d : Ramdisk) :
    ∃ st r t, s.Mounts d location size files st r t ∧ t.Ready top (n - (0x31AC + 184 * files.length)) := by
  have hstart : kheapStart.toNat = 0xC0000000 := rfl
  have hlen : 184 * files.length + 20 < 2 ^ 32 := by
    obtain ⟨segs, hsh⟩ := h.inv.sharing
    obtain ⟨x, -, -, hle⟩ := h.room.hole hsh.tiled.inv
    have := x.size.isLt
    omega
  have hnodes := toNat_nodesSize files (by omega)
  -- the root
  obtain ⟨root, t₁, hk₁, h₁⟩ := h.kmalloc sizeofFsNode (by decide) (show 184 + 0x1014 ≤ n by omega)
  have hroot : (root, sizeofFsNode) ∈ t₁.spaces.heap.live := by rw [hk₁.live]; exact List.mem_cons_self ..
  obtain ⟨h₁', hname₁⟩ := h₁.name hroot (l := nameInitrd) (by decide)
  have e₁ := fun x hx => h.below hk₁ (x := x) hx
  -- the directory for devices
  obtain ⟨dev, t₂, hk₂, h₂⟩ := h₁'.kmalloc sizeofFsNode (by decide)
    (show 184 + 0x1014 ≤ n - (184 + 0x1014) by omega)
  have hdev : (dev, sizeofFsNode) ∈ t₂.spaces.heap.live := by rw [hk₂.live]; exact List.mem_cons_self ..
  obtain ⟨h₂', hname₂⟩ := h₂.name hdev (l := nameDev) (by decide)
  have e₂ := fun x hx => h₁'.below hk₂ (x := x) hx
  -- the nodes
  obtain ⟨nodes, t₃, hk₃, h₃⟩ := h₂'.kmalloc (nodesSize files) (by omega) (by
    rw [hnodes]
    show _ ≤ n - (184 + 0x1014) - (184 + 0x1014)
    omega)
  have e₃ := fun x hx => h₂'.below hk₃ (x := x) hx
  simp only [withMem_mem] at e₂ e₃
  have hlive : t₃.spaces.heap.live = (nodes, nodesSize files) :: (dev, sizeofFsNode) :: (root, sizeofFsNode) ::
      s.spaces.heap.live := by
    rw [hk₃.live, withMem_live, hk₂.live, withMem_live, hk₁.live]
  have hp := h₃.inv.private t₁.kernel.mem t₂.kernel.mem t₃.kernel.mem hlive (by omega) hlow
  have hbelow : ∀ x : U32, x.toNat < kheapStart.toNat → strcpyLiteral t₂.kernel.mem dev nameDev x = s.kernel.mem x :=
    fun x hx => by rw [hname₂ x hx, e₂ x hx, hname₁ x hx, e₁ x hx]
  have hcount : sizeofFsNode * load (strcpyLiteral t₂.kernel.mem dev nameDev) location = nodesSize files := by
    have hhead := him.headers
    have hload := load_of_bytes (m := s.kernel.mem) (a := location) (by omega) fun x _ hx => hbelow x (by omega)
    refine BitVec.eq_of_toNat_eq ?_
    rw [hload, BitVec.toNat_mul, him.count, hnodes, show sizeofFsNode.toNat = 184 from rfl]
    omega
  obtain ⟨r, steps, hinit, hmounted⟩ := mounted_initialiseInitrd (s := { d with mem := s.kernel.mem }) him hp
  refine ⟨_, r, t₃.withMem r.mem, ⟨⟨steps + 1, fun fuel hfuel => ?_⟩, rfl, hmounted, hp, hlive, ?_, ?_, ?_⟩, ?_⟩
  · obtain ⟨f, rfl⟩ : ∃ f, fuel = f + 1 := ⟨fuel - 1, by omega⟩
    rw [initialiseInitrd_refines (f + 1) d (hk₁.returns f) (hk₂.returns f) (by rw [hcount]; exact hk₃.returns f)
      e₁ e₂ e₃, hinit (f + 1) (by omega)]
    rfl
  · rw [withMem_dirs, hk₃.dirs, withMem_dirs, hk₂.dirs, withMem_dirs, hk₁.dirs]
  · rw [withMem_tasks, hk₃.tasks, withMem_tasks, hk₂.tasks, withMem_tasks, hk₁.tasks]
  · have hp₁ := hk₁.pages.trans (samePages_withMem t₁ (strcpyLiteral t₁.kernel.mem root nameInitrd))
    have hp₂ := (hp₁.trans hk₂.pages).trans (samePages_withMem t₂ (strcpyLiteral t₂.kernel.mem dev nameDev))
    exact (hp₂.trans hk₃.pages).trans (samePages_withMem t₃ r.mem)
  · -- the loop writes to the image and to the nodes
    have hready := h₃.withMem (m := r.mem) fun x hx => by
      unfold HeapState.Loose at hx
      rw [show t₃.spaces.heap.kernel.heap.index.elements = _ from h₃.elements, not_or] at hx
      have hclear : Clear (storageOf root dev nodes t₁.kernel.mem t₂.kernel.mem t₃.kernel.mem) location size
          files.length x := by
        refine ⟨.inr (by omega), Nat.lt_or_ge .. |>.imp_right fun hge => Nat.le_of_not_lt fun hlt => hx.2 ?_⟩
        exact ⟨(nodes, nodesSize files), by rw [hlive]; exact List.mem_cons_self .., hge, by rw [hnodes]; exact hlt⟩
      rw [(loading_makeRoots him hp (s := { d with mem := s.kernel.mem }) rfl).makeNodes_clear him hp
        (show 64 < steps + 65 by omega) hclear (Nat.zero_le _) (hinit (steps + 65) (by omega)),
        makeRoots_storageOf d e₁ e₂ e₃]
    have h184 : sizeofFsNode.toNat = 184 := rfl
    exact ⟨hready.inv, hready.elements, hready.room.mono (by omega)⟩

end Forking

end Loris
