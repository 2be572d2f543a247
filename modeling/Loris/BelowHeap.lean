import Loris.ForkStack
import Loris.CloneWrites
/-!
# BelowHeap — what the heap's calls leave alone

The index is the lowest thing the heap writes to, and the end of the heap the highest, so that a sound call of `Alloc`,
`Free`, `clone_directory` or `fork` leaves the bytes outside as they were (`Confined`), and the bytes of every block
that is live before and after it (`Forking.Leaves`).  Page tables and directories are stores of their own here.
-/
namespace Loris

open ByteMem Cut Kernel

/-- The index is where it was, the heap ends no earlier, and the memory below the index and from the end on is as it
was. -/
structure Confined (k k' : Kernel) : Prop where
  elements : k'.heap.index.elements = k.heap.index.elements
  grows : k.heap.endAddress.toNat ≤ k'.heap.endAddress.toNat
  bytes : ∀ x : U32, x.toNat < k.heap.index.elements.toNat → k'.mem x = k.mem x
  above : ∀ x : U32, k'.heap.endAddress.toNat ≤ x.toNat → k'.mem x = k.mem x

theorem Confined.trans {k₁ k₂ k₃ : Kernel} (h₁ : Confined k₁ k₂) (h₂ : Confined k₂ k₃) : Confined k₁ k₃ :=
  ⟨h₂.elements.trans h₁.elements, h₁.grows.trans h₂.grows,
    fun x hx => (h₂.bytes x (by rw [h₁.elements]; exact hx)).trans (h₁.bytes x hx),
    fun x hx => (h₂.above x hx).trans (h₁.above x (h₂.grows.trans hx))⟩

/-! ## Where the index is -/

@[simp] theorem OrderedList.elements_insert (l : OrderedList) (lessThan : U32 → U32 → Bool) (m : Mem) (item : U32) :
    (l.insert lessThan m item).1.elements = l.elements := by
  simp only [insert]
  split <;> rfl

@[simp] theorem OrderedList.elements_remove (l : OrderedList) (m : Mem) (i : Nat) :
    (l.remove m i).1.elements = l.elements := rfl

theorem Heap.elements_carve (h : Heap) (m : Mem) (p S z n : U32) :
    (h.carve m p S z n).2.1.index.elements = h.index.elements := by
  unfold carve
  split
  · exact OrderedList.elements_insert ..
  · rfl

theorem Heap.elements_allocAt (h : Heap) (m : Mem) (i : Nat) {size : U32} (hsize : size.toNat + 20 < 2 ^ 32)
    (al : Bool) : (h.allocAt m i size al).2.1.index.elements = h.index.elements := by
  obtain ⟨h', m', p, S, z, n, he, -, -, helem, -⟩ := @allocAt_eq_carve h m i size hsize al
  rw [he, elements_carve, helem]

theorem Heap.elements_adjust (h : Heap) (m : Mem) (old ol nl : U32) :
    (h.adjust m old ol nl).1.index.elements = h.index.elements := by
  unfold adjust
  split
  · exact OrderedList.elements_insert ..
  · rfl

theorem Heap.elements_unifyRight (h : Heap) (m : Mem) (f : Freeing) :
    (h.unifyRight m f).2.1.index.elements = h.index.elements := by
  unfold unifyRight
  split <;> rfl

namespace Kernel

variable {k k' : Kernel} {base : Nat} {segs : List Seg} {size p : U32} {al : Bool}

theorem elements_contractEnd {f : Heap.Freeing} (h : contractEnd k f = some k') :
    k'.heap.index.elements = k.heap.index.elements := by
  unfold contractEnd at h
  split at h
  · obtain ⟨⟨n, k₁⟩, hc, rfl⟩ := Option.map_eq_some_iff.1 h
    unfold contract at hc
    obtain ⟨k₂, hl, hk⟩ := Option.map_eq_some_iff.1 hc
    obtain ⟨rfl, rfl⟩ := Prod.mk.inj hk
    have hh : k₂.heap.index.elements = k.heap.index.elements := by rw [contractLoop_same hl]
    simp only
    split
    · exact hh
    · split <;> exact hh
  · rw [← Option.some.inj h]

theorem elements_free (h : k.free p = some k') : k'.heap.index.elements = k.heap.index.elements := by
  unfold free at h
  split at h
  · rw [← Option.some.inj h]
  · obtain ⟨k₁, hk₁, rfl⟩ := Option.map_eq_some_iff.1 h
    have h₁ := (elements_contractEnd hk₁).trans (Heap.elements_unifyRight ..)
    simp only
    split
    · rw [OrderedList.elements_insert]
      exact h₁
    · exact h₁

/-! ## The calls -/

theorem confined_of_untouched {lo hi : Nat} (hi' : Inv k.heap k.mem base segs) (hlo : base ≤ lo)
    (hgrows : k.heap.endAddress.toNat ≤ k'.heap.endAddress.toNat) (hhi : hi ≤ k'.heap.endAddress.toNat)
    (he : k'.heap.index.elements = k.heap.index.elements) (hu : Untouched k.heap lo hi k.mem k'.mem) :
    Confined k k' := by
  have hbelow := hi'.below
  have hcut := hi'.cut.le
  exact ⟨he, hgrows, fun x hx => hu x (.inl (by omega)) (.inl hx), fun x hx => hu x (.inr (by omega)) (.inr (by omega))⟩

theorem confined_grow {alloc : Allocator} {n : U32} {k₂ : Kernel} (hi : Inv k.heap k.mem base segs)
    (htables : k.tablesPresent (expandSize (k.heap.endAddress - k.heap.startAddress + n)) (0x100000 + 1)
      (k.heap.endAddress - k.heap.startAddress) = true)
    (hlarger : k.heap.endAddress.toNat + 20 ≤ (k.heap.startAddress +
      expandSize (k.heap.endAddress - k.heap.startAddress + n)).toNat)
    (hopen : k.EndOpen) (hk : k.grow alloc n = some k₂) : Confined k k₂ := by
  obtain ⟨h, ol, nl, hx, -, hh₂, hm₂, h20, hnew⟩ := grow_adjust htables hlarger hk
  have hm : Marks h k.mem base segs := hi.toMarks.of_index hx
  have hend₂ : k₂.heap.endAddress = h.endAddress := by rw [hh₂, (Heap.adjust_bounds ..).2]
  have hgrows : k.heap.endAddress.toNat ≤ k₂.heap.endAddress.toNat := by rw [hend₂]; omega
  have helem : k₂.heap.index.elements = k.heap.index.elements := by
    rw [hh₂, Heap.elements_adjust, hx]
  have hun : ∀ {lo e : Nat}, Untouched h lo e k.mem k₂.mem → Untouched k.heap lo e k.mem k₂.mem := fun hu x hx' hy =>
    hu x hx' (by rw [hx]; exact hy)
  rcases hopen with hempty | ⟨i, hlt, hend⟩
  · have hlive := hi.toMarks.live_of_empty hempty
    obtain ⟨y, -, -, -, hu⟩ := adjust_append hm hi.cut hlive h20 hnew
    rw [← hm₂] at hu
    exact confined_of_untouched hi hi.cut.le hgrows (by rw [hend₂]) helem (hun hu)
  · obtain ⟨y, hy, hyh, hya⟩ := hi.toMarks.hole_at hlt
    rw [← hya, (hi.header y hy).2.2] at hend
    have hyw := (hi.within y hy).1
    obtain ⟨pre, rfl⟩ := eq_append_of_end hi.cut hy hend
    obtain ⟨z, -, -, -, -, hu, -⟩ := adjust_extend hm hi.cut hyh hnew
    rw [← hm₂] at hu
    exact confined_of_untouched hi hyw hgrows (by rw [hend₂]) helem (hun hu)

/-- **A sound `Alloc` writes to the heap alone.** -/
theorem AllocSound.confined (hs : AllocSound k size al) (hsize : size.toNat + 20 < 2 ^ 32) : ∀ {fuel : Nat}
    {segs : List Seg}, Inv k.heap k.mem base segs → Kernel.alloc fuel k size al = some (p, k') → Confined k k' := by
  induction hs with
  | @plain k size i hfind =>
    intro fuel segs hi ha
    obtain ⟨rfl, rfl⟩ := alloc_found hfind ha
    obtain ⟨pre, x, post, rfl, hxh, hlt, hxa, hle⟩ := exists_found hi hsize hfind
    obtain ⟨b, segs', hb⟩ := allocAt_plain hi hxh hlt hxa hle
    have hend := (allocAt_bounds k.heap k.mem i size false).2
    exact confined_of_untouched hi (hi.within x (by simp)).1 (by simp only; rw [hend])
      (by simp only; rw [hend]; exact (hi.cut.bounds x (by simp)).2.2) (Heap.elements_allocAt _ _ _ hsize _) hb.frame
  | @aligned k size i x hfind haddr hxs hfit hroom =>
    intro fuel segs hi ha
    obtain ⟨rfl, rfl⟩ := alloc_found hfind ha
    obtain ⟨pre, y, post, rfl, hyh, -, hya, hfit, hroom⟩ := exists_found_aligned hi hfind haddr hxs hfit hroom
    obtain ⟨b, segs', hb, -⟩ := allocAt_aligned hi hyh hya hfit hroom
    have hend := (allocAt_bounds k.heap k.mem i size true).2
    exact confined_of_untouched hi (hi.within y (by simp)).1 (by simp only; rw [hend])
      (by simp only; rw [hend]; exact (hi.cut.bounds y (by simp)).2.2) (Heap.elements_allocAt _ _ _ hsize _) hb.frame
  | @expand k size al hfind htables hlarger hopen hretry ih =>
    intro fuel segs hi ha
    obtain ⟨n, k₂, -, hk₂, ha⟩ := alloc_grown hfind ha
    obtain ⟨segs₂, hi₂, -⟩ := grow_carried hi htables hlarger hopen hk₂
    exact (confined_grow hi htables hlarger hopen hk₂).trans (ih n k₂ hk₂ hsize hi₂ ha)

/-- **A sound `Free` writes to the heap alone.** -/
theorem FreeSound.confined {b : Seg} (hs : FreeSound k (b.addr + sizeofHeader)) (hi : Inv k.heap k.mem base segs)
    (hb : b ∈ segs) (hl : b.hole = false) (hk : k.free (b.addr + sizeofHeader) = some k') : Confined k k' := by
  obtain ⟨segs₁, pre, left, right, post, hi₁, -, ha, hpost, hroom⟩ := hs.around hi hb
  obtain ⟨k'', M, hk'', hr⟩ := free_inside hi₁ ha hl hpost hroom
  rw [hk] at hk''
  obtain rfl := Option.some.inj hk''
  have hbM := (hi₁.cut.bounds b (by rw [ha.split]; simp)).2.2
  exact confined_of_untouched hi₁ (hr.inv.within M (by simp)).1 (by rw [hr.bounds.2]) (by rw [hr.bounds.2]; exact hbM)
    (elements_free hk) hr.frame

end Kernel

/-! ## Writes of the callers -/

section Bytes

variable {m m' : Mem} {g : Seg}

theorem load_of_bytes {a : U32} (hw : a.toNat + 4 ≤ 2 ^ 32)
    (hm : ∀ x : U32, a.toNat ≤ x.toNat → x.toNat < a.toNat + 4 → m' x = m x) : load m' a = load m a :=
  load_congr fun x hx => by
    rw [BitVec.toNat_sub] at hx
    have := x.isLt
    exact hm x (by omega) (by omega)

theorem HeaderAt.congr (h : HeaderAt m g) (hw : g.addr.toNat + g.size.toNat < 2 ^ 32)
    (hm : ∀ x : U32, g.addr.toNat ≤ x.toNat → x.toNat < g.addr.toNat + 12 → m' x = m x) : HeaderAt m' g := by
  have := g.room
  have h4 := toNat_add_four (a := g.addr) (by omega)
  have h8 := toNat_add_eight (a := g.addr) (by omega)
  obtain ⟨h1, h2, h3⟩ := h
  refine ⟨?_, ?_, ?_⟩
  · exact (load_of_bytes (by omega) fun x hx hx' => hm x hx (by omega)).trans h1
  · rw [← h2]
    unfold isHole
    rw [hm (g.addr + 4) (by omega) (by omega)]
  · exact (load_of_bytes (by omega) fun x hx hx' => hm x (by omega) (by omega)).trans h3

theorem FooterAt.congr (h : FooterAt m g) (hw : g.addr.toNat + g.size.toNat < 2 ^ 32)
    (hm : ∀ x : U32, g.footer.toNat ≤ x.toNat → x.toNat < g.footer.toNat + 8 → m' x = m x) : FooterAt m' g := by
  have := g.room
  have he := Seg.toNat_footer hw
  have h4 := toNat_add_four (a := g.footer) (by omega)
  obtain ⟨h1, h2⟩ := h
  exact ⟨(load_of_bytes (by omega) fun x hx hx' => hm x hx (by omega)).trans h1,
    (load_of_bytes (by omega) fun x hx hx' => hm x (by omega) (by omega)).trans h2⟩

end Bytes

namespace HeapState

variable {s : HeapState} {base : Nat} {segs : List Seg} {m : Mem}

def withMem (s : HeapState) (m : Mem) : HeapState := ⟨{ s.kernel with mem := m }, s.live⟩

/-- A byte that the heap never looks at: below the index, or in the payload of a live block. -/
def Loose (s : HeapState) (x : U32) : Prop := x.toNat < s.kernel.heap.index.elements.toNat ∨
  ∃ b ∈ s.live, b.1.toNat ≤ x.toNat ∧ x.toNat < b.1.toNat + b.2.toNat

/-- **Writes to loose bytes keep the heap tiled.** -/
theorem Tiled.withMem (ht : Tiled s base segs) (hm : ∀ x, ¬ s.Loose x → m x = s.kernel.mem x) :
    Tiled (s.withMem m) base segs := by
  have hbelow := ht.inv.below
  have hlow := ht.inv.low
  have hsize := ht.inv.size
  -- the marks of a segment are apart from every payload
  have hmark : ∀ g ∈ segs, ∀ x : U32, (g.addr.toNat ≤ x.toNat ∧ x.toNat < g.addr.toNat + 12) ∨
      (g.footer.toNat ≤ x.toNat ∧ x.toNat < g.footer.toNat + 8) → m x = s.kernel.mem x := fun g hg x hx => by
    have hw := ht.inv.within g hg
    have hroom := g.room
    have hfoot := Seg.toNat_footer hw.2
    refine hm x fun hloose => ?_
    rcases hloose with hlt | ⟨b, hb, h1, h2⟩
    · omega
    · obtain ⟨g', hg', hb'⟩ := ht.live b hb
      obtain ⟨ha, ha'⟩ := ht.apart_marks hg' hb' hg
      unfold Apart at ha ha'
      omega
  refine ⟨⟨⟨⟨ht.inv.within, fun g hg => ?_, fun g hg htied => ?_, ht.inv.toMarks.live⟩, ?_, hsize, ht.inv.cap, hbelow,
    hlow⟩, ht.inv.cut⟩, ht.live, ht.distinct⟩
  · exact (ht.inv.header g hg).congr (ht.inv.within g hg).2 fun x hx hx' => hmark g hg x (.inl ⟨hx, hx'⟩)
  · exact (ht.inv.footer g hg htied).congr (ht.inv.within g hg).2 fun x hx hx' => hmark g hg x (.inr ⟨hx, hx'⟩)
  · have hitems : s.kernel.heap.index.items m = s.kernel.heap.index.items s.kernel.mem := by
      refine List.map_congr_left fun i hi => ?_
      have hlt := List.mem_range.1 hi
      have he := OrderedList.toNat_slot (l := s.kernel.heap.index) (i := i) (by omega) hlt
      refine load_of_bytes (by omega) fun x hx hx' => hm x fun hloose => ?_
      rcases hloose with hlt' | ⟨b, hb, h1, h2⟩
      · omega
      · obtain ⟨g, hg, hbg⟩ := ht.live b hb
        have hw := ht.inv.within g hg
        have hp := hbg.ptr hw.2
        omega
    show (s.kernel.heap.index.items m).Perm _
    rw [hitems]
    exact ht.inv.index

end HeapState

/-! ## The kernel's calls -/

/-- The bytes below the index, and those of every block that is live in both states, are as they were. -/
structure HeapState.Leaves (s t : HeapState) : Prop where
  confined : Confined s.kernel t.kernel
  live : ∀ b ∈ s.live, b ∈ t.live → ∀ x : U32, b.1.toNat ≤ x.toNat → x.toNat < b.1.toNat + b.2.toNat →
    t.kernel.mem x = s.kernel.mem x

namespace HeapState

variable {s t u : HeapState} {base : Nat} {segs : List Seg} {size p : U32} {al : Bool}

theorem Leaves.trans (h₁ : Leaves s t) (h₂ : Leaves t u) (hl : ∀ b ∈ s.live, b ∈ u.live → b ∈ t.live) : Leaves s u :=
  ⟨h₁.confined.trans h₂.confined, fun b hb hb' x hx hx' =>
    (h₂.live b (hl b hb hb') hb' x hx hx').trans (h₁.live b hb (hl b hb hb') x hx hx')⟩

theorem Tiled.alloc_leaves (ht : Tiled s base segs) (hs : s.kernel.AllocSound size al)
    (h : s.Step (.alloc size al) t) : Leaves s t := by
  obtain ⟨-, hk⟩ := ht.alloc hs h
  obtain ⟨hsize, fuel, p, k', ha, rfl⟩ := h
  exact ⟨hs.confined hsize ht.inv ha, hk⟩

theorem Tiled.free_leaves (ht : Tiled s base segs) (hs : s.kernel.FreeSound p) (h : s.Step (.free p) t) :
    Leaves s t := by
  obtain ⟨-, hk⟩ := ht.free hs h
  obtain ⟨⟨n, hn⟩, k', hk', rfl⟩ := h
  obtain ⟨g, hg, hgl, hgp, -⟩ := ht.live _ hn
  simp only at hgp
  subst hgp
  exact ⟨hs.confined ht.inv hg hgl hk', hk⟩

end HeapState

namespace Spaces

variable {s t : Spaces} {segs : List Seg}

/-- **A clone writes its own block** and nothing else. -/
theorem Sharing.clone_leaves (h : s.Sharing segs) {src : U32} (hs : s.Sound (.clone src))
    (hstep : s.Step (.clone src) t) : s.heap.Leaves t.heap := by
  obtain ⟨dir, k₁, segs', hc⟩ := h.clone_shared hs hstep
  obtain ⟨fuel, ha⟩ := hc.alloc
  have hfirst : HeapState.Leaves s.heap ⟨k₁, (dir, sizeofPageDirectory) :: s.heap.live⟩ :=
    h.tiled.alloc_leaves hs ⟨by decide, fuel, dir, k₁, ha, rfl⟩
  have hfill := keeps_fill k₁.mem dir 0 8196 hc.high
  have hkernel : t.heap.kernel = k₁.sharedClone dir src := hc.kernel
  have hmem : t.heap.kernel.mem = fill k₁.mem dir 0 8196 := by rw [hkernel]; rfl
  have hheap : t.heap.kernel.heap = k₁.heap := by rw [hkernel]; rfl
  have helem : k₁.heap.index.elements = s.heap.kernel.heap.index.elements := hfirst.confined.elements
  have hbelow : k₁.heap.index.elements.toNat + 4 * heapIndexSize.toNat ≤ 0xC0080000 := hc.tiled.inv.below
  rw [helem] at hbelow
  have hblock := hc.tiled.safe.below _ (List.mem_cons_self ..)
  have h8196 : sizeofPageDirectory.toNat = 8196 := rfl
  simp only [h8196] at hblock
  refine ⟨⟨by rw [hheap, helem], by rw [hheap]; exact hfirst.confined.grows, fun x hx => ?_, fun x hx => ?_⟩,
    fun b hb hb' x hx hx' => ?_⟩
  · have hlow := hc.low
    rw [hmem, hfill x (.inl (by omega)), hfirst.confined.bytes x hx]
  · rw [hheap] at hx
    rw [hmem, hfill x (.inr (hblock.trans hx)), hfirst.confined.above x hx]
  · have hap : Apart dir.toNat sizeofPageDirectory.toNat b.1.toNat b.2.toNat :=
      (List.pairwise_cons.1 hc.tiled.safe.disjoint).1 b hb
    unfold Apart at hap
    rw [hmem, hfill x (by omega), hfirst.live b hb (List.mem_cons_of_mem _ hb) x hx hx']

theorem Sharing.leaves (h : s.Sharing segs) {op : SpaceOp} (hs : s.Sound op) (hstep : s.Step op t) :
    s.heap.Leaves t.heap := by
  cases op with
  | clone src => exact h.clone_leaves hs hstep
  | alloc size al => exact h.tiled.alloc_leaves hs hstep.1
  | free p => exact h.tiled.free_leaves hs hstep.1
  | switch dir =>
    obtain ⟨-, rfl⟩ := hstep
    exact ⟨⟨rfl, Nat.le_refl _, fun _ _ => rfl, fun _ _ => rfl⟩, fun _ _ _ _ _ _ => rfl⟩

end Spaces

namespace Forking

variable {s t : Forking} {top : Nat}

theorem Inv.fork_leaves (h : s.Inv top) (hs : s.Sound .fork) {m : Machine} {resume d p id : U32}
    (hf : s.Fork m resume t d p id) : s.spaces.heap.Leaves t.spaces.heap ∧
      t.spaces.heap.live = (p, taskSize) :: (d, sizeofPageDirectory) :: s.spaces.heap.live := by
  obtain ⟨⟨v, hclone, hdirs, halloc, hlive⟩, -⟩ := hf
  obtain ⟨segs, hsh⟩ := h.sharing
  obtain ⟨dir, k₁, segs₁, hc⟩ := hsh.clone_shared hs.1 hclone
  obtain rfl : dir = d := (List.cons.inj (hc.dirs.symm.trans hdirs)).1
  have hshv := hc.sharing hsh hclone.1
  have hsound : v.Sound (.alloc taskSize false) := hs.2 v hclone
  rw [hc.live] at hlive
  refine ⟨(hsh.clone_leaves hs.1 hclone).trans (hshv.leaves hsound halloc) fun b hb _ => ?_, hlive⟩
  rw [hc.live]
  exact List.mem_cons_of_mem _ hb

/-- **A sound step** leaves the bytes below the index, and those of the blocks that stay live, as they were. -/
theorem Inv.leaves (h : s.Inv top) {op : ForkingOp} (hs : s.Sound op) (hstep : s.Step op t) :
    s.spaces.heap.Leaves t.spaces.heap := by
  obtain ⟨segs, hsh⟩ := h.sharing
  cases op with
  | call op =>
    exact hsh.leaves hs.spaces hstep.1
  | fork =>
    obtain ⟨m, resume, d, p, id, -, hf⟩ := hstep
    exact (h.fork_leaves hs hf).1
  | switch_task =>
    have hsound : s.spaces.Sound (.switch t.tasks.machine.current_directory) := trivial
    exact hsh.leaves hsound hstep.2

end Forking

end Loris
