import Loris.FramesBuffer
import Loris.PageWalk
/-!
# Mmu — the kernel's page tables as the processor reads them

`struct Page` lays its fields out from bit 0 on.  Where the tables of a directory are in physical memory, the processor
finds for an address the page that `get_page` finds (`walk_translate`).  Behind the loops of `initialise_paging` it
reads every address that they mapped, at every privilege level, and faults on the others (`boot_walk`).  Its own marks
go into `Unused`: the fields `Accessed` and `Dirty` are bits that it does not write (`marks_unused`).
-/
namespace Loris

open ByteMem PageWalk

/-- A word as a `struct Page`, whose first field is the lowest bit. -/
def Page.ofWord (e : U32) : Page where
  present := e.getLsbD 0
  readWrite := e.getLsbD 1
  user := e.getLsbD 2
  accessed := e.getLsbD 3
  dirty := e.getLsbD 4
  unused := e.extractLsb' 5 7
  frame := e.extractLsb' 12 20

theorem frameOf_ofWord (e : U32) : frameOf e = (Page.ofWord e).frame.setWidth 32 * 0x1000 := by
  have he := e.isLt
  have h1000 : (0x1000 : U32).toNat = 0x1000 := rfl
  apply BitVec.eq_of_toNat_eq
  rw [frameOf, toNat_and_page, BitVec.toNat_mul, BitVec.toNat_setWidth, h1000]
  show _ = (e.extractLsb' 12 20).toNat % 2 ^ 32 * 0x1000 % 2 ^ 32
  rw [BitVec.extractLsb'_toNat, Nat.shiftRight_eq_div_pow]
  omega

/-- The marks of an access change `Unused`. -/
theorem ofWord_mark (e : U32) (w : Bool) : Page.ofWord (e ||| if w then 0x60 else 0x20) =
    { Page.ofWord e with unused := (Page.ofWord e).unused ||| if w then 3 else 1 } := by
  cases w <;> simp [Page.ofWord, BitVec.extractLsb'_or]

theorem getLsbD_ofNat_div (v : Nat) {i : Nat} (hi : i < 32) :
    (BitVec.ofNat 32 v).getLsbD i = decide (v / 2 ^ i % 2 = 1) := by
  rw [BitVec.getLsbD_ofNat, decide_eq_true hi, Bool.true_and, Nat.testBit_eq_decide_div_mod_eq]

/-- Every page is that of a word. -/
theorem exists_ofWord (p : Page) : ∃ e, Page.ofWord e = p := by
  obtain ⟨p0, p1, p2, p3, p4, unused, frame⟩ := p
  have hu := unused.isLt
  have hf := frame.isLt
  have hbool : ∀ b : Bool, b.toNat < 2 ∧ b = decide (b.toNat = 1) := by decide
  obtain ⟨h0, e0⟩ := hbool p0
  obtain ⟨h1, e1⟩ := hbool p1
  obtain ⟨h2, e2⟩ := hbool p2
  obtain ⟨h3, e3⟩ := hbool p3
  obtain ⟨h4, e4⟩ := hbool p4
  refine ⟨BitVec.ofNat 32 (p0.toNat + 2 * p1.toNat + 4 * p2.toNat + 8 * p3.toNat + 16 * p4.toNat + 32 * unused.toNat +
    0x1000 * frame.toNat), ?_⟩
  unfold Page.ofWord
  rw [Page.mk.injEq]
  refine ⟨?_, ?_, ?_, ?_, ?_, ?_, ?_⟩
  · rw [getLsbD_ofNat_div _ (by decide)]
    exact (decide_eq_decide.2 (by omega)).trans e0.symm
  · rw [getLsbD_ofNat_div _ (by decide)]
    exact (decide_eq_decide.2 (by omega)).trans e1.symm
  · rw [getLsbD_ofNat_div _ (by decide)]
    exact (decide_eq_decide.2 (by omega)).trans e2.symm
  · rw [getLsbD_ofNat_div _ (by decide)]
    exact (decide_eq_decide.2 (by omega)).trans e3.symm
  · rw [getLsbD_ofNat_div _ (by decide)]
    exact (decide_eq_decide.2 (by omega)).trans e4.symm
  · apply BitVec.eq_of_toNat_eq
    rw [BitVec.extractLsb'_toNat, BitVec.toNat_ofNat, Nat.shiftRight_eq_div_pow]
    omega
  · apply BitVec.eq_of_toNat_eq
    rw [BitVec.extractLsb'_toNat, BitVec.toNat_ofNat, Nat.shiftRight_eq_div_pow]
    omega

namespace Kernel

/-- The tables of a directory, as a physical memory holds them but for the marks of the processor. -/
structure InMemory (k : Kernel) (dir : U32) (m : Mem) : Prop where
  directory : ∀ i, i < 1024 → ∃ u, Page.ofWord (load m (slot (k.directories dir).physicalAddress i)) =
    { Page.ofWord ((k.directories dir).tablesPhysical i) with unused := u }
  pages : ∀ i j, i < 1024 → j < 1024 → (k.directories dir).tables i ≠ 0 →
    ∃ u, Page.ofWord (load m (slot (frameOf ((k.directories dir).tablesPhysical i)) j)) =
      { k.page ⟨(k.directories dir).tables i, j⟩ with unused := u }

/-- A directory whose tables are present for the processor where they are for the kernel, with all rights, in pages of
their own. -/
structure Wired (k : Kernel) (dir : U32) : Prop where
  aligned : Aligned (k.directories dir).physicalAddress
  absent : ∀ i, i < 1024 → (k.directories dir).tables i = 0 → present ((k.directories dir).tablesPhysical i) = false
  rights : ∀ i, i < 1024 → (k.directories dir).tables i ≠ 0 → present ((k.directories dir).tablesPhysical i) = true ∧
    writable ((k.directories dir).tablesPhysical i) = true ∧ userMode ((k.directories dir).tablesPhysical i) = true
  apart : ∀ i j, i < 1024 → j < 1024 → (k.directories dir).tables i ≠ 0 → (k.directories dir).tables j ≠ 0 →
    frameOf ((k.directories dir).tablesPhysical i) = frameOf ((k.directories dir).tablesPhysical j) → i = j
  outside : ∀ i, i < 1024 → (k.directories dir).tables i ≠ 0 →
    frameOf ((k.directories dir).tablesPhysical i) ≠ (k.directories dir).physicalAddress

/-- **Where a directory is wired**, a memory holds its tables. -/
theorem exists_inMemory {k : Kernel} {dir : U32} (hw : k.Wired dir) : ∃ m, k.InMemory dir m := by
  classical
  choose word hword using exists_ofWord
  obtain ⟨m, hm⟩ := exists_words fun t j =>
    if t = (k.directories dir).physicalAddress.toNat then (k.directories dir).tablesPhysical j
    else if h : ∃ i, i < 1024 ∧ (k.directories dir).tables i ≠ 0 ∧
      (frameOf ((k.directories dir).tablesPhysical i)).toNat = t then
        word (k.page ⟨(k.directories dir).tables h.choose, j⟩) else 0
  refine ⟨m, fun i hi => ⟨_, by rw [hm _ i hw.aligned hi, if_pos rfl]⟩,
    fun i j hi hj h0 => ⟨(k.page ⟨(k.directories dir).tables i, j⟩).unused, ?_⟩⟩
  -- the table in a page is one
  have hex : ∃ l, l < 1024 ∧ (k.directories dir).tables l ≠ 0 ∧
      (frameOf ((k.directories dir).tablesPhysical l)).toNat =
        (frameOf ((k.directories dir).tablesPhysical i)).toNat := ⟨i, hi, h0, rfl⟩
  obtain ⟨hl, hl0, hlf⟩ := hex.choose_spec
  have hli := hw.apart _ _ hl hi hl0 h0 (BitVec.eq_of_toNat_eq hlf)
  rw [hm _ j (aligned_frameOf _) hj, if_neg fun h => hw.outside i hi h0 (BitVec.eq_of_toNat_eq h), dif_pos hex, hli,
    hword]

/-- The rights of a page, when the table has all there are. -/
def pagePermits (wp : Bool) (r : Request) (p : Page) : Bool :=
  (!r.user || p.user) && (!r.write || p.readWrite || !r.user && !wp)

variable {k : Kernel} {dir : U32} {m : Mem}

theorem tableIndex_dirIndex (x : U32) : Kernel.tableIndex x = dirIndex x ∧ pageIndex x = PageWalk.tableIndex x := by
  obtain ⟨h1, h2⟩ := tableIndex_of (i := x) rfl
  rw [h1, h2]
  unfold dirIndex PageWalk.tableIndex
  omega

/-- An entry of the directory, as the processor reads it. -/
theorem InMemory.pde (hm : k.InMemory dir m) (hw : k.Wired dir) (x : U32) :
    present (load m (pdeAt (k.directories dir).physicalAddress x)) =
        present ((k.directories dir).tablesPhysical (dirIndex x)) ∧
      writable (load m (pdeAt (k.directories dir).physicalAddress x)) =
        writable ((k.directories dir).tablesPhysical (dirIndex x)) ∧
      userMode (load m (pdeAt (k.directories dir).physicalAddress x)) =
        userMode ((k.directories dir).tablesPhysical (dirIndex x)) ∧
      frameOf (load m (pdeAt (k.directories dir).physicalAddress x)) =
        frameOf ((k.directories dir).tablesPhysical (dirIndex x)) := by
  obtain ⟨u, hu⟩ := hm.directory _ (dirIndex_lt x)
  unfold pdeAt
  rw [frameOf_of_aligned hw.aligned]
  refine ⟨congrArg Page.present hu, congrArg Page.readWrite hu, congrArg Page.user hu, ?_⟩
  rw [frameOf_ofWord, hu, frameOf_ofWord]

/-- **The processor's walk is `get_page`'s**: the page is the same, and the access a fault when it is not present or
does not permit it. -/
theorem InMemory.walk (hm : k.InMemory dir m) (hw : k.Wired dir) (wp : Bool) (r : Request) (x : U32) :
    walk m (k.directories dir).physicalAddress wp r x = (k.lookupPage x dir).bind fun p =>
      if (k.page p).present ∧ pagePermits wp r (k.page p) then
        some ((k.page p).frame.setWidth 32 * 0x1000 + x % 0x1000) else none := by
  obtain ⟨hd, ht⟩ := tableIndex_dirIndex x
  have hi := dirIndex_lt x
  obtain ⟨hpres, hwrite, huser, hframe⟩ := hm.pde hw x
  unfold PageWalk.walk pteAt Kernel.lookupPage
  simp only [hd, ht]
  rw [hpres, hframe]
  by_cases h0 : (k.directories dir).tables (dirIndex x) = 0
  · rw [hw.absent _ hi h0, if_neg (by simp), if_neg (by simpa using h0)]
    rfl
  · obtain ⟨hp, hwr, hus⟩ := hw.rights _ hi h0
    obtain ⟨u, hu⟩ := hm.pages _ _ hi (PageWalk.tableIndex_lt x) h0
    rw [if_pos h0, Option.bind_some, frameOf_ofWord (load m _), hu]
    refine if_congr ?_ rfl rfl
    unfold permits pagePermits
    rw [hp, hwrite, huser, hwr, hus, show present (load m _) = _ from congrArg Page.present hu,
      show writable (load m _) = _ from congrArg Page.readWrite hu,
      show userMode (load m _) = _ from congrArg Page.user hu]
    simp

/-! ## The marks of the processor -/

theorem ofWord_marked (e : U32) (w : Bool) {p : Page} (h : ∃ u, Page.ofWord e = { p with unused := u }) :
    ∃ u, Page.ofWord (e ||| if w then 0x60 else 0x20) = { p with unused := u } := by
  obtain ⟨u, hu⟩ := h
  exact ⟨_, by rw [ofWord_mark, hu]⟩

/-- **An access** that is no fault leaves the tables what they are, but for its marks. -/
theorem InMemory.mark (hm : k.InMemory dir m) (hw : k.Wired dir) {r : Request} {x : U32}
    (hx : (k.directories dir).tables (dirIndex x) ≠ 0) :
    k.InMemory dir (mark m (k.directories dir).physicalAddress r x) := by
  have hi := dirIndex_lt x
  have hj := PageWalk.tableIndex_lt x
  obtain ⟨-, -, -, hframe⟩ := hm.pde hw x
  have hpde : pdeAt (k.directories dir).physicalAddress x = slot (k.directories dir).physicalAddress (dirIndex x) := by
    unfold pdeAt
    rw [frameOf_of_aligned hw.aligned]
  have hpte : pteAt m (k.directories dir).physicalAddress x =
      slot (frameOf ((k.directories dir).tablesPhysical (dirIndex x))) (PageWalk.tableIndex x) := by
    unfold pteAt
    rw [hframe]
  have hout : ∀ i, i < 1024 → (k.directories dir).tables i ≠ 0 →
      frameOf ((k.directories dir).tablesPhysical i) ≠ (k.directories dir).physicalAddress := hw.outside
  have ha := hw.aligned
  have haf := aligned_frameOf
  unfold PageWalk.mark
  rw [hpde, hpte]
  refine ⟨fun i hi' => ?_, fun i j hi' hj' h0 => ?_⟩
  · obtain ⟨u, hu⟩ := hm.directory i hi'
    rw [load_store_slot ha (haf _) hi' hj, if_neg fun h => hout _ hi hx h.1.symm, load_store_slot ha ha hi' hi]
    split
    · rename_i hii
      rw [← hii.2]
      exact ofWord_marked _ false ⟨u, hu⟩
    · exact ⟨u, hu⟩
  · have hp := hm.pages i j hi' hj' h0
    -- the mark in the directory is in none of the tables
    have hdir : ∀ {i' j' v}, i' < 1024 → j' < 1024 → (k.directories dir).tables i' ≠ 0 →
        load (store m (slot (k.directories dir).physicalAddress (dirIndex x)) v)
          (slot (frameOf ((k.directories dir).tablesPhysical i')) j') =
            load m (slot (frameOf ((k.directories dir).tablesPhysical i')) j') := fun hi' hj' h0 => by
      rw [load_store_slot (haf _) ha hj' hi, if_neg fun h => hout _ hi' h0 h.1]
    rw [load_store_slot (haf _) (haf _) hj' hj, hdir hi hj hx, hdir hi' hj' h0]
    split
    · rename_i hij
      rw [← hij.1, ← hij.2]
      exact ofWord_marked _ r.write hp
    · exact hp

theorem InMemory.table_of_walk (hm : k.InMemory dir m) (hw : k.Wired dir) {wp : Bool} {r : Request} {x : U32}
    (h : (PageWalk.walk m (k.directories dir).physicalAddress wp r x).isSome = true) :
    (k.directories dir).tables (dirIndex x) ≠ 0 := fun h0 => by
  rw [hm.walk hw] at h
  unfold Kernel.lookupPage at h
  rw [(tableIndex_dirIndex x).1, h0] at h
  simp at h

/-- What is not in the pages of the tables is free to change. -/
theorem InMemory.keeps (hm : k.InMemory dir m) (hw : k.Wired dir) {lo hi : Nat} {m' : Mem} (hk : Keeps lo hi m m')
    (hd : hi ≤ (k.directories dir).physicalAddress.toNat) (ht : ∀ i, i < 1024 → (k.directories dir).tables i ≠ 0 →
      hi ≤ (frameOf ((k.directories dir).tablesPhysical i)).toNat) : k.InMemory dir m' := by
  have hslot : ∀ {t : U32} {i : Nat}, Aligned t → i < 1024 → hi ≤ t.toNat → load m' (slot t i) = load m (slot t i) :=
    fun ha hi' hle => hk.load_eq (slot_fits ha hi') (.inr (by rw [toNat_slot ha hi']; omega))
  refine ⟨fun i hi' => ?_, fun i j hi' hj h0 => ?_⟩
  · rw [hslot hw.aligned hi' hd]
    exact hm.directory i hi'
  · rw [hslot (aligned_frameOf _) hj (ht i hi' h0)]
    exact hm.pages i j hi' hj h0

theorem InMemory.marks (hw : k.Wired dir) (wp : Bool) : ∀ (l : List (Request × U32)) {m : Mem}, k.InMemory dir m →
    k.InMemory dir (marks (k.directories dir).physicalAddress wp m l)
  | [], _, hm => hm
  | a :: l, m, hm => by
    unfold PageWalk.marks
    split
    · exact InMemory.marks hw wp l (hm.mark hw (hm.table_of_walk hw ‹_›))
    · exact InMemory.marks hw wp l hm

/-- **The marks go into `Unused`**: after any accesses the processor finds the pages that it found before, and no field
of a page but `Unused` is another. -/
theorem marks_unused (hw : k.Wired dir) (hm : k.InMemory dir m) (wp : Bool) (l : List (Request × U32)) :
    (∀ wp' r x, PageWalk.walk (PageWalk.marks (k.directories dir).physicalAddress wp m l)
      (k.directories dir).physicalAddress wp' r x = PageWalk.walk m (k.directories dir).physicalAddress wp' r x) ∧
    ∀ i j, i < 1024 → j < 1024 → (k.directories dir).tables i ≠ 0 →
      ∃ u, Page.ofWord (load (PageWalk.marks (k.directories dir).physicalAddress wp m l)
        (slot (frameOf ((k.directories dir).tablesPhysical i)) j)) =
          { k.page ⟨(k.directories dir).tables i, j⟩ with unused := u } := by
  have hl := hm.marks hw wp l
  exact ⟨fun wp' r x => (hl.walk hw wp' r x).trans (hm.walk hw wp' r x).symm, hl.pages⟩

/-! ## The entries that `initialise_paging` writes -/

/-- What `alloc_frame(page, false, false)` leaves of a page that was clear. -/
def mapped (f : BitVec 20) : Page := ⟨true, false, true, false, false, 0, f⟩

/-- **The entries of the loops**: clear, or mapped; only `p₀` has frame 0. -/
structure Entries (k : Kernel) (dir : U32) (p₀ : PagePtr) : Prop where
  kheap : k.kheap = 0
  kernelDir : k.kernel_directory = dir
  nframes : k.frames.nframes = 0x1000
  entry : ∀ i, i < 1024 → (k.directories dir).tables i ≠ 0 → ∀ j, k.page ⟨(k.directories dir).tables i, j⟩ = Page.zero ∨
    ∃ f, k.page ⟨(k.directories dir).tables i, j⟩ = mapped f ∧ (f = 0 → ⟨(k.directories dir).tables i, j⟩ = p₀)

variable {k' : Kernel} {p p₀ : PagePtr} {alloc : Allocator} {a : U32}

/-- Without a heap a table that is not there is made somewhere. -/
theorem getPage_noHeap (hk : k.kheap = 0) (ht : (k.directories dir).tables (Kernel.tableIndex a) = 0) :
    ∃ table, getPage alloc k a dir = some (⟨table, pageIndex a⟩, addTable k dir (Kernel.tableIndex a) table) := by
  obtain ⟨table, hm⟩ := @Kernel.kmalloc_noHeap alloc k hk sizeofPageTable true
  refine ⟨table, ?_⟩
  unfold Kernel.getPage lookupPage
  simp only [ht, ne_eq, not_true_eq_false, if_false]
  rw [hm, Option.map_some]
  simp only [addTable, setDirectory, Option.getD_some]

theorem Entries.getPage (h : Entries k dir p₀) (hg : getPage alloc k a dir = some (p, k')) :
    Entries k' dir p₀ ∧ k'.frames = k.frames := by
  by_cases h0 : (k.directories dir).tables (Kernel.tableIndex a) = 0
  · obtain ⟨table, ht⟩ := @getPage_noHeap k dir alloc a h.kheap h0
    obtain ⟨-, rfl⟩ := Prod.mk.inj (Option.some.inj (hg.symm.trans ht))
    refine ⟨⟨h.kheap, h.kernelDir, h.nframes, fun i hi hi0 j => ?_⟩, rfl⟩
    rw [addTable_page]
    by_cases hit : ((addTable k dir (Kernel.tableIndex a) table).directories dir).tables i = table
    · rw [if_pos hit]
      exact .inl rfl
    · rw [if_neg hit]
      rw [addTable_directory] at hit hi0 ⊢
      by_cases hia : i = Kernel.tableIndex a
      · simp [hia] at hit
      · simp only [if_neg hia] at hi0 ⊢
        exact h.entry i hi hi0 j
  · have hl : k.lookupPage a dir = some ⟨(k.directories dir).tables (Kernel.tableIndex a), pageIndex a⟩ := if_pos h0
    obtain ⟨-, rfl⟩ := Prod.mk.inj (Option.some.inj (hg.symm.trans (getPage_of_lookup hl)))
    exact ⟨h, rfl⟩

/-- **A frame for an entry**: frame 0 goes to `p₀`, as the first. -/
theorem Entries.allocFrame (h : Entries k dir p₀) (ha : k.allocFrame p false false = some k')
    (h0 : k.frames.bit 0 = true ∨ p = p₀) :
    Entries k' dir p₀ ∧ (k.frames.bit 0 = true → k'.frames.bit 0 = true) := by
  have hs := allocFrame_same ha
  have hdir : k'.directories = k.directories := by rw [hs]
  rcases allocFrame_cases ha with ⟨-, hq, hf⟩ | ⟨hz, hq, idx, hidx, hf, hp⟩
  · refine ⟨⟨by rw [hs]; exact h.kheap, by rw [hs]; exact h.kernelDir, by rw [hf]; exact h.nframes,
      fun i hi hi0 j => ?_⟩, by rw [hf]; exact id⟩
    rw [hdir] at hi0 ⊢
    rw [hq]
    exact h.entry i hi hi0 j
  · obtain ⟨hlt, hclear, -⟩ := Frames.firstFrame_spec hidx
    have hsc : k.frames.scanned = 4096 := by
      unfold Frames.scanned
      rw [Frames.toNat_index, h.nframes]
      rfl
    refine ⟨⟨by rw [hs]; exact h.kheap, by rw [hs]; exact h.kernelDir, by rw [hf]; exact h.nframes,
      fun i hi hi0 j => ?_⟩, fun hb => ?_⟩
    · rw [hdir] at hi0 ⊢
      by_cases hpq : (⟨(k.directories dir).tables i, j⟩ : PagePtr) = p
      · refine .inr ⟨idx.setWidth 20, ?_, fun hzero => ?_⟩
        · rw [hpq, hp]
          rcases h.entry i hi hi0 j with he | ⟨f, he, -⟩
          · rw [← hpq, he]
            rfl
          · rw [← hpq, he]
            rfl
        · refine hpq.trans (h0.resolve_left fun hb => ?_)
          have hi0 : idx.toNat = 0 := by
            have := congrArg BitVec.toNat hzero
            rw [BitVec.toNat_setWidth] at this
            have h00 : (0 : BitVec 20).toNat = 0 := rfl
            omega
          rw [hi0, hb] at hclear
          cases hclear
      · rw [hq _ hpq]
        exact h.entry i hi hi0 j
    · rw [hf, Frames.bit_setFrame, hb, Bool.true_or]

theorem Entries.mapPage (h : Entries k dir p₀) (h0 : k.frames.bit 0 = true) (hm : mapPage alloc k a = some k') :
    Entries k' dir p₀ ∧ k'.frames.bit 0 = true := by
  unfold Kernel.mapPage at hm
  obtain ⟨⟨q, k₁⟩, hg, ha⟩ := Option.bind_eq_some_iff.1 hm
  rw [h.kernelDir] at hg
  obtain ⟨h₁, hf⟩ := h.getPage hg
  have h0' : k₁.frames.bit 0 = true := by rw [hf]; exact h0
  obtain ⟨h₂, hb⟩ := h₁.allocFrame ha (.inl h0')
  exact ⟨h₂, hb h0'⟩

theorem Entries.identityLoop (n : Nat) {k : Kernel} {a : U32} (h : Entries k dir p₀) (h0 : k.frames.bit 0 = true)
    (hr : identityLoop alloc n k a = some k') : Entries k' dir p₀ ∧ k'.frames.bit 0 = true := by
  induction n generalizing k a with
  | zero =>
    unfold Kernel.identityLoop at hr
    cases hr
  | succ n ih =>
    unfold Kernel.identityLoop at hr
    split at hr
    · obtain ⟨k₁, hk₁, hr⟩ := Option.bind_eq_some_iff.1 hr
      obtain ⟨h₁, hb₁⟩ := h.mapPage h0 hk₁
      exact ih h₁ hb₁ hr
    · obtain rfl := Option.some.inj hr
      exact ⟨h, h0⟩

theorem Entries.allocLoop {bound : U32} (n : Nat) {k : Kernel} {a : U32} (h : Entries k dir p₀)
    (h0 : k.frames.bit 0 = true) (hr : allocLoop alloc bound n k a = some k') : Entries k' dir p₀ := by
  induction n generalizing k a with
  | zero =>
    unfold Kernel.allocLoop at hr
    cases hr
  | succ n ih =>
    unfold Kernel.allocLoop at hr
    split at hr
    · obtain ⟨k₁, hk₁, hr⟩ := Option.bind_eq_some_iff.1 hr
      obtain ⟨h₁, hb₁⟩ := h.mapPage h0 hk₁
      exact ih h₁ hb₁ hr
    · obtain rfl := Option.some.inj hr
      exact h

variable {junk : U32} {n : Nat}

/-- **The loops of `initialise_paging`** leave such entries. -/
theorem mapPages_entries (hs : AtStart k) (hp : 0x100000 ≤ k.placement_address.toNat)
    (hfit : BootFits k.placement_address) {fuel : Nat} (hf : 257 ≤ fuel) (hrun : mapPages alloc fuel k = some k') :
    Entries k' (bootDirectory k.placement_address) ⟨tableAt (bootDirectory k.placement_address) 0, 0⟩ := by
  have hd := dirFits_bootDirectory hp hfit
  have hlt := bootFits_iff.1 hfit
  have h128 : (k.placement_address + 128).toNat = k.placement_address.toNat + 128 :=
    toNat_add_ofNat (i := 128) (by omega)
  obtain ⟨k₁, k₂, hmade, hget, hb₂⟩ := @makeDirectory_booting k alloc hs hp hfit
  have hk₁ : k₁ = withDirectory k (bootDirectory k.placement_address) :=
    Option.some.inj (hmade.symm.trans (makeDirectory_eq hs.kheap (by omega)))
  have hkd : k₁.kernel_directory = bootDirectory k.placement_address := by rw [hk₁]; rfl
  have he₁ : Entries k₁ (bootDirectory k.placement_address) ⟨tableAt (bootDirectory k.placement_address) 0, 0⟩ := by
    rw [hk₁]
    refine ⟨hs.kheap, rfl, rfl, fun i _ hi => absurd ?_ hi⟩
    rw [withDirectory_self]
    rfl
  generalize bootDirectory k.placement_address = dir at *
  rw [hkd] at hget
  obtain ⟨he₂, -⟩ := he₁.getPage hget
  -- the rest of the first loop finds the table
  obtain ⟨fuel, rfl⟩ : ∃ f, fuel = f + 1 := ⟨fuel - 1, by omega⟩
  have hfirst : (kheapStart + 0x1000).toNat = 0xC0000000 + 0x1000 * 1 := rfl
  have hgo : getLoop alloc (kheapStart + kheapInitialSize) (fuel + 1) k₁ kheapStart = some k₂ := by
    rw [getLoop, if_pos (by decide), hkd, hget, Option.bind_some]
    exact hb₂.getLoop hd 255 rfl hfirst (by omega)
  unfold mapPages at hrun
  rw [hmade, Option.bind_some, hgo, Option.bind_some] at hrun
  obtain ⟨k₃, hid, hall⟩ := Option.bind_eq_some_iff.1 hrun
  -- the first step of the identity loop takes frame 0
  have hplace := hb₂.placement
  have hhigh := hd.high
  have hbound : (k₂.placement_address + 0x1000).toNat = k₂.placement_address.toNat + 0x1000 := toNat_add_page (by omega)
  unfold Kernel.identityLoop at hid
  rw [if_pos (by rw [BitVec.lt_def, hbound]; exact Nat.succ_pos _)] at hid
  obtain ⟨k₄, hk₄, hid⟩ := Option.bind_eq_some_iff.1 hid
  obtain ⟨k₅, hk₅, hb₅⟩ := @Booting.mapPage k₂ alloc dir k.uninit 0 0 hb₂ hd (by decide) rfl
  obtain rfl := Option.some.inj (hk₄.symm.trans hk₅)
  have he₄ : Entries k₄ dir ⟨tableAt dir 0, 0⟩ := by
    obtain ⟨k₆, hk₆, -⟩ := @Booting.getPage_new k₂ alloc dir k.uninit 0 0 0 0 hb₂ hd (by decide) (by decide) rfl
    unfold Kernel.mapPage at hk₄
    rw [hk₆, Option.bind_some] at hk₄
    rw [hb₂.kernelDir] at hk₆
    exact ((he₂.getPage hk₆).1.allocFrame hk₄ (.inr rfl)).1
  have h0 : k₄.frames.bit 0 = true := by rw [hb₅.bits]; decide
  obtain ⟨he₃, h0₃⟩ := he₄.identityLoop fuel h0 hid
  exact he₃.allocLoop (fuel + 1) h0₃ hall

/-- A page that is present and an entry of the boot's tables. -/
theorem Entries.mapped_of {p₀ : PagePtr} {k : Kernel} {dir : U32} (he : Entries k dir p₀) {i j f : Nat} (hi : i < 1024)
    (h0 : (k.directories dir).tables i ≠ 0) (hp : (k.page ⟨(k.directories dir).tables i, j⟩).present = true ∧
      (k.page ⟨(k.directories dir).tables i, j⟩).frame.toNat = f) :
    ∃ v : BitVec 20, k.page ⟨(k.directories dir).tables i, j⟩ = mapped v ∧ v.toNat = f := by
  rcases he.entry i hi h0 j with hz | ⟨v, hv, -⟩
  · rw [hz] at hp
    cases hp.1
  · rw [hv] at hp
    exact ⟨v, hv, hp.2⟩

theorem Entries.zero_of {p₀ : PagePtr} {k : Kernel} {dir : U32} (he : Entries k dir p₀) {i j : Nat} (hi : i < 1024)
    (h0 : (k.directories dir).tables i ≠ 0) (hf : (k.page ⟨(k.directories dir).tables i, j⟩).frame = 0)
    (hne : (⟨(k.directories dir).tables i, j⟩ : PagePtr) ≠ p₀) :
    k.page ⟨(k.directories dir).tables i, j⟩ = Page.zero := by
  rcases he.entry i hi h0 j with hz | ⟨v, hv, hv0⟩
  · exact hz
  · rw [hv] at hf
    exact absurd (hv0 hf) hne

section Boot

variable (hb : Booting k dir junk ((n + 1023) / 1024) n 256) (hd : DirFits dir) (hn : n ≤ 3840)

include hb hd hn

theorem Booting.table_cases {j : Nat} (hj : j < 1024) (h0 : (k.directories dir).tables j ≠ 0) :
    (j = 768 ∧ ((k.directories dir).tables j).toNat = dir.toNat + 0x3000) ∨
      (j < (n + 1023) / 1024 ∧ ((k.directories dir).tables j).toNat = dir.toNat + 0x5000 + 0x2000 * j) := by
  rw [hb.tables j hj] at h0 ⊢
  split at h0
  · rename_i h768
    rw [if_pos h768]
    exact .inl ⟨h768, hd.toNat_heapTable⟩
  · rename_i h768
    rw [if_neg h768]
    split at h0
    · rename_i hjt
      rw [if_pos hjt]
      exact .inr ⟨hjt, hd.toNat_tableAt (by omega)⟩
    · exact absurd rfl h0

theorem Booting.frameOf_physical {j : Nat} (hj : j < 1024) (h0 : (k.directories dir).tables j ≠ 0) :
    (k.directories dir).tablesPhysical j = (k.directories dir).tables j ||| 0x7 ∧
      frameOf ((k.directories dir).tablesPhysical j) = (k.directories dir).tables j := by
  have hphys := hb.physical j hj
  rw [if_neg h0] at hphys
  refine ⟨hphys, ?_⟩
  rw [hphys]
  refine frameOf_or ?_
  have hal := hd.aligned
  unfold Aligned
  rcases hb.table_cases hd hn hj h0 with ⟨-, h⟩ | ⟨-, h⟩
  · omega
  · omega

/-- The tables of the boot, for the processor. -/
theorem Booting.wired : Wired k dir := by
  have hal := hd.aligned
  have hhigh := hd.high
  have hpa : (dir + 0x1000).toNat = dir.toNat + 0x1000 := toNat_add_page (by omega)
  refine ⟨?_, fun i hi h0 => ?_, fun i hi h0 => ?_, fun i j hi hj hi0 hj0 hij => ?_, fun i hi h0 he => ?_⟩
  · rw [hb.physicalAddress]
    unfold Aligned
    omega
  · rw [hb.physical i hi, if_pos h0]
    decide
  · rw [(hb.frameOf_physical hd hn hi h0).1]
    have h7 : (0x7 : U32).getLsbD 0 = true ∧ (0x7 : U32).getLsbD 1 = true ∧ (0x7 : U32).getLsbD 2 = true := by decide
    unfold present writable userMode
    simp only [BitVec.getLsbD_or, h7, Bool.or_true, and_self]
  · rw [(hb.frameOf_physical hd hn hi hi0).2, (hb.frameOf_physical hd hn hj hj0).2] at hij
    have hijn := congrArg BitVec.toNat hij
    rcases hb.table_cases hd hn hi hi0 with ⟨h1, h2⟩ | ⟨h1, h2⟩ <;>
      rcases hb.table_cases hd hn hj hj0 with ⟨h3, h4⟩ | ⟨h3, h4⟩ <;> omega
  · rw [(hb.frameOf_physical hd hn hi h0).2, hb.physicalAddress] at he
    have hen := congrArg BitVec.toNat he
    rw [hpa] at hen
    rcases hb.table_cases hd hn hi h0 with ⟨-, h⟩ | ⟨-, h⟩ <;> omega

variable (he : Entries k dir ⟨tableAt dir 0, 0⟩) (hn0 : 0 < n)

include he

theorem Booting.lookup_mapped {x : U32} (hx : x.toNat < 0x1000 * n) :
    ∃ p, k.lookupPage x dir = some p ∧ ∃ f : BitVec 20, k.page p = mapped f ∧ f.toNat = x.toNat / 0x1000 := by
  have hl := hb.lookup_low hd (i := x) (m := x.toNat / 0x1000) (by omega) rfl (by omega)
  rw [hb.kernelDir] at hl
  have htab := hb.tables (x.toNat / 0x1000 / 1024) (by omega)
  rw [if_neg (by omega), if_pos (by omega)] at htab
  have hne := hd.ne_zero (j := x.toNat / 0x1000 / 1024) (by omega)
  rw [← htab] at hl hne
  refine ⟨_, hl, he.mapped_of (by omega) hne ?_⟩
  rw [htab]
  exact hb.low _ (by omega)

omit hn in
theorem Booting.lookup_heapMapped {x : U32} (hlo : 0xC0000000 ≤ x.toNat) (hhi : x.toNat < 0xC0100000) :
    ∃ p, k.lookupPage x dir = some p ∧
      ∃ f : BitVec 20, k.page p = mapped f ∧ f.toNat = n + (x.toNat / 0x1000 - 0xC0000) := by
  have hl := hb.lookup_heap hd (i := x) (j := x.toNat / 0x1000 - 0xC0000) (by omega) (by omega)
  rw [hb.kernelDir] at hl
  have htab := hb.tables 768 (by decide)
  rw [if_pos rfl] at htab
  have hne := hd.heapTable_ne_zero
  rw [← htab] at hl hne
  refine ⟨_, hl, he.mapped_of (by decide) hne ?_⟩
  rw [htab]
  exact hb.heap _ (by omega)

include hn0

theorem Booting.lookup_clear {x : U32} (hx : 0x1000 * n ≤ x.toNat)
    (hheap : ¬ (0xC0000000 ≤ x.toNat ∧ x.toNat < 0xC0100000)) {p : PagePtr} (hp : k.lookupPage x dir = some p) :
    k.page p = Page.zero := by
  have hx32 := x.isLt
  obtain ⟨h1, h2⟩ := tableIndex_of (i := x) rfl
  unfold lookupPage at hp
  rw [h1, h2] at hp
  dsimp only at hp
  split at hp
  · rename_i h0
    obtain rfl := Option.some.inj hp
    have hi : x.toNat / 0x1000 / 1024 < 1024 := by omega
    rcases hb.table_cases hd hn hi h0 with ⟨h768, ht⟩ | ⟨hlt, ht⟩
    · refine he.zero_of hi h0 ?_ fun heq => ?_
      · have htab := hb.tables _ hi
        rw [if_pos h768] at htab
        rw [htab]
        exact hb.heapFree _ (by omega) (by omega)
      · have := congrArg BitVec.toNat (PagePtr.mk.inj heq).1
        rw [hd.toNat_tableAt (by decide)] at this
        omega
    · refine he.zero_of hi h0 ?_ fun heq => ?_
      · have htab := hb.tables _ hi
        rw [if_neg (by omega), if_pos hlt] at htab
        rw [htab]
        exact hb.lowFree _ (by omega) (by omega)
      · obtain ⟨heq1, heq2⟩ := PagePtr.mk.inj heq
        have := congrArg BitVec.toNat heq1
        rw [hd.toNat_tableAt (by decide)] at this
        omega
  · cases hp

end Boot

/-- The access to a mapped page, from a kernel that has none but read-only pages. -/
theorem pagePermits_mapped (wp : Bool) (r : Request) (f : BitVec 20) :
    pagePermits wp r (mapped f) = true ↔ ¬ (r.write = true ∧ (r.user = true ∨ wp = true)) := by
  unfold pagePermits mapped
  cases r.write <;> cases r.user <;> cases wp <;> simp

/-- What `get_page` finds behind the loops of `initialise_paging`, with `n` pages from address 0 on. -/
structure Found (k : Kernel) (n : Nat) : Prop where
  wired : Wired k k.kernel_directory
  low : ∀ x : U32, x.toNat < 0x1000 * n → ∃ p, k.lookupPage x k.kernel_directory = some p ∧
    ∃ f : BitVec 20, k.page p = mapped f ∧ f.toNat = x.toNat / 0x1000
  heap : ∀ x : U32, 0xC0000000 ≤ x.toNat → x.toNat < 0xC0100000 → ∃ p, k.lookupPage x k.kernel_directory = some p ∧
    ∃ f : BitVec 20, k.page p = mapped f ∧ f.toNat = n + (x.toNat / 0x1000 - 0xC0000)
  clear : ∀ x : U32, 0x1000 * n ≤ x.toNat → ¬ (0xC0000000 ≤ x.toNat ∧ x.toNat < 0xC0100000) →
    ∀ p, k.lookupPage x k.kernel_directory = some p → k.page p = Page.zero

/-- The pages that the processor walks lie behind `b`. -/
structure WalkBehind (k : Kernel) (b : Nat) : Prop where
  array : b ≤ (k.directories k.kernel_directory).physicalAddress.toNat
  tables : ∀ i, i < 1024 → (k.directories k.kernel_directory).tables i ≠ 0 →
    b ≤ (frameOf ((k.directories k.kernel_directory).tablesPhysical i)).toNat

theorem mapPages_found (hs : AtStart k) (hp : 0x100000 ≤ k.placement_address.toNat)
    (hfit : BootFits k.placement_address) : ∃ k' n steps, (∀ fuel, steps ≤ fuel → mapPages alloc fuel k = some k') ∧
      k'.placement_address.toNat + 0x1000 ≤ 0x1000 * n ∧ n ≤ 3840 ∧ Found k' n ∧
      WalkBehind k' (bootDirectory k.placement_address).toNat := by
  have hd := dirFits_bootDirectory hp hfit
  obtain ⟨M, hM, hbound⟩ := id hfit
  obtain ⟨k', n, steps, hrun, hnM, hb, hend⟩ := @mapPages_booting k alloc hs hp M hM hbound
  have hn : n ≤ 3840 := by omega
  have he := mapPages_entries hs hp hfit (show 257 ≤ steps + 257 by omega) (hrun (steps + 257) (by omega))
  have hhigh := hd.high
  have hpa : (bootDirectory k.placement_address + 0x1000).toNat = (bootDirectory k.placement_address).toNat + 0x1000 :=
    toNat_add_page (by omega)
  refine ⟨k', n, steps, hrun, hend, hn, ⟨?_, fun x hx => ?_, fun x hlo hhi => ?_, fun x hx hheap p hl => ?_⟩, ?_,
    fun i hi h0 => ?_⟩
  all_goals rw [hb.kernelDir] at *
  · exact hb.wired hd hn
  · exact hb.lookup_mapped hd hn he hx
  · exact hb.lookup_heapMapped hd he hlo hhi
  · exact hb.lookup_clear hd hn he (by omega) hx hheap hl
  · rw [hb.physicalAddress]
    omega
  · rw [(hb.frameOf_physical hd hn hi h0).2]
    exact (hb.behind hd (by omega) (Nat.le_refl _)).tables i hi h0

/-- An access to an address of a mapped page. -/
theorem walk_mapped {p : PagePtr} {f : BitVec 20} {x y : U32} (wp : Bool) (r : Request) (hpage : k.page p = mapped f)
    (hy : f.toNat * 0x1000 + x.toNat % 0x1000 = y.toNat) :
    (if (k.page p).present ∧ pagePermits wp r (k.page p) then
      some ((k.page p).frame.setWidth 32 * 0x1000 + x % 0x1000) else none) =
      if r.write = true ∧ (r.user = true ∨ wp = true) then none else some y := by
  have h1000 : (0x1000 : U32).toNat = 0x1000 := rfl
  have hval : f.setWidth 32 * 0x1000 + x % 0x1000 = y := by
    have hf := f.isLt
    have hy' := y.isLt
    apply BitVec.eq_of_toNat_eq
    rw [BitVec.toNat_add, BitVec.toNat_mul, BitVec.toNat_setWidth, BitVec.toNat_umod, h1000]
    omega
  rw [hpage]
  simp only [show (mapped f).present = true from rfl, true_and, pagePermits_mapped, ite_not]
  rw [show (mapped f).frame = f from rfl, hval]

theorem Found.walk (h : Found k n) (hn : n ≤ 3840) (hm : k.InMemory k.kernel_directory m) (wp : Bool) (r : Request)
    (x : U32) : PageWalk.walk m (k.directories k.kernel_directory).physicalAddress wp r x =
      if r.write = true ∧ (r.user = true ∨ wp = true) then none
      else if x.toNat < 0x1000 * n then some x
      else if 0xC0000000 ≤ x.toNat ∧ x.toNat < 0xC0100000 then some (x - 0xC0000000 + 0x1000 * BitVec.ofNat 32 n)
      else none := by
  have hx := x.isLt
  rw [hm.walk h.wired]
  by_cases hlow : x.toNat < 0x1000 * n
  · obtain ⟨p, hl, f, hpage, hf⟩ := h.low x hlow
    rw [hl, Option.bind_some, walk_mapped wp r hpage (y := x) (by omega), if_pos hlow]
  · rw [if_neg hlow]
    by_cases hheap : 0xC0000000 ≤ x.toNat ∧ x.toNat < 0xC0100000
    · obtain ⟨p, hl, f, hpage, hf⟩ := h.heap x hheap.1 hheap.2
      have hy : f.toNat * 0x1000 + x.toNat % 0x1000 = (x - 0xC0000000 + 0x1000 * BitVec.ofNat 32 n).toNat := by
        have h1000 : (0x1000 : U32).toNat = 0x1000 := rfl
        have hC : (0xC0000000 : U32).toNat = 0xC0000000 := rfl
        have hofNat : (BitVec.ofNat 32 n).toNat = n := by rw [BitVec.toNat_ofNat]; omega
        rw [BitVec.toNat_add, BitVec.toNat_sub, BitVec.toNat_mul, hofNat, h1000, hC]
        omega
      rw [hl, Option.bind_some, walk_mapped wp r hpage hy, if_pos hheap]
    · rw [if_neg hheap, ite_self]
      cases hl : k.lookupPage x k.kernel_directory with
      | none => rfl
      | some p =>
        rw [Option.bind_some, h.clear x (Nat.le_of_not_lt hlow) hheap p hl]
        exact if_neg (by simp [Page.zero])

/-- **The memory behind the loops of `initialise_paging`, for the processor**, after any accesses: every page up to `n`
is at its own address, the heap's first 256 pages are behind them, everything is read at any privilege level and written
by the supervisor alone, while CR0.WP is clear, and all else is a fault.  Tables and frame bitmap are in one memory. -/
theorem boot_walk (hs : AtStart k) (hp : 0x100000 ≤ k.placement_address.toNat) (hfit : BootFits k.placement_address)
    (hbit : k.BitmapAlone) :
    ∃ k' n steps, (∀ fuel, steps ≤ fuel → mapPages alloc fuel k = some k') ∧
      k'.placement_address.toNat + 0x1000 ≤ 0x1000 * n ∧
      (∃ m, k'.InMemory k'.kernel_directory m ∧
        ∀ i, i < 128 → (framesAt m k.placement_address k'.frames.nframes).words i = k'.frames.words i) ∧
      ∀ m, k'.InMemory k'.kernel_directory m → ∀ wp' l wp r x,
        let cr3 := (k'.directories k'.kernel_directory).physicalAddress
        PageWalk.walk (PageWalk.marks cr3 wp' m l) cr3 wp r x =
          if r.write = true ∧ (r.user = true ∨ wp = true) then none
          else if x.toNat < 0x1000 * n then some x
          else if 0xC0000000 ≤ x.toNat ∧ x.toNat < 0xC0100000 then
            some (x - 0xC0000000 + 0x1000 * BitVec.ofNat 32 n)
          else none := by
  obtain ⟨k', n, steps, hrun, hend, hn, hfound, hbehind⟩ := @mapPages_found k alloc hs hp hfit
  refine ⟨k', n, steps, hrun, hend, ?_, fun m hm wp' l wp r x =>
    hfound.walk hn (hm.marks hfound.wired wp' l) wp r x⟩
  have hapart := hbit.apart
  have hdir := (bootDirectory k.placement_address).isLt
  obtain ⟨m, hm⟩ := exists_inMemory hfound.wired
  obtain ⟨m', hm', hkeep⟩ := @exists_framesAt m k.placement_address k'.frames.nframes k'.frames.words
    (by omega)
  exact ⟨m', hm.keeps hfound.wired hkeep (hapart.trans hbehind.array) fun i hi h0 =>
    hapart.trans (hbehind.tables i hi h0), hm'⟩

theorem boot_walk_imageAt1M : ∃ k' steps, (∀ fuel, steps ≤ fuel → mapPages (Kernel.alloc 0) fuel imageAt1M = some k') ∧
    ∃ m, PageWalk.walk m (k'.directories k'.kernel_directory).physicalAddress false ⟨true, false⟩ k'.placement_address =
      some k'.placement_address := by
  obtain ⟨k', n, steps, hrun, hend, ⟨m, hm, -⟩, hwalk⟩ := @boot_walk imageAt1M (Kernel.alloc 0) ⟨rfl, rfl⟩ (by decide)
    (bootFits_iff.2 (by decide)) bitmapAlone_imageAt1M
  refine ⟨k', steps, hrun, m, (hwalk m hm false [] false ⟨true, false⟩ k'.placement_address).trans ?_⟩
  rw [if_neg (by decide), if_pos (by omega)]

/-- The tables of the image behind the loops, with an access to the heap. -/
theorem marks_unused_imageAt1M : ∃ (k : Kernel) (m : Mem), k.InMemory k.kernel_directory m ∧ ∀ wp r x,
    let cr3 := (k.directories k.kernel_directory).physicalAddress
    PageWalk.walk (PageWalk.marks cr3 false m [(⟨true, false⟩, 0xC0000000)]) cr3 wp r x =
      PageWalk.walk m cr3 wp r x := by
  obtain ⟨k, n, -, -, -, -, hfound, -⟩ := @mapPages_found imageAt1M (Kernel.alloc 0) ⟨rfl, rfl⟩ (by decide)
    (bootFits_iff.2 (by decide))
  obtain ⟨m, hm⟩ := exists_inMemory hfound.wired
  exact ⟨k, m, hm, (marks_unused hfound.wired hm false [(⟨true, false⟩, 0xC0000000)]).1⟩

end Kernel
end Loris
