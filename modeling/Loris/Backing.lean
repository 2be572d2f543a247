import Loris.ForkStack
import Loris.FrameOwnership
import Loris.Mmu
/-!
# Backing — the frames behind the addresses of the running kernel

The entries of `kernel_directory` are pages as `alloc_frame` knows them, numbered by their addresses (`owned`).
`initialise_paging` leaves each of them a frame of its own or none, and the growth of the heap, the one thing that
touches an entry afterwards, goes by `alloc_frame`: so no two addresses come to share a physical byte (`Backed`), and
what is mapped stays where it is (`Extends`).  The pages up to the end of the heap are all mapped as long as it grows by
whole pages (`Filled`); `Expand` rounds up odd lengths only.
-/
namespace Loris

open ByteMem Runs Kernel

/-- The pages of an address space past the first, by their numbers. -/
abbrev PageNo := { v : Nat // 0 < v ∧ v < 2 ^ 20 }

namespace Kernel

/-- The entry of the page with the number `v` in `kernel_directory`; it is clear where there is no table. -/
def entryAt (k : Kernel) (v : Nat) : Page :=
  let table := (k.directories k.kernel_directory).tables (v / 1024)
  if table ≠ 0 then k.page ⟨table, v % 1024⟩ else Page.zero

/-- The bitmap and the entries of `kernel_directory`. -/
def owned (k : Kernel) : FrameState PageNo := ⟨k.frames, fun v => k.entryAt v.1⟩

/-- **Each page has a frame of its own**, as the bitmap says, and the first `n` pages have those of their numbers.  The
tables lie below the heap, for the first 16 MB and for the heap. -/
structure Backed (k : Kernel) (n : Nat) : Prop where
  owns : k.owned.Owns
  few : k.frames.nframes.toNat ≤ 2 ^ 20
  low : ∀ i, i < 1024 → (k.directories k.kernel_directory).tables i ≠ 0 →
    ((k.directories k.kernel_directory).tables i).toNat + 0x1000 ≤ 0xC0080000
  slots : ∀ i, i < 1024 → 4 ≤ i → i ≠ 768 → (k.directories k.kernel_directory).tables i = 0
  apart : ∀ i j, i < 1024 → j < 1024 → (k.directories k.kernel_directory).tables i ≠ 0 →
    (k.directories k.kernel_directory).tables i = (k.directories k.kernel_directory).tables j → i = j
  identity : ∀ v, v < n → (k.entryAt v).present = true ∧ (k.entryAt v).frame.toNat = v

/-- Every page of the heap has a frame, up to the end, which is on a page boundary. -/
structure Filled (k : Kernel) : Prop where
  start : k.heap.startAddress.toNat % 0x1000 = 0
  ends : k.heap.endAddress.toNat % 0x1000 = 0
  held : ∀ v, 0xC0000 ≤ v → v * 0x1000 < k.heap.endAddress.toNat → (k.entryAt v).frame ≠ 0

/-- The tables are as they were, and so are the entries that hold a frame. -/
structure Extends (k k' : Kernel) : Prop where
  tables : ∀ i, i < 1024 → (k'.directories k'.kernel_directory).tables i = (k.directories k.kernel_directory).tables i
  entries : ∀ v, v < 2 ^ 20 → (k.entryAt v).frame ≠ 0 → k'.entryAt v = k.entryAt v

variable {k k' k₂ : Kernel} {n v : Nat} {x y a : U32} {p : PagePtr}

theorem Extends.trans (h₁ : Extends k k₂) (h₂ : Extends k₂ k') : Extends k k' :=
  ⟨fun i hi => (h₂.tables i hi).trans (h₁.tables i hi), fun v hv hf =>
    (h₂.entries v hv (by rw [h₁.entries v hv hf]; exact hf)).trans (h₁.entries v hv hf)⟩

theorem pageNo_lt (x : U32) : x.toNat / 0x1000 < 2 ^ 20 := by
  have := x.isLt
  omega

theorem entryAt_lookup (h : k.lookupPage x k.kernel_directory = some p) : k.entryAt (x.toNat / 0x1000) = k.page p := by
  obtain ⟨h1, h2⟩ := tableIndex_of (i := x) rfl
  unfold lookupPage at h
  rw [h1, h2] at h
  dsimp only at h
  unfold entryAt
  split at h
  · rename_i h0
    obtain rfl := Option.some.inj h
    exact if_pos h0
  · cases h

theorem entryAt_clear (h : k.lookupPage x k.kernel_directory = none) : k.entryAt (x.toNat / 0x1000) = Page.zero := by
  obtain ⟨h1, h2⟩ := tableIndex_of (i := x) rfl
  unfold lookupPage at h
  rw [h1] at h
  dsimp only at h
  unfold entryAt
  split at h
  · cases h
  · rename_i h0
    exact if_neg h0

theorem translate_entryAt (k : Kernel) (x : U32) : translate k k.kernel_directory x =
    if (k.entryAt (x.toNat / 0x1000)).present then
      some ((k.entryAt (x.toNat / 0x1000)).frame.setWidth 32 * 0x1000 + x % 0x1000) else none := by
  cases hl : k.lookupPage x k.kernel_directory with
  | some p =>
    rw [entryAt_lookup hl]
    unfold Kernel.translate
    rw [hl, Option.bind_some]
  | none =>
    unfold Kernel.translate
    rw [hl, entryAt_clear hl]
    rfl

/-- An address in terms of the frame of its page. -/
theorem toNat_inFrame (f : BitVec 20) (x : U32) :
    (f.setWidth 32 * 0x1000 + x % 0x1000).toNat = f.toNat * 0x1000 + x.toNat % 0x1000 := by
  have hf := f.isLt
  have h1000 : (0x1000 : U32).toNat = 0x1000 := rfl
  rw [BitVec.toNat_add, BitVec.toNat_mul, BitVec.toNat_setWidth, BitVec.toNat_umod, h1000]
  omega

theorem Backed.first (h : k.Backed n) (hn : 0 < n) : (k.entryAt 0).frame = 0 :=
  BitVec.eq_of_toNat_eq (h.identity 0 hn).2

theorem Backed.present (h : k.Backed n) (hv0 : 0 < v) (hv : v < 2 ^ 20) :
    (k.entryAt v).present = true ↔ (k.entryAt v).frame ≠ 0 :=
  h.owns.present ⟨v, hv0, hv⟩

/-- **No two addresses share a byte.** -/
theorem Backed.injective (h : k.Backed n) (hn : 0 < n) (hx : translate k k.kernel_directory x = some a)
    (hy : translate k k.kernel_directory y = some a) : x = y := by
  have hxv := pageNo_lt x
  have hyv := pageNo_lt y
  rw [translate_entryAt] at hx hy
  split at hx
  · rename_i hpx
    split at hy
    · rename_i hpy
      have heq := congrArg BitVec.toNat ((Option.some.inj hx).trans (Option.some.inj hy).symm)
      rw [toNat_inFrame, toNat_inFrame] at heq
      have hframe : (k.entryAt (x.toNat / 0x1000)).frame = (k.entryAt (y.toNat / 0x1000)).frame :=
        BitVec.eq_of_toNat_eq (by omega)
      -- a page past the first that is present has another frame than the first
      have hpos : ∀ {v w : Nat}, v < 2 ^ 20 → 0 < v → (k.entryAt v).present = true →
          (k.entryAt v).frame = (k.entryAt w).frame → w ≠ 0 := fun {v w} hv hv0 hp he hw => by
        rw [hw, h.first hn] at he
        exact (h.present hv0 hv).1 hp he
      have hpage : x.toNat / 0x1000 = y.toNat / 0x1000 := by
        by_cases hx0 : x.toNat / 0x1000 = 0
        · by_contra hne
          exact hpos hyv (by omega) hpy hframe.symm hx0
        · have hy0 := hpos hxv (by omega) hpx hframe
          exact congrArg Subtype.val (h.owns.apart ⟨_, by omega, hxv⟩ ⟨_, by omega, hyv⟩
            ((h.present (by omega) hxv).1 hpx) hframe)
      exact BitVec.eq_of_toNat_eq (by omega)
    · cases hy
  · cases hx

/-- **What is mapped stays where it is.** -/
theorem Extends.translate (he : Extends k k') (h : k.Backed n) (h' : k'.Backed n) (hn : 0 < n)
    (hx : Kernel.translate k k.kernel_directory x = some a) : Kernel.translate k' k'.kernel_directory x = some a := by
  have hv := pageNo_lt x
  rw [translate_entryAt] at hx ⊢
  split at hx
  · rename_i hp
    by_cases h0 : x.toNat / 0x1000 = 0
    · obtain ⟨hp', hf'⟩ := h'.identity 0 hn
      rw [h0, h.first hn] at hx
      rw [h0, if_pos hp', show (k'.entryAt 0).frame = 0 from BitVec.eq_of_toNat_eq hf']
      exact hx
    · rw [he.entries _ hv ((h.present (by omega) hv).1 hp), if_pos hp]
      exact hx
  · cases hx

/-! ## One memory -/

/-- A byte is stored at an address, each through a directory of its own. -/
def storesBy (k : Kernel) (ram : Mem) (l : List (U32 × U32 × Byte)) : Mem :=
  l.foldl (fun ram w => k.storeThrough w.1 ram w.2) ram

/-- **One flat memory in all address spaces**: what is stored to mapped addresses, through any directories, shows
through each of them at its address, and nowhere else. -/
def Flat (k : Kernel) (dirs : U32 → Prop) : Prop := ∀ ram l e, dirs e →
  (∀ w ∈ l, dirs w.1 ∧ (Kernel.translate k w.1 w.2.1).isSome = true) →
    k.view e (k.storesBy ram l) = stores (k.view e ram) (l.map Prod.snd)

theorem Backed.flat (h : k.Backed n) (hn : 0 < n) {dirs : U32 → Prop}
    (hd : ∀ d x, dirs d → Kernel.translate k d x = Kernel.translate k k.kernel_directory x) : k.Flat dirs := by
  intro ram l e he hl
  induction l generalizing ram with
  | nil => rfl
  | cons w l ih =>
    obtain ⟨hw, hmap⟩ := hl w (List.mem_cons_self ..)
    obtain ⟨a, ha⟩ := Option.isSome_iff_exists.1 hmap
    show k.view e (k.storesBy (k.storeThrough w.1 ram w.2) l) = stores (storeByte (k.view e ram) w.2.1 w.2.2) _
    have hone : k.view e (k.storeThrough w.1 ram w.2) = storeByte (k.view e ram) w.2.1 w.2.2 := by
      have hst : k.storeThrough w.1 ram w.2 = storeByte ram a w.2.2 := by
        unfold storeThrough
        rw [ha]
      rw [hd _ _ hw] at ha
      rw [hst]
      funext y
      by_cases hy : y = w.2.1
      · rw [hy, storeByte_same]
        unfold view
        rw [hd _ _ he, ha]
        exact storeByte_same ..
      · rw [storeByte_apply_of_ne _ _ hy]
        unfold view
        rw [hd _ _ he]
        cases hty : Kernel.translate k k.kernel_directory y with
        | none => rfl
        | some b => exact storeByte_apply_of_ne _ _ fun hba => hy (h.injective hn (by rw [hty, hba]) ha)
    rw [← hone]
    exact ih _ fun w' hw' => hl w' (List.mem_cons_of_mem _ hw')

/-! ## The growth of the heap -/

/-- Only the entries and the bitmap matter. -/
theorem Backed.of_entries (h : k.Backed n) (hn : n ≤ 2 ^ 20)
    (ht : ∀ i, i < 1024 → (k'.directories k'.kernel_directory).tables i = (k.directories k.kernel_directory).tables i)
    (he : ∀ v, v < 2 ^ 20 → k'.entryAt v = k.entryAt v) (hf : k'.frames = k.frames) : k'.Backed n := by
  have hown : k'.owned = k.owned := by
    unfold owned
    rw [hf, show (fun v : PageNo => k'.entryAt v.1) = fun v : PageNo => k.entryAt v.1 from
      funext fun v => he v.1 v.2.2]
  refine ⟨by rw [hown]; exact h.owns, by rw [hf]; exact h.few, fun i hi => ?_, fun i hi => ?_, fun i j hi hj => ?_,
    fun v hv => ?_⟩
  · rw [ht i hi]
    exact h.low i hi
  · rw [ht i hi]
    exact h.slots i hi
  · rw [ht i hi, ht j hj]
    exact h.apart i j hi hj
  · rw [he v (by omega)]
    exact h.identity v hv

/-- The entries after one was written. -/
theorem entryAt_setPage (h : k.Backed n) (hl : k.lookupPage x k.kernel_directory = some p) (q : Page) (fr : Frames)
    (hv : v < 2 ^ 20) : ({ k.setPage p q with frames := fr } : Kernel).entryAt v =
      if v = x.toNat / 0x1000 then q else k.entryAt v := by
  have hx := pageNo_lt x
  obtain ⟨h1, h2⟩ := tableIndex_of (i := x) rfl
  unfold lookupPage at hl
  rw [h1, h2] at hl
  dsimp only at hl
  split at hl
  · rename_i h0
    obtain rfl := Option.some.inj hl
    unfold entryAt
    show (if (k.directories k.kernel_directory).tables (v / 1024) ≠ 0 then
      (k.setPage _ q).page ⟨(k.directories k.kernel_directory).tables (v / 1024), v % 1024⟩ else _) = _
    rw [page_setPage]
    by_cases hvx : v = x.toNat / 0x1000
    · rw [if_pos hvx, hvx, if_pos h0, if_pos rfl]
    · rw [if_neg hvx]
      by_cases hv0 : (k.directories k.kernel_directory).tables (v / 1024) ≠ 0
      · rw [if_pos hv0, if_pos hv0, if_neg fun he => hvx ?_]
        obtain ⟨he1, he2⟩ := PagePtr.mk.inj he
        have := h.apart _ _ (by omega) (by omega) hv0 he1
        omega
      · rw [if_neg hv0, if_neg hv0]
  · cases hl

/-- **A frame for a page of the heap.** -/
theorem Backed.allocFrame (h : k.Backed n) (hn : n ≤ 0xC0000) (hl : k.lookupPage x k.kernel_directory = some p)
    (hx : 0xC0000000 ≤ x.toNat) {b c : Bool} (ha : k.allocFrame p b c = some k') : k'.Backed n := by
  have hpage := entryAt_lookup hl
  obtain ⟨r, hr, rfl⟩ := Option.map_eq_some_iff.1 ha
  have hentry := fun v hv => entryAt_setPage (v := v) h hl r.2 r.1 hv
  have hstep : k.owned.Step (.alloc ⟨x.toNat / 0x1000, by omega, pageNo_lt x⟩ b c)
      ({ k.setPage p r.2 with frames := r.1 } : Kernel).owned := by
    show Option.map _ (k.frames.allocFrame (k.entryAt (x.toNat / 0x1000)) b c) = _
    rw [hpage, hr, Option.map_some]
    refine congrArg some ?_
    unfold owned
    congr 1
    funext v
    rw [hentry v.1 v.2.2]
    unfold FrameState.setPage
    simp only [Subtype.ext_iff]
  have hfew := FrameState.nframes_step hstep
  refine ⟨h.owns.alloc h.few hstep, (congrArg BitVec.toNat hfew).trans_le h.few, h.low, h.slots, h.apart,
    fun v hv => ?_⟩
  rw [hentry v (by omega), if_neg (by omega)]
  exact h.identity v hv

theorem Backed.ready (h : k.Backed n) : FramesReady k.frames := ⟨h.owns.reserved, h.few⟩

/-- A page from the heap on that has a table is one of the heap's first 4 MB. -/
theorem Backed.slot (h : k.Backed n) (hx : 0xC0000000 ≤ x.toNat) (hl : k.lookupPage x k.kernel_directory = some p) :
    x.toNat < 0xC0400000 := by
  have hlt := x.isLt
  obtain ⟨h1, -⟩ := tableIndex_of (i := x) rfl
  unfold lookupPage at hl
  rw [h1] at hl
  dsimp only at hl
  split at hl
  · rename_i h0
    by_contra hge
    exact h0 (h.slots _ (by omega) (by omega) (by omega))
  · cases hl

theorem Extends.of_pages (hd : k'.directories = k.directories) (hk : k'.kernel_directory = k.kernel_directory)
    (hp : KeepsPages k k') : Extends k k' := by
  refine ⟨fun i _ => by rw [hd, hk], fun v _ hf => ?_⟩
  unfold entryAt at hf ⊢
  rw [hd, hk]
  dsimp only at hf ⊢
  split
  · rename_i h0
    rw [if_pos h0] at hf
    exact hp _ hf
  · rfl

/-- **The loop of `Expand`** maps the page of every offset that it comes to. -/
theorem Backed.expandLoop {f : Allocator} {e : U32} (hn : n ≤ 0xC0000) : ∀ {m : Nat} {k : Kernel} {i : U32},
    k.Backed n → 0xC0000000 ≤ (k.heap.startAddress + i).toNat → k.tablesPresent e m i = true →
    Kernel.expandLoop f e m k i = some k' → k'.Backed n ∧ ∀ j : U32, i.toNat ≤ j.toNat → j.toNat < e.toNat →
      (j.toNat - i.toNat) % 0x1000 = 0 → (k'.entryAt ((k.heap.startAddress + j).toNat / 0x1000)).frame ≠ 0
  | 0, _, _, _, _, _, hr => by cases hr
  | m + 1, k, i, h, hlo, ht, hr => by
    unfold Kernel.expandLoop at hr
    unfold tablesPresent at ht
    by_cases hi : i < e
    · rw [if_pos hi] at hr ht
      rw [Bool.and_eq_true] at ht
      obtain ⟨p, hl⟩ := Option.isSome_iff_exists.1 ht.1
      rw [getPage_of_lookup hl, Option.bind_some] at hr
      obtain ⟨k₁, ha, hr⟩ := Option.bind_eq_some_iff.1 hr
      have hsame := allocFrame_same ha
      have hheap : k₁.heap = k.heap := by rw [hsame]
      have hlk : k₁.lookupPage (k.heap.startAddress + i) k₁.kernel_directory = some p := by
        rw [hsame]
        exact hl
      have h₁ := h.allocFrame hn hl hlo ha
      have hslot := h.slot hlo hl
      have hnext : (k.heap.startAddress + (i + 0x1000)).toNat = (k.heap.startAddress + i).toNat + 0x1000 := by
        rw [← BitVec.add_assoc]
        exact toNat_add_page (by omega)
      have ht₁ := (tablesPresent_same hsame e m (i + 0x1000)).trans ht.2
      obtain ⟨h', hpages⟩ := Backed.expandLoop hn h₁ (by rw [hheap, hnext]; omega) ht₁ hr
      refine ⟨h', fun j hij hj hmod => ?_⟩
      rw [hheap] at hpages
      rw [BitVec.lt_def] at hi
      by_cases heq : j = i
      · -- the page of this round stays
        have hgot := (allocFrame_grown h.ready (b := k.heap.readonly) ha).2
        rw [← entryAt_lookup hlk] at hgot
        rw [heq, (Extends.of_pages (by rw [expandLoop_same ht₁ hr]) (by rw [expandLoop_same ht₁ hr])
          (expandLoop_keeps ht₁ hr)).entries _ (pageNo_lt _) hgot]
        exact hgot
      · have hne : j.toNat ≠ i.toNat := fun he => heq (BitVec.eq_of_toNat_eq he)
        have hj32 := j.isLt
        have hi' : (i + 0x1000).toNat = i.toNat + 0x1000 := toNat_add_page (by omega)
        exact hpages j (by omega) hj (by omega)
    · rw [if_neg hi] at hr
      obtain rfl := Option.some.inj hr
      rw [BitVec.lt_def] at hi
      exact ⟨h, fun j hij hj => by omega⟩

/-- A growth by `m` bytes is one of whole pages, as `Expand` rounds it, and the length does not wrap around. -/
def Whole (k : Kernel) (m : U32) : Prop := (m.toNat % 2 = 1 ∨ m.toNat % 0x1000 = 0) ∧
  (k.heap.endAddress - k.heap.startAddress).toNat + m.toNat + 0x1000 ≤ 2 ^ 32

/-- What `Expand`'s loop leaves, `Alloc` goes on with. -/
theorem grow_loop {f : Allocator} {m : U32}
    (htables : k.tablesPresent (expandSize (k.heap.endAddress - k.heap.startAddress + m)) (0x100000 + 1)
      (k.heap.endAddress - k.heap.startAddress) = true)
    (hk : k.grow f m = some k₂) : ∃ k₀,
      Kernel.expandLoop f (expandSize (k.heap.endAddress - k.heap.startAddress + m)) (0x100000 + 1) k
        (k.heap.endAddress - k.heap.startAddress) = some k₀ ∧
      (k₂.directories = k₀.directories ∧ k₂.kernel_directory = k₀.kernel_directory) ∧
      (∀ v, k₂.entryAt v = k₀.entryAt v) ∧ k₂.frames = k₀.frames ∧
      k₂.heap.startAddress = k.heap.startAddress ∧ k₂.heap.endAddress =
        k.heap.startAddress + expandSize (k.heap.endAddress - k.heap.startAddress + m) := by
  obtain ⟨k₁, hk₁, -⟩ := Option.map_eq_some_iff.1 (show Option.map _ _ = _ from hk)
  obtain ⟨k₀, hk₀, hk₁'⟩ := Option.map_eq_some_iff.1 (show Option.map _ _ = _ from hk₁)
  obtain ⟨-, hh₁⟩ := expand_same htables hk₁
  rw [grow_eq hk₁] at hk
  obtain rfl := Option.some.inj hk
  obtain ⟨hs, he⟩ := Heap.adjust_bounds k₁.heap k₁.mem k.heap.endAddress (k.heap.endAddress - k.heap.startAddress)
    (k₁.heap.endAddress - k₁.heap.startAddress)
  refine ⟨k₀, hk₀, ?_, fun v => ?_, ?_, by rw [hs, hh₁], by rw [he, hh₁]⟩
  all_goals
    subst hk₁'
    first | rfl | exact ⟨rfl, rfl⟩

/-- The new end of a heap that grows by whole pages. -/
theorem Whole.length {m : U32} (h : k.Whole m) (hs : k.heap.startAddress.toNat % 0x1000 = 0)
    (he : k.heap.endAddress.toNat % 0x1000 = 0) :
    (expandSize (k.heap.endAddress - k.heap.startAddress + m)).toNat % 0x1000 = 0 ∧
      (k.heap.endAddress - k.heap.startAddress).toNat + m.toNat ≤
        (expandSize (k.heap.endAddress - k.heap.startAddress + m)).toNat := by
  obtain ⟨hm, hlen⟩ := h
  have hsub := BitVec.toNat_sub k.heap.endAddress k.heap.startAddress
  have hsum : (k.heap.endAddress - k.heap.startAddress + m).toNat =
      (k.heap.endAddress - k.heap.startAddress).toNat + m.toNat := by
    rw [BitVec.toNat_add]
    omega
  have hexp := toNat_expandSize (n := k.heap.endAddress - k.heap.startAddress + m) (by omega)
  have hlt := k.heap.endAddress.isLt
  have hlt' := k.heap.startAddress.isLt
  rw [hexp, hsum]
  split <;> omega

/-- **The growth of the heap** gives each new page a frame of its own. -/
theorem Backed.grow {f : Allocator} {m : U32} (h : k.Backed n) (hn : n ≤ 0xC0000)
    (hend : 0xC0000000 ≤ k.heap.endAddress.toNat)
    (htables : k.tablesPresent (expandSize (k.heap.endAddress - k.heap.startAddress + m)) (0x100000 + 1)
      (k.heap.endAddress - k.heap.startAddress) = true)
    (hlarger : k.heap.endAddress.toNat + 20 ≤ (k.heap.startAddress +
      expandSize (k.heap.endAddress - k.heap.startAddress + m)).toNat)
    (hk : k.grow f m = some k₂) : k₂.Backed n ∧ Extends k k₂ ∧ (k.Filled → k.Whole m → k₂.Filled) := by
  obtain ⟨hspaces, hpages⟩ := grow_spaces htables hk
  have hext : Extends k k₂ := .of_pages (by rw [hspaces]) (by rw [hspaces]) hpages
  obtain ⟨k₀, hk₀, ⟨hdirs, hkd⟩, hentry, hframes, hs₂, he₂⟩ := grow_loop htables hk
  have hback : k.heap.startAddress + (k.heap.endAddress - k.heap.startAddress) = k.heap.endAddress := by bv_omega
  obtain ⟨h₀, hloop⟩ := h.expandLoop hn (by rw [hback]; exact hend) htables hk₀
  refine ⟨h₀.of_entries (by omega) (fun i _ => by rw [hdirs, hkd]) (fun v _ => hentry v) hframes, hext,
    fun hfill hwhole => ?_⟩
  have hstart := hfill.start
  have hends := hfill.ends
  obtain ⟨hround, hlarge⟩ := hwhole.length hstart hends
  generalize expandSize (k.heap.endAddress - k.heap.startAddress + m) = e at *
  have hnew := BitVec.toNat_add k.heap.startAddress e
  have hlen := BitVec.toNat_sub k.heap.endAddress k.heap.startAddress
  have hE := k.heap.endAddress.isLt
  have hS := k.heap.startAddress.isLt
  have heLt := e.isLt
  refine ⟨by rw [hs₂]; exact hstart, by rw [he₂]; omega, fun v hv hlt => ?_⟩
  rw [he₂] at hlt
  by_cases hold : v * 0x1000 < k.heap.endAddress.toNat
  · have hf := hfill.held v hv hold
    rw [hext.entries v (by omega) hf]
    exact hf
  · obtain ⟨x, hx⟩ : ∃ x : U32, x.toNat = v * 0x1000 := ⟨BitVec.ofNat 32 (v * 0x1000), by
      rw [BitVec.toNat_ofNat]
      omega⟩
    have hj := BitVec.toNat_sub x k.heap.startAddress
    have hsum : k.heap.startAddress + (x - k.heap.startAddress) = x := by bv_omega
    have hgot := hloop (x - k.heap.startAddress) (by omega) (by omega) (by omega)
    rw [hsum, hx, Nat.mul_div_cancel _ (by decide)] at hgot
    rw [hentry]
    exact hgot

/-! ## After `initialise_paging` -/

/-- The frame that `initialise_paging` gives the page `v`, or 0, behind `n` pages that are mapped to themselves. -/
def bootFrame (n v : Nat) : Nat :=
  if v < n then v else if 0xC0000 ≤ v ∧ v < 0xC0100 then n + (v - 0xC0000) else 0

theorem bootFrame_lt (n v : Nat) : bootFrame n v < n + 256 := by
  unfold bootFrame
  split
  · omega
  · split <;> omega

theorem bootFrame_inj {w : Nat} (hn : n ≤ 0xC0000) (h : bootFrame n v = bootFrame n w) (h0 : bootFrame n v ≠ 0) :
    v = w := by
  unfold bootFrame at h h0
  split_ifs at h h0 <;> omega

theorem bootFrame_surj {g : Nat} (hn : n ≤ 0xC0000) (h0 : g ≠ 0) (hg : g < n + 256) :
    ∃ v : PageNo, bootFrame n v.1 = g := by
  unfold bootFrame
  by_cases hlow : g < n
  · exact ⟨⟨g, by omega, by omega⟩, if_pos hlow⟩
  · refine ⟨⟨0xC0000 + (g - n), by omega, by omega⟩, ?_⟩
    rw [if_neg (by simp only; omega), if_pos (by simp only; omega)]
    simp only
    omega

section Boot

variable {k₁ : Kernel} {dir : U32} {f b t : Seg}

theorem AfterBoot.entry (h : AfterBoot k k₁ dir n f b t) (he : Entries k₁ dir ⟨tableAt dir 0, 0⟩) (hv : v < 2 ^ 20) :
    (k.entryAt v).frame.toNat = bootFrame n v ∧ ((k.entryAt v).present = true ↔ v = 0 ∨ bootFrame n v ≠ 0) := by
  have hn := h.few
  have hend := h.ended
  obtain ⟨x, hx⟩ : ∃ x : U32, x.toNat = v * 0x1000 := ⟨BitVec.ofNat 32 (v * 0x1000), by
    rw [BitVec.toNat_ofNat]
    omega⟩
  have hdiv : x.toNat / 0x1000 = v := by omega
  have hkd := h.booting.kernelDir
  have hsame : k.entryAt v = k₁.entryAt v := by
    unfold entryAt
    rw [h.kernelDir, hkd, h.directory]
    dsimp only
    split
    · rename_i h0
      have := h.booting.table_lt h.fits hn hend (j := v / 1024) (by omega) h0
      have hhigh := h.fits.high
      exact h.pages _ (by simp only; omega)
    · rfl
  rw [hsame]
  unfold bootFrame
  by_cases hlow : v < n
  · obtain ⟨p, hl, g, hp, hg⟩ := h.booting.lookup_mapped h.fits hn he (x := x) (by omega)
    rw [← hkd] at hl
    have hentry := entryAt_lookup hl
    rw [hdiv, hp] at hentry
    rw [hentry, if_pos hlow]
    exact ⟨hg.trans hdiv, iff_of_true rfl (Nat.eq_zero_or_pos v |>.imp_right Nat.ne_of_gt)⟩
  rw [if_neg hlow]
  by_cases hheap : 0xC0000 ≤ v ∧ v < 0xC0100
  · obtain ⟨p, hl, g, hp, hg⟩ := h.booting.lookup_heapMapped h.fits he (x := x) (by omega) (by omega)
    rw [← hkd] at hl
    have hentry := entryAt_lookup hl
    rw [hdiv, hp] at hentry
    rw [hentry, if_pos hheap]
    exact ⟨by rw [← hdiv]; exact hg, iff_of_true rfl (.inr (by omega))⟩
  · have hz : k₁.entryAt v = Page.zero := by
      rw [← hdiv]
      cases hl : k₁.lookupPage x k₁.kernel_directory with
      | none => exact entryAt_clear hl
      | some p =>
        rw [entryAt_lookup hl]
        rw [hkd] at hl
        exact h.booting.lookup_clear h.fits hn he (by omega) (by omega) (by omega) hl
    rw [hz, if_neg hheap]
    exact ⟨rfl, iff_of_false (by decide) (by omega)⟩

/-- **`initialise_paging` leaves the frames apart**, and the heap mapped. -/
theorem AfterBoot.backed (h : AfterBoot k k₁ dir n f b t) (he : Entries k₁ dir ⟨tableAt dir 0, 0⟩) :
    k.Backed n ∧ k.Filled := by
  have hn := h.few
  have hend := h.ended
  have hhigh := h.fits.high
  have hframe : ∀ v : PageNo, (k.owned.pages v).frame.toNat = bootFrame n v.1 := fun v => (h.entry he v.2.2).1
  have hzero : ∀ v : PageNo, (k.owned.pages v).frame ≠ 0 ↔ bootFrame n v.1 ≠ 0 := fun v => by
    rw [← hframe v, Ne, Ne, ← BitVec.toNat_inj]
    rfl
  have htab : ∀ {i}, i < 1024 → (k.directories k.kernel_directory).tables i ≠ 0 → _ := fun {i} hi h0 =>
    h.booting.table_cases h.fits hn hi (j := i) (by rw [h.kernelDir, h.directory] at h0; exact h0)
  refine ⟨⟨⟨fun g hg => ?_, fun v w hv hvw => ?_, ?_, fun v => ?_⟩, ?_, fun i hi h0 => ?_, fun i hi h4 h768 => ?_,
    fun i j hi hj h0 hij => ?_, fun v hv => ?_⟩, ⟨?_, ?_, fun v hv hlt => ?_⟩⟩
  · show k.frames.bit g = true ↔ _
    rw [h.frames, h.booting.bits, decide_eq_true_eq]
    constructor
    · intro hlt
      obtain ⟨v, hv⟩ := bootFrame_surj (by omega) hg hlt
      refine ⟨v, (hframe v).trans hv, fun w hw => Subtype.ext ?_⟩
      exact bootFrame_inj (n := n) (by omega) (((hframe w).symm.trans hw).trans hv.symm) fun h0 => hg
        (hw.symm.trans ((hframe w).trans h0))
    · rintro ⟨v, hv, -⟩
      rw [← hv]
      exact (hframe v).trans_lt (bootFrame_lt n v.1)
  · refine Subtype.ext (bootFrame_inj (n := n) (by omega) ?_ ((hzero v).1 hv))
    rw [← hframe v, ← hframe w, hvw]
  · show k.frames.bit 0 = true
    rw [h.frames, h.booting.bits, decide_eq_true_eq]
    omega
  · rw [hzero]
    refine (h.entry he v.2.2).2.trans ⟨fun hor => hor.resolve_left (by have := v.2.1; omega), .inr⟩
  · rw [h.frames, h.booting.nframes]
    decide
  · have := h.booting.table_lt h.fits hn hend (j := i) hi (by rw [h.kernelDir, h.directory] at h0; exact h0)
    rw [h.kernelDir, h.directory]
    omega
  · rw [h.kernelDir, h.directory, h.booting.tables i hi, if_neg h768, if_neg (by omega)]
  · have hti := htab hi h0
    have htj := htab hj (by rw [← hij]; exact h0)
    rw [h.kernelDir, h.directory] at hij
    rw [hij] at hti
    rcases hti with ⟨h1, h2⟩ | ⟨h1, h2⟩ <;> rcases htj with ⟨h3, h4⟩ | ⟨h3, h4⟩ <;> omega
  · obtain ⟨h1, h2⟩ := h.entry he (v := v) (by omega)
    unfold bootFrame at h1 h2
    rw [if_pos hv] at h1 h2
    exact ⟨h2.2 (by omega), h1⟩
  · rw [h.bounds.1]
    decide
  · rw [h.bounds.2]
    decide
  · rw [h.bounds.2] at hlt
    have hlt' : v * 0x1000 < 0xC0100000 := hlt
    refine (hzero ⟨v, by omega, by omega⟩).2 ?_
    unfold bootFrame
    rw [if_neg (by simp only; omega), if_pos (by simp only; omega)]
    omega

end Boot

/-! ## The calls -/

/-- Each growth that a call of `Alloc` makes is one of whole pages. -/
inductive GrowsWhole : Kernel → U32 → Bool → Prop where
  | found {k size al i} (hfind : k.heap.findSmallestHole k.mem (size + sizeofHeader + sizeofFooter) al = some i) :
      GrowsWhole k size al
  | grown {k size al} (hwhole : k.Whole (size + sizeofHeader + sizeofFooter))
      (hretry : ∀ fuel k₂, k.grow (alloc fuel) (size + sizeofHeader + sizeofFooter) = some k₂ →
        GrowsWhole k₂ size al) : GrowsWhole k size al

/-- A step that keeps the frames apart and the mappings in place, and the heap mapped when it is to. -/
structure Backs (k k' : Kernel) (n : Nat) (whole : Prop) : Prop where
  backed : k'.Backed n
  kept : Extends k k'
  filled : k.Filled → whole → k'.Filled

theorem Extends.of_entries
    (ht : ∀ i, i < 1024 → (k'.directories k'.kernel_directory).tables i = (k.directories k.kernel_directory).tables i)
    (he : ∀ v, v < 2 ^ 20 → k'.entryAt v = k.entryAt v) : Extends k k' := ⟨ht, fun v hv _ => he v hv⟩

theorem Backs.trans {P Q R : Prop} (h₁ : Backs k k₂ n P) (h₂ : Backs k₂ k' n Q) (hP : R → P) (hQ : R → Q) :
    Backs k k' n R :=
  ⟨h₂.backed, h₁.kept.trans h₂.kept, fun hf hr => h₂.filled (h₁.filled hf (hP hr)) (hQ hr)⟩

/-- Calls that leave the entries, the bitmap and the bounds of the heap alone. -/
theorem Backs.of_entries {P : Prop} (h : k.Backed n) (hn : n ≤ 2 ^ 20)
    (ht : ∀ i, i < 1024 → (k'.directories k'.kernel_directory).tables i = (k.directories k.kernel_directory).tables i)
    (he : ∀ v, v < 2 ^ 20 → k'.entryAt v = k.entryAt v) (hf : k'.frames = k.frames)
    (hb : k'.heap.startAddress = k.heap.startAddress ∧ k'.heap.endAddress = k.heap.endAddress) : Backs k k' n P := by
  refine ⟨h.of_entries hn ht he hf, .of_entries ht he, fun hfill _ => ⟨?_, ?_, fun v hv hlt => ?_⟩⟩
  · rw [hb.1]
    exact hfill.start
  · rw [hb.2]
    exact hfill.ends
  · rw [hb.2] at hlt
    rw [he v (by have := k.heap.endAddress.isLt; omega)]
    exact hfill.held v hv hlt

theorem Backs.of_heap {P : Prop} (h : k.Backed n) (hn : n ≤ 2 ^ 20)
    (hk : k' = { k with
      heap := k'.heap
      mem := k'.mem })
    (hb : k'.heap.startAddress = k.heap.startAddress ∧ k'.heap.endAddress = k.heap.endAddress) : Backs k k' n P :=
  .of_entries h hn (fun i _ => by rw [hk]) (fun v _ => by rw [hk]; rfl) (by rw [hk]) hb

/-- **A sound `Alloc`.** -/
theorem AllocSound.backs {base : Nat} {size : U32} {al : Bool} (hs : AllocSound k size al) (hn : n ≤ 0xC0000)
    (hbase : 0xC0000000 ≤ base) : ∀ {fuel : Nat} {segs : List Seg} {p : U32}, Inv k.heap k.mem base segs →
      k.Backed n → Kernel.alloc fuel k size al = some (p, k') → Backs k k' n (GrowsWhole k size al) := by
  induction hs with
  | plain hfind =>
    intro fuel segs p _ h ha
    obtain ⟨-, rfl⟩ := alloc_found hfind ha
    exact .of_heap h (by omega) rfl (allocAt_bounds ..)
  | aligned hfind =>
    intro fuel segs p _ h ha
    obtain ⟨-, rfl⟩ := alloc_found hfind ha
    exact .of_heap h (by omega) rfl (allocAt_bounds ..)
  | expand hfind htables hlarger hopen _ ih =>
    intro fuel segs p hi h ha
    obtain ⟨m, k₂, -, hk₂, ha⟩ := alloc_grown hfind ha
    obtain ⟨segs₂, hi₂, -⟩ := grow_carried hi htables hlarger hopen hk₂
    obtain ⟨h₂, hext, hfill⟩ := h.grow hn (hbase.trans hi.cut.le) htables hlarger hk₂
    have hrest := ih m k₂ hk₂ hi₂ h₂ ha
    refine ⟨hrest.backed, hext.trans hrest.kept, fun hf hw => ?_⟩
    cases hw with
    | found hfound => rw [hfound] at hfind; cases hfind
    | grown hwhole hretry => exact hrest.filled (hfill hf hwhole) (hretry m k₂ hk₂)

end Kernel

namespace Spaces

variable {s t : Spaces} {segs : List Seg} {n : Nat}

/-- Each growth of the heap that the call makes is one of whole pages. -/
def WholePages (s : Spaces) : SpaceOp → Prop
  | .clone _ => s.kernel.GrowsWhole sizeofPageDirectory true
  | .alloc size page_align => s.kernel.GrowsWhole size page_align
  | _ => True

/-- A clone makes no entry of its own. -/
theorem Cloned.backs {P : Prop} {src dir : U32} {k₁ : Kernel} {segs' : List Seg} (hc : Cloned s src dir k₁ segs' t)
    (h : s.Sharing segs) (hb : k₁.Backed n) (hn : n ≤ 2 ^ 20) : Backs k₁ t.kernel n P := by
  have hkd : k₁.kernel_directory = s.kernel.kernel_directory := by rw [hc.spaces]
  have hdir : t.kernel.directories t.kernel.kernel_directory = k₁.directories k₁.kernel_directory := by
    rw [hc.kernelDir, hc.directory h (d := s.kernel.kernel_directory) (.inl rfl), hc.spaces]
  refine .of_entries hb hn (fun i _ => by rw [hdir]) (fun v hv => ?_) (by rw [hc.kernel]; rfl)
    (by rw [hc.kernel]; exact ⟨rfl, rfl⟩)
  unfold Kernel.entryAt
  rw [hdir]
  dsimp only
  split
  · rename_i h0
    have hlow := hb.low (v / 1024) (by omega) h0
    have hdlow := hc.low
    rw [hc.kernel]
    exact clear_page (k := k₁) hc.high (by simp only; omega) (.inl (by simp only; omega))
  · rfl

/-- **A sound step** of the address spaces. -/
theorem Sharing.backs (h : s.Sharing segs) (hb : s.kernel.Backed n) (hn : n ≤ 0xC0000) {op : SpaceOp}
    (hs : s.Sound op) (hstep : s.Step op t) : Backs s.kernel t.kernel n (s.WholePages op) := by
  cases op with
  | clone src =>
    obtain ⟨dir, k₁, segs', hc⟩ := h.clone_shared hs hstep
    obtain ⟨fuel, ha⟩ := hc.alloc
    have h₁ := AllocSound.backs hs hn (by decide) h.tiled.inv hb ha
    exact h₁.trans (hc.backs (P := True) h h₁.backed (by omega)) id fun _ => trivial
  | alloc size al =>
    obtain ⟨th, td⟩ := t
    obtain ⟨⟨-, fuel, p, k', ha, rfl⟩, -⟩ := hstep
    exact AllocSound.backs hs hn (by decide) h.tiled.inv hb ha
  | free p =>
    obtain ⟨th, td⟩ := t
    obtain ⟨⟨⟨m, hm⟩, k', hk, rfl⟩, -⟩ := hstep
    obtain ⟨g, hg, hgl, hgp, -⟩ := h.tiled.live _ hm
    simp only at hgp
    subst hgp
    obtain ⟨segs₁, pre, left, right, post, hi₁, -, ha, hpost, hroom⟩ := FreeSound.around hs h.tiled.inv hg
    obtain ⟨k'', M, hk'', hr⟩ := free_inside hi₁ ha hgl hpost hroom
    obtain rfl := Option.some.inj (hk.symm.trans hk'')
    exact .of_heap hb (by omega) hr.same hr.bounds
  | switch dir =>
    obtain ⟨-, rfl⟩ := hstep
    exact .of_entries hb (by omega) (fun _ _ => rfl) (fun _ _ => rfl) rfl ⟨rfl, rfl⟩

end Spaces

namespace Forking

variable {s t : Forking} {top n : Nat}

/-- Each growth of the heap that the call makes is one of whole pages. -/
def WholePages (s : Forking) : ForkingOp → Prop
  | .call op => s.spaces.WholePages op
  | .fork => s.spaces.WholePages (.clone s.kernel.current_directory) ∧
      ∀ v, s.spaces.Step (.clone s.kernel.current_directory) v → v.WholePages (.alloc taskSize false)
  | .switch_task => True

/-- **A sound step** of the kernel keeps the frames apart and what is mapped in place. -/
theorem Inv.backs (h : s.Inv top) (hb : s.kernel.Backed n) (hn : n ≤ 0xC0000) {op : ForkingOp} (hs : s.Sound op)
    (hstep : s.Step op t) : Backs s.kernel t.kernel n (s.WholePages op) := by
  obtain ⟨segs, hsh⟩ := h.sharing
  cases op with
  | call op =>
    exact hsh.backs hb hn hs.spaces hstep.1
  | fork =>
    obtain ⟨m, resume, d, p, id, -, ⟨v, hclone, -, halloc, -⟩, -⟩ := hstep
    obtain ⟨dir, k₁, segs₁, hc⟩ := hsh.clone_shared hs.1 hclone
    have hsound : v.Sound (.alloc taskSize false) := hs.2 v hclone
    have hdir : s.spaces.Sound (.clone s.kernel.current_directory) := hs.1
    have h₁ := hsh.backs hb hn hdir hclone
    exact h₁.trans ((hc.sharing hsh hclone.1).backs h₁.backed hn hsound halloc) And.left fun hw => hw.2 v hclone
  | switch_task =>
    have hsound : s.spaces.Sound (.switch t.tasks.machine.current_directory) := trivial
    exact hsh.backs hb hn hsound hstep.2

end Forking

end Loris
