import Loris.Contraction
import Loris.Expansion
import Loris.Runs
/-!
# ExpandPages — the pages that `Expand` maps

`Expand` rounds the new length up to a page only when it is odd, and maps one page for each step of its loop.  From
page-aligned lengths on every page below the new end gets its frame; a length that is neither odd nor a multiple of the
page size leaves `m_endAddress` inside a page (`expand_maps`).
-/
namespace Loris

open ByteMem Runs

namespace Kernel

variable {k k' : Kernel}

theorem allocFrame_cases {p : PagePtr} {a b : Bool} (h : k.allocFrame p a b = some k') :
    (k.page p).frame ≠ 0 ∧ (∀ q, k'.page q = k.page q) ∧ k'.frames = k.frames ∨
    (k.page p).frame = 0 ∧ (∀ q, q ≠ p → k'.page q = k.page q) ∧ ∃ idx, k.frames.firstFrame = some idx ∧
      k'.frames = k.frames.setFrame (idx * 0x1000) ∧ k'.page p = { k.page p with
        present := true
        readWrite := b
        user := !a
        frame := idx.setWidth 20 } := by
  unfold allocFrame Frames.allocFrame at h
  obtain ⟨r, hr, rfl⟩ := Option.map_eq_some_iff.1 h
  by_cases hp : (k.page p).frame ≠ 0
  · rw [if_pos hp] at hr
    obtain rfl := Option.some.inj hr
    refine .inl ⟨hp, fun q => ?_, rfl⟩
    show (k.setPage p (k.page p)).page q = _
    rw [page_setPage]
    split
    · rename_i hq; rw [hq]
    · rfl
  · rw [if_neg hp] at hr
    refine .inr ⟨not_not.1 hp, ?_⟩
    cases hf : k.frames.firstFrame with
    | none => rw [hf] at hr; cases hr
    | some idx =>
      simp only [hf] at hr
      split at hr
      · cases hr
      · obtain rfl := Option.some.inj hr
        refine ⟨fun q hq => ?_, idx, rfl, rfl, ?_⟩
        · show (k.setPage p _).page q = _
          rw [page_setPage, if_neg hq]
        · show (k.setPage p _).page p = _
          rw [page_setPage, if_pos rfl]

/-- **The bitmap of a running system**: frame 0 is taken, and every frame's number fits a page entry. -/
structure FramesReady (b : Frames) : Prop where
  zero : b.bit 0 = true
  few : b.nframes.toNat ≤ 2 ^ 20

theorem FramesReady.new {b : Frames} {idx : U32} (h : FramesReady b) (hf : b.firstFrame = some idx) :
    FramesReady (b.setFrame (idx * 0x1000)) ∧ idx.setWidth 20 ≠ (0 : BitVec 20) := by
  obtain ⟨hlt, hbit, -⟩ := Frames.firstFrame_spec hf
  have hle := b.scanned_le
  have hfew := h.few
  refine ⟨⟨by rw [Frames.bit_setFrame, h.zero]; rfl, hfew⟩, fun h0 => ?_⟩
  have h1 : idx.toNat % 2 ^ 20 = 0 := (BitVec.toNat_setWidth 20 idx).symm.trans (congrArg BitVec.toNat h0)
  have h2 : idx.toNat = 0 := by omega
  rw [h2, h.zero] at hbit
  cases hbit

/-- **What the loop of `Expand` does to page entries**: one with a frame stays, and a new one has the heap's flags. -/
structure PagesGrown (k k' : Kernel) (supervisor readonly : Bool) : Prop where
  ready : FramesReady k'.frames
  kept : ∀ q, (k.page q).frame ≠ 0 → k'.page q = k.page q
  new : ∀ q, (k.page q).frame = 0 → (k'.page q).frame ≠ 0 →
    (k'.page q).present = true ∧ (k'.page q).readWrite = !readonly ∧ (k'.page q).user = !supervisor

theorem PagesGrown.refl {a b : Bool} (h : FramesReady k.frames) : PagesGrown k k a b :=
  ⟨h, fun _ _ => rfl, fun _ h0 h1 => absurd h0 h1⟩

theorem PagesGrown.trans {k₁ k₂ k₃ : Kernel} {a b : Bool} (h₁ : PagesGrown k₁ k₂ a b) (h₂ : PagesGrown k₂ k₃ a b) :
    PagesGrown k₁ k₃ a b := by
  refine ⟨h₂.ready, fun q hq => ?_, fun q h0 h3 => ?_⟩
  · rw [h₂.kept q (by rw [h₁.kept q hq]; exact hq), h₁.kept q hq]
  · by_cases h2 : (k₂.page q).frame = 0
    · exact h₂.new q h2 h3
    · rw [h₂.kept q h2]
      exact h₁.new q h0 h2

theorem allocFrame_grown {p : PagePtr} {a b : Bool} (hr : FramesReady k.frames) (h : k.allocFrame p a (!b) = some k') :
    PagesGrown k k' a b ∧ (k'.page p).frame ≠ 0 := by
  rcases allocFrame_cases h with ⟨hp, hq, hf⟩ | ⟨hp, hq, idx, hidx, hf, hpage⟩
  · exact ⟨⟨by rw [hf]; exact hr, fun q _ => hq q, fun q h0 h1 => absurd h0 (by rw [← hq q]; exact h1)⟩,
      by rw [hq]; exact hp⟩
  · obtain ⟨hr', hne⟩ := hr.new hidx
    refine ⟨⟨by rw [hf]; exact hr', fun q h0 => hq q fun he => h0 (by rw [he]; exact hp), fun q h0 h1 => ?_⟩,
      by rw [hpage]; exact hne⟩
    by_cases he : q = p
    · subst he
      rw [hpage]
      exact ⟨rfl, rfl, rfl⟩
    · rw [hq q he] at h1
      exact absurd h0 h1

theorem lookupPage_congr {x y dir : U32} (h : x.toNat / 0x1000 = y.toNat / 0x1000) :
    k.lookupPage x dir = k.lookupPage y dir := by
  have he : x / 0x1000 = y / 0x1000 := BitVec.eq_of_toNat_eq (by
    rw [Frames.toNat_page, Frames.toNat_page, h])
  unfold lookupPage tableIndex pageIndex
  rw [he]

/-- **The loop of `Expand` maps every page** from the one of its first offset to the new end. -/
theorem expandLoop_grown {f : Allocator} {e : U32} : ∀ {n : Nat} {k k' : Kernel} {i : U32},
    k.heap.startAddress.toNat % 0x1000 = 0 → e.toNat % 0x1000 = 0 → k.heap.startAddress.toNat + e.toNat < 2 ^ 32 →
    FramesReady k.frames → k.tablesPresent e n i = true → expandLoop f e n k i = some k' →
    PagesGrown k k' k.heap.supervisor k.heap.readonly ∧ ∀ j : U32, i.toNat / 0x1000 ≤ j.toNat / 0x1000 →
    j.toNat < e.toNat →
      ∃ q, k.lookupPage (k.heap.startAddress + j) k.kernel_directory = some q ∧ (k'.page q).frame ≠ 0
  | 0, _, _, _, _, _, _, _, _, h => by cases h
  | n + 1, k, k', i, hs, he, hw, hr, ht, h => by
    unfold expandLoop at h
    unfold tablesPresent at ht
    by_cases hi : i < e
    · rw [if_pos hi] at h ht
      rw [Bool.and_eq_true] at ht
      obtain ⟨p, hp⟩ := Option.isSome_iff_exists.1 ht.1
      simp only [getPage, hp, Option.bind_some] at h
      obtain ⟨k₁, hk₁, h⟩ := Option.bind_eq_some_iff.1 h
      have hsame := allocFrame_same hk₁
      obtain ⟨hg₁, hp₁⟩ := allocFrame_grown hr hk₁
      have hh : k₁.heap = k.heap := by rw [hsame]
      have hd : k₁.kernel_directory = k.kernel_directory := by rw [hsame]
      obtain ⟨hg₂, hpages⟩ := expandLoop_grown (by rw [hh]; exact hs) he (by rw [hh]; exact hw) hg₁.ready
        ((tablesPresent_same hsame e n _).trans ht.2) h
      rw [hh] at hg₂ hpages
      refine ⟨hg₁.trans hg₂, fun j hij hj => ?_⟩
      rw [BitVec.lt_def] at hi
      have hi' : (i + 0x1000).toNat = i.toNat + 0x1000 := by rw [BitVec.toNat_add]; simp; omega
      by_cases hpg : i.toNat / 0x1000 = j.toNat / 0x1000
      · refine ⟨p, ?_, by rw [hg₂.kept p hp₁]; exact hp₁⟩
        rw [← hp]
        exact lookupPage_congr (by rw [BitVec.toNat_add, BitVec.toNat_add]; omega)
      · obtain ⟨q, hq, hqf⟩ := hpages j (by omega) hj
        rw [lookupPage_same hsame, hd] at hq
        exact ⟨q, hq, hqf⟩
    · rw [if_neg hi] at h
      obtain rfl := Option.some.inj h
      rw [BitVec.lt_def] at hi
      exact ⟨.refl hr, fun j hij hj => by omega⟩

/-- The page of `x` holds a frame. -/
def HasFrame (k : Kernel) (x : U32) : Prop := ∃ fr, k.frameAt x = some fr ∧ fr ≠ 0

/-- **What `Expand(n)` is to leave** of a heap with the flags `supervisor` and `readonly`: the end on a page boundary
and `n` bytes up at least; every page below the end with a frame; and the new ones with the flags. -/
structure ExpandedWell (supervisor readonly : Bool) (k : Kernel) (n : U32) (k' : Kernel) : Prop where
  aligned : k'.heap.endAddress.toNat % 0x1000 = 0
  large : k.heap.startAddress.toNat + n.toNat ≤ k'.heap.endAddress.toNat
  held : ∀ x : U32, k.heap.startAddress.toNat ≤ x.toNat → x.toNat < k'.heap.endAddress.toNat → k'.HasFrame x
  flags : ∀ x : U32, k.heap.startAddress.toNat ≤ x.toNat → x.toNat < k'.heap.endAddress.toNat → ¬ k.HasFrame x →
    ∃ q, k'.lookupPage x k'.kernel_directory = some q ∧ (k'.page q).present = true ∧
      (k'.page q).readWrite = !readonly ∧ (k'.page q).user = !supervisor

/-- A call of `Expand(n)` that does not wrap around and returns. -/
def ExpandStep (f : Allocator) (k : Kernel) (n : U32) (k' : Kernel) : Prop :=
  k.heap.startAddress.toNat + (n.toNat + 0xFFF) / 0x1000 * 0x1000 < 2 ^ 32 ∧ expand f k n = some k'

/-- **`Expand(n)` maps what it claims**: `n` is odd, so that it is rounded up, or a number of whole pages; the page
tables it comes to are there; and the heap has the flags it was constructed with, unless there is nothing to map. -/
structure ExpandFits (supervisor readonly : Bool) (k : Kernel) (n : U32) : Prop where
  rounded : n.toNat % 2 = 1 ∨ n.toNat % 0x1000 = 0
  tables : k.tablesPresent (expandSize n) (0x100000 + 1) (k.heap.endAddress - k.heap.startAddress) = true
  flags : (∃ x : U32, k.heap.startAddress.toNat ≤ x.toNat ∧ x.toNat < (k.heap.startAddress + expandSize n).toNat ∧
    ¬ k.HasFrame x) → k.heap.supervisor = supervisor ∧ k.heap.readonly = readonly

theorem toNat_expandSize {n : U32} (h : (n.toNat + 0xFFF) / 0x1000 * 0x1000 < 2 ^ 32) :
    (expandSize n).toNat = if n.toNat % 2 = 1 then (n.toNat + 0xFFF) / 0x1000 * 0x1000 else n.toNat := by
  have hp := toNat_and_page n
  have hodd : maskTest n = true ↔ n.toNat % 2 = 1 := by
    have h1 := toNat_and_one n
    unfold maskTest
    rw [bne_iff_ne, ne_eq, ← BitVec.toNat_inj, h1]
    show ¬ n.toNat % 2 = 0 ↔ _
    omega
  unfold expandSize
  by_cases hm : n.toNat % 2 = 1
  · rw [if_pos (hodd.2 hm), if_pos hm, BitVec.toNat_add, hp]
    show (n.toNat / 0x1000 * 0x1000 + 0x1000) % 2 ^ 32 = _
    omega
  · rw [if_neg (fun h => hm (hodd.1 h)), if_neg hm]

theorem ExpandStep.bounds {f : Allocator} {n : U32} (h : ExpandStep f k n k') :
    (expandSize n).toNat = (if n.toNat % 2 = 1 then (n.toNat + 0xFFF) / 0x1000 * 0x1000 else n.toNat) ∧
      (k.heap.startAddress + expandSize n).toNat = k.heap.startAddress.toNat + (expandSize n).toNat := by
  have hw := h.1
  have he := toNat_expandSize (n := n) (by omega)
  refine ⟨he, ?_⟩
  rw [BitVec.toNat_add]
  split at he <;> omega

/-- **The end is on a page boundary exactly when the length is rounded or needs no rounding.** -/
theorem ExpandStep.aligned_iff {f : Allocator} {n : U32} (hs : k.heap.startAddress.toNat % 0x1000 = 0)
    (ht : k.tablesPresent (expandSize n) (0x100000 + 1) (k.heap.endAddress - k.heap.startAddress) = true)
    (h : ExpandStep f k n k') :
    k'.heap.endAddress.toNat % 0x1000 = 0 ↔ n.toNat % 2 = 1 ∨ n.toNat % 0x1000 = 0 := by
  obtain ⟨he, hsum⟩ := h.bounds
  rw [(expand_same ht h.2).2]
  simp only
  rw [hsum, he]
  split <;> omega

/-- A heap to expand: its start is on a page boundary and not above its end, and its pages hold frames. -/
structure PagesHeld (k : Kernel) : Prop where
  start : k.heap.startAddress.toNat % 0x1000 = 0
  le : k.heap.startAddress.toNat ≤ k.heap.endAddress.toNat
  held : ∀ x : U32, k.heap.startAddress.toNat ≤ x.toNat → x.toNat < k.heap.endAddress.toNat → k.HasFrame x
  ready : FramesReady k.frames

theorem frameAt_eq {x : U32} {q : PagePtr} (h : k.lookupPage x k.kernel_directory = some q) :
    k.frameAt x = some (k.page q).frame := by
  unfold frameAt
  rw [h, Option.map_some]

theorem expand_loop {f : Allocator} {n : U32} (h : expand f k n = some k') : ∃ k₁,
    expandLoop f (expandSize n) (0x100000 + 1) k (k.heap.endAddress - k.heap.startAddress) = some k₁ ∧
      k'.pageTables = k₁.pageTables ∧ k'.directories = k₁.directories ∧ k'.kernel_directory = k₁.kernel_directory ∧
      k'.frames = k₁.frames := by
  unfold expand at h
  obtain ⟨k₁, hk₁, rfl⟩ := Option.map_eq_some_iff.1 h
  exact ⟨k₁, hk₁, rfl, rfl, rfl, rfl⟩

/-- **One call of `Expand` that fits.** -/
theorem ExpandFits.step {f : Allocator} {n : U32} {supervisor readonly : Bool} (hh : PagesHeld k)
    (hf : ExpandFits supervisor readonly k n) (h : ExpandStep f k n k') :
    ExpandedWell supervisor readonly k n k' ∧ PagesHeld k' := by
  obtain ⟨he, hsum⟩ := h.bounds
  have hal := (h.aligned_iff hh.start hf.tables).2 hf.rounded
  obtain ⟨-, hheap⟩ := expand_same hf.tables h.2
  have hend : k'.heap.endAddress.toNat = k.heap.startAddress.toNat + (expandSize n).toNat := by rw [hheap]; exact hsum
  have hstart : k'.heap.startAddress = k.heap.startAddress := by rw [hheap]
  have hs := hh.start
  have hlt := k'.heap.endAddress.isLt
  obtain ⟨k₁, hk₁, hpt, hdir, hkd, hfr⟩ := expand_loop h.2
  have hsame := expandLoop_same hf.tables hk₁
  have hlook : ∀ x, k'.lookupPage x k'.kernel_directory = k.lookupPage x k.kernel_directory := fun x => by
    have h1 := lookupPage_same hsame x k.kernel_directory
    unfold lookupPage at h1 ⊢
    rw [hdir, hkd, show k₁.kernel_directory = k.kernel_directory by rw [hsame]]
    exact h1
  have hpage : ∀ q, k'.page q = k₁.page q := fun q => by unfold page; rw [hpt]
  obtain ⟨hg, hloop⟩ := expandLoop_grown hs (by split at he <;> omega) (by omega) hh.ready hf.tables hk₁
  have hheld : ∀ x : U32, k.heap.startAddress.toNat ≤ x.toNat → x.toNat < k'.heap.endAddress.toNat → ∃ q,
      k'.lookupPage x k'.kernel_directory = some q ∧ (k'.page q).frame ≠ 0 := fun x hx hx' => by
    rw [hlook]
    by_cases hold : (k.heap.endAddress - k.heap.startAddress).toNat / 0x1000 ≤
        (x.toNat - k.heap.startAddress.toNat) / 0x1000
    · have hj : (x - k.heap.startAddress).toNat = x.toNat - k.heap.startAddress.toNat := by rw [BitVec.toNat_sub]; omega
      obtain ⟨q, hq, hqf⟩ := hloop (x - k.heap.startAddress) (by rw [hj]; exact hold) (by omega)
      rw [show k.heap.startAddress + (x - k.heap.startAddress) = x by bv_omega] at hq
      exact ⟨q, hq, by rw [hpage]; exact hqf⟩
    · -- the page was there before
      have hle := hh.le
      have hlen : (k.heap.endAddress - k.heap.startAddress).toNat =
          k.heap.endAddress.toNat - k.heap.startAddress.toNat := by rw [BitVec.toNat_sub]; omega
      obtain ⟨fr, hfr, hne⟩ := hh.held x hx (by omega)
      obtain ⟨q, hq, rfl⟩ := Option.map_eq_some_iff.1 hfr
      exact ⟨q, hq, by rw [hpage, hg.kept q hne]; exact hne⟩
  have hmapped : ∀ x : U32, k.heap.startAddress.toNat ≤ x.toNat → x.toNat < k'.heap.endAddress.toNat → k'.HasFrame x :=
    fun x hx hx' => by
      obtain ⟨q, hq, hne⟩ := hheld x hx hx'
      exact ⟨_, frameAt_eq hq, hne⟩
  refine ⟨⟨hal, ?_, hmapped, fun x hx hx' hnew => ?_⟩,
    ⟨by rw [hstart]; exact hs, by rw [hstart]; omega, fun x hx hx' => hmapped x (by rw [← hstart]; exact hx) hx', ?_⟩⟩
  · split at he <;> omega
  · obtain ⟨q, hq, hne⟩ := hheld x hx hx'
    obtain ⟨hsv, hro⟩ := hf.flags ⟨x, hx, by rw [hsum, ← hend]; exact hx', hnew⟩
    have h0 : (k.page q).frame = 0 := by
      by_contra h0
      exact hnew ⟨_, frameAt_eq ((hlook x).symm.trans hq), h0⟩
    rw [hpage] at hne
    have hflags := hg.new q h0 hne
    rw [hsv, hro] at hflags
    exact ⟨q, hq, by rw [hpage]; exact hflags⟩
  · rw [hfr]; exact hg.ready

/-- Enough frames for the pages from the old length on. -/
def pagesToMap (k : Kernel) (n : U32) : Nat :=
  ((expandSize n).toNat - (k.heap.endAddress - k.heap.startAddress).toNat + 0xFFF) / 0x1000

/-- **A call of `Expand` with frames for its pages returns.** -/
theorem ExpandFits.returns {f : Allocator} {n : U32} {supervisor readonly : Bool} (hh : PagesHeld k)
    (hf : ExpandFits supervisor readonly k n)
    (hw : k.heap.startAddress.toNat + (n.toNat + 0xFFF) / 0x1000 * 0x1000 < 2 ^ 32)
    (hfree : k.pagesToMap n ≤ k.frames.free) : ∃ k', ExpandStep f k n k' := by
  have hs := hh.start
  have hle := hh.le
  have hlen : (k.heap.endAddress - k.heap.startAddress).toNat =
      k.heap.endAddress.toNat - k.heap.startAddress.toNat := by rw [BitVec.toNat_sub]; omega
  have he := toNat_expandSize (n := n) (by omega)
  have hround : (expandSize n).toNat % 0x1000 = 0 := by
    have := hf.rounded
    split at he <;> omega
  have hew : (expandSize n).toNat < 2 ^ 32 - 0xFFF := by have := (expandSize n).isLt; omega
  unfold pagesToMap at hfree
  obtain ⟨k', hk', -⟩ := expand_of_free (f := f) hf.tables (p := ((expandSize n).toNat -
    (k.heap.endAddress - k.heap.startAddress).toNat + 0xFFF) / 0x1000) (by omega) (by omega) hfree
  exact ⟨k', hw, hk'⟩

end Kernel

open Kernel in
/-- **`Expand` maps what it claims** along every run whose calls fit: each call that finds frames for its pages returns,
and leaves the heap mapped up to its new end. -/
theorem expand_maps {f : Allocator} {supervisor readonly : Bool} {k : Kernel} (hk : PagesHeld k) {ns : List U32}
    (hfits : ∀ l₁ n l₂ t, ns = l₁ ++ n :: l₂ → Reaches (ExpandStep f) k l₁ t → ExpandFits supervisor readonly t n) :
    ∀ l₁ n l₂ t, ns = l₁ ++ n :: l₂ → Reaches (ExpandStep f) k l₁ t →
      (t.heap.startAddress.toNat + (n.toNat + 0xFFF) / 0x1000 * 0x1000 < 2 ^ 32 → t.pagesToMap n ≤ t.frames.free →
        ∃ u, ExpandStep f t n u) ∧
      ∀ u, ExpandStep f t n u → ExpandedWell supervisor readonly t n u := by
  have hrun : Along (ExpandStep f) PagesHeld k ns :=
    (Runs.guarded_iff.2 hfits).along (fun _ _ _ hh hf h => (hf.step hh h).2) hk
  intro l₁ n l₂ t hl hr
  have hh := along_iff.1 hrun l₁ (n :: l₂) t hl hr
  have hf := hfits l₁ n l₂ t hl hr
  exact ⟨fun hw hfree => hf.returns hh hw hfree, fun u hu => (hf.step hh hu).1⟩

/-- A kernel over one page table for the heap, whose first `0x81` pages hold frames. -/
def tableHeap : Kernel :=
  { Kernel.ofHeap ⟨⟨0xC0000000, 0, heapIndexSize⟩, 0xC0080000, 0xC0081000, 0, true, false⟩ (fun _ => 0) with
    directories := fun _ => ⟨fun i => if i = 768 then 1 else 0, fun _ => 0, 0⟩
    frames := ⟨0x1000, fun i => if i < 5 then 0xFFFFFFFF else 0⟩
    pageTables := fun _ i => if i < 0x81 then ⟨true, true, false, false, false, 0, BitVec.ofNat 20 (i + 1)⟩
      else Page.zero }

theorem tableHeap_lookup {x : U32} (hlo : 0xC0080000 ≤ x.toNat) (hhi : x.toNat < 0xC0081000) :
    tableHeap.lookupPage x tableHeap.kernel_directory = some ⟨1, 0x80⟩ := by
  have hpg : x / 0x1000 = 0xC0080 := BitVec.eq_of_toNat_eq (by
    rw [Frames.toNat_page]
    show x.toNat / 0x1000 = 0xC0080
    omega)
  unfold Kernel.lookupPage Kernel.tableIndex Kernel.pageIndex
  rw [hpg]
  rfl

theorem tableHeap_held : Kernel.PagesHeld tableHeap := by
  refine ⟨by decide, by decide, fun x hlo hhi => ?_, ⟨by decide, by decide⟩⟩
  exact ⟨_, Kernel.frameAt_eq (tableHeap_lookup hlo hhi), by decide⟩

open Kernel in
theorem expand_maps_page : ∃ u, ExpandStep (fun _ _ _ => none) tableHeap 0x1801 u ∧
    ExpandedWell true false tableHeap 0x1801 u := by
  suffices h : (0xC0080000 + 0x2000 < 2 ^ 32 → tableHeap.pagesToMap 0x1801 ≤ tableHeap.frames.free →
      ∃ u, ExpandStep (fun _ _ _ => none) tableHeap 0x1801 u) ∧
      ∀ u, ExpandStep (fun _ _ _ => none) tableHeap 0x1801 u → ExpandedWell true false tableHeap 0x1801 u by
    obtain ⟨u, hu⟩ := h.1 (by decide) (by decide +kernel)
    exact ⟨u, hu, h.2 u hu⟩
  refine @expand_maps _ _ _ _ tableHeap_held [0x1801] (fun l₁ n l₂ t hl hr => ?_) [] _ [] _ rfl rfl
  obtain ⟨rfl, rfl⟩ : l₁ = [] ∧ n = 0x1801 := by
    cases l₁ with
    | nil => simp only [List.nil_append, List.cons.injEq] at hl; exact ⟨rfl, hl.1.symm⟩
    | cons a l => simp at hl
  obtain rfl : _ = t := hr
  exact ⟨by decide, by decide +kernel, fun _ => ⟨rfl, rfl⟩⟩

open Kernel in
/-- `Expand(0x1800)` ends inside a page, and `Expand(0x2800)` then steps over the page behind. -/
theorem expand_skips_page : ∃ t u, ExpandStep (fun _ _ _ => none) tableHeap 0x1800 t ∧
    ExpandStep (fun _ _ _ => none) t 0x2800 u ∧ t.heap.endAddress.toNat % 0x1000 ≠ 0 ∧
    ¬ ExpandedWell true false t 0x2800 u ∧ u.heap.endAddress = 0xC0082800 ∧ u.frameAt 0xC0082000 = some 0 := by
  have hrun : ((expand (fun _ _ _ => none) tableHeap 0x1800).bind fun t =>
      (expand (fun _ _ _ => none) t 0x2800).map fun u => (t.heap.startAddress, t.heap.endAddress, u.heap.endAddress,
        u.frameAt 0xC0082000)) = some (0xC0080000, 0xC0081800, 0xC0082800, some 0) := by decide +kernel
  obtain ⟨t, ht, hu⟩ := Option.bind_eq_some_iff.1 hrun
  obtain ⟨u, hu, he⟩ := Option.map_eq_some_iff.1 hu
  simp only [Prod.mk.injEq] at he
  obtain ⟨hst, hte, hue, hfr⟩ := he
  refine ⟨t, u, ⟨by decide, ht⟩, ⟨by rw [hst]; decide, hu⟩, by rw [hte]; decide, fun h => ?_, hue, hfr⟩
  obtain ⟨fr, hfr', hne⟩ := h.held 0xC0082000 (by rw [hst]; decide) (by rw [hue]; decide)
  rw [hfr, Option.some.injEq] at hfr'
  exact hne hfr'.symm

end Loris
