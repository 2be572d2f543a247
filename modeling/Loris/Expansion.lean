import Loris.AllocFit
import Loris.Kernel
/-!
# Expansion — what `Alloc` does to the heap when no hole was found

`Expand` moves `m_endAddress` up; `adjust` then grows the endmost hole of the index by as much, or makes a hole at the
old end when the index is empty.  The invariant survives when the endmost hole ends at the old end, or there is none,
and only then: `grow_iff`.
-/
namespace Loris

open ByteMem Cut

/-! ## `Expand` -/

namespace Kernel

/-- Every page table that the loop of `Expand` comes to from offset `i` on is there, so that it makes none. -/
def tablesPresent (k : Kernel) (new_size : U32) : Nat → U32 → Bool
  | 0, _ => true
  | n + 1, i =>
    if i < new_size then
      (k.lookupPage (k.heap.startAddress + i) k.kernel_directory).isSome && tablesPresent k new_size n (i + 0x1000)
    else true

theorem tablesPresent_same {k k' : Kernel} (hs : SameButPages k k') (new_size : U32) : ∀ (n : Nat) (i : U32),
    k'.tablesPresent new_size n i = k.tablesPresent new_size n i
  | 0, _ => rfl
  | n + 1, i => by
    unfold tablesPresent
    rw [tablesPresent_same hs new_size n (i + 0x1000), hs]
    rfl

/-- **Over present tables the loop of `Expand` touches frames and page entries only.** -/
theorem expandLoop_same {alloc : Allocator} {new_size : U32} : ∀ {n : Nat} {k k' : Kernel} {i : U32},
    k.tablesPresent new_size n i = true → expandLoop alloc new_size n k i = some k' → SameButPages k k'
  | 0, _, _, _, _, h => by cases h
  | n + 1, k, k', i, ht, h => by
    unfold expandLoop at h
    unfold tablesPresent at ht
    by_cases hi : i < new_size
    · rw [if_pos hi] at h ht
      rw [Bool.and_eq_true] at ht
      obtain ⟨p, hp⟩ := Option.isSome_iff_exists.1 ht.1
      simp only [getPage, hp, Option.bind_some] at h
      obtain ⟨k₁, hk₁, h⟩ := Option.bind_eq_some_iff.1 h
      have hs := allocFrame_same hk₁
      exact hs.trans (expandLoop_same ((tablesPresent_same hs new_size n _).trans ht.2) h)
    · rw [if_neg hi] at h
      obtain rfl := Option.some.inj h
      rfl

theorem allocFrame_of_free {k : Kernel} (p : PagePtr) (a b : Bool) (h : 0 < k.frames.free) :
    ∃ k', k.allocFrame p a b = some k' ∧ k.frames.free ≤ k'.frames.free + 1 := by
  obtain ⟨r, hr, hf⟩ := Frames.allocFrame_of_free (k.page p) a b h
  refine ⟨{ k.setPage p r.2 with frames := r.1 }, ?_, hf⟩
  unfold allocFrame
  rw [hr]; rfl

/-- **Over present tables, with a free frame for each of its `p` pages, the loop of `Expand` ends**, and takes no more
frames. -/
theorem expandLoop_of_free {f : Allocator} {e : U32} : ∀ (n : Nat) {p : Nat} {k : Kernel} {i : U32},
    k.tablesPresent e n i = true → p < n → e.toNat ≤ i.toNat + 0x1000 * p →
    i.toNat + 0x1000 * p < 2 ^ 32 → p ≤ k.frames.free →
    ∃ k', expandLoop f e n k i = some k' ∧ k.frames.free ≤ k'.frames.free + p
  | 0, _, _, _, _, hn, _, _, _ => absurd hn (Nat.not_lt_zero _)
  | n + 1, p, k, i, ht, hn, hle, hw, hf => by
    unfold expandLoop
    unfold tablesPresent at ht
    by_cases hi : i < e
    · rw [if_pos hi] at ht ⊢
      rw [Bool.and_eq_true] at ht
      obtain ⟨q, hq⟩ := Option.isSome_iff_exists.1 ht.1
      have hp : 0 < p := by rw [BitVec.lt_def] at hi; omega
      obtain ⟨k₁, hk₁, hf₁⟩ := allocFrame_of_free q k.heap.supervisor (!k.heap.readonly) (Nat.lt_of_lt_of_le hp hf)
      have hi' : (i + 0x1000).toNat = i.toNat + 0x1000 := by rw [BitVec.toNat_add]; simp; omega
      simp only [getPage, hq, Option.bind_some, hk₁]
      obtain ⟨k₂, hk₂, hf₂⟩ := expandLoop_of_free n (p := p - 1)
        ((tablesPresent_same (allocFrame_same hk₁) e n _).trans ht.2) (by omega) (by omega) (by omega) (by omega)
      exact ⟨k₂, hk₂, by omega⟩
    · rw [if_neg hi]; exact ⟨k, rfl, by omega⟩

theorem expand_of_free {f : Allocator} {k : Kernel} {e : U32} {p : Nat}
    (ht : k.tablesPresent (expandSize e) (0x100000 + 1) (k.heap.endAddress - k.heap.startAddress) = true)
    (hp : (expandSize e).toNat ≤ (k.heap.endAddress - k.heap.startAddress).toNat + 0x1000 * p)
    (hw : (k.heap.endAddress - k.heap.startAddress).toNat + 0x1000 * p < 2 ^ 32) (hf : p ≤ k.frames.free) :
    ∃ k', expand f k e = some k' ∧ k.frames.free ≤ k'.frames.free + p := by
  obtain ⟨k₁, hk₁, hf₁⟩ := expandLoop_of_free (f := f) _ ht (by omega) hp hw hf
  exact ⟨_, Option.map_eq_some_iff.2 ⟨k₁, hk₁, rfl⟩, hf₁⟩

/-- **`Expand` over present tables moves `m_endAddress`** and leaves the rest of the heap, and memory, alone. -/
theorem expand_same {alloc : Allocator} {k k' : Kernel} {new_size : U32}
    (ht : k.tablesPresent (expandSize new_size) (0x100000 + 1) (k.heap.endAddress - k.heap.startAddress) = true)
    (h : expand alloc k new_size = some k') :
    k'.mem = k.mem ∧ k'.heap = { k.heap with endAddress := k.heap.startAddress + expandSize new_size } := by
  unfold expand at h
  obtain ⟨k₁, hk₁, rfl⟩ := Option.map_eq_some_iff.1 h
  have hs := expandLoop_same ht hk₁
  rw [hs]
  exact ⟨rfl, rfl⟩

theorem expand_end {alloc : Allocator} {k k' : Kernel} {new_size : U32} (h : expand alloc k new_size = some k') :
    k'.heap.endAddress = k'.heap.startAddress + expandSize new_size := by
  unfold expand at h
  obtain ⟨k₁, -, rfl⟩ := Option.map_eq_some_iff.1 h
  rfl

end Kernel

/-! ## The endmost header -/

namespace Heap

variable {h : Heap} {m : Mem}

theorem endmostFrom_spec : ∀ (k i : Nat) (acc : Option Nat × U32),
    acc.2 ≤ (h.endmostFrom m k i acc).2 ∧
    (∀ j, i ≤ j → j < i + k → h.index.getItemAtIndex m j ≤ (h.endmostFrom m k i acc).2) ∧
    (h.endmostFrom m k i acc = acc ∨
      ∃ j, i ≤ j ∧ j < i + k ∧ h.endmostFrom m k i acc = (some j, h.index.getItemAtIndex m j))
  | 0, i, acc => ⟨BitVec.le_refl _, by omega, .inl rfl⟩
  | k + 1, i, acc => by
    unfold endmostFrom
    by_cases hgt : h.index.getItemAtIndex m i > acc.2
    · simp only [if_pos hgt]
      obtain ⟨h1, h2, h3⟩ := endmostFrom_spec k (i + 1) (some i, h.index.getItemAtIndex m i)
      refine ⟨BitVec.le_trans (BitVec.le_of_lt hgt) h1, fun j hj hlt => ?_, .inr ?_⟩
      · by_cases hji : j = i
        · subst hji; exact h1
        · exact h2 j (by omega) (by omega)
      · rcases h3 with h3 | ⟨j, hj, hlt, h3⟩
        · exact ⟨i, Nat.le_refl _, by omega, h3⟩
        · exact ⟨j, by omega, by omega, h3⟩
    · simp only [if_neg hgt]
      obtain ⟨h1, h2, h3⟩ := endmostFrom_spec k (i + 1) acc
      refine ⟨h1, fun j hj hlt => ?_, ?_⟩
      · by_cases hji : j = i
        · subst hji; exact BitVec.le_trans (BitVec.not_lt.1 hgt) h1
        · exact h2 j (by omega) (by omega)
      · rcases h3 with h3 | ⟨j, hj, hlt, h3⟩
        · exact .inl h3
        · exact .inr ⟨j, by omega, by omega, h3⟩

/-- **The endmost header** is a listed one that no listed one passes. -/
theorem endmost_some (hsz : 0 < h.index.size.toNat) (hpos : ∀ j, j < h.index.size.toNat →
    h.index.getItemAtIndex m j > 0) :
    ∃ j, j < h.index.size.toNat ∧ (h.endmostFrom m h.index.size.toNat 0 (none, 0)).1 = some j ∧
      ∀ j', j' < h.index.size.toNat → h.index.getItemAtIndex m j' ≤ h.index.getItemAtIndex m j := by
  obtain ⟨-, h2, h3⟩ := endmostFrom_spec (h := h) (m := m) h.index.size.toNat 0 (none, 0)
  rcases h3 with h3 | ⟨j, -, hlt, h3⟩
  · have h4 := h2 0 (Nat.le_refl _) (by omega)
    rw [h3] at h4
    exact absurd (hpos 0 hsz) (BitVec.not_lt.2 h4)
  · rw [h3] at h2 ⊢
    exact ⟨j, by omega, rfl, fun j' hj' => h2 j' (Nat.zero_le _) (by omega)⟩

theorem adjust_empty (e ol nl : U32) (hsz : h.index.size.toNat = 0) :
    h.adjust m e ol nl =
      let m := writeFooter (writeHeader m e true (nl - ol)) (e + (nl - ol) - sizeofFooter) e
      ({ h with index := (h.index.insert (headerLessThan m) m e).1 }, (h.index.insert (headerLessThan m) m e).2) := by
  unfold adjust
  rw [hsz]
  simp only [endmostFrom, headerSize_writeHeader]

theorem adjust_endmost (e ol nl : U32) {j : Nat}
    (hj : (h.endmostFrom m h.index.size.toNat 0 (none, 0)).1 = some j) :
    h.adjust m e ol nl =
      let header := h.index.getItemAtIndex m j
      let size := headerSize m header + (nl - ol)
      (h, writeFooter (setHeaderSize m header size) (header + size - sizeofFooter) header) := by
  unfold adjust
  rw [hj]
  simp only [headerSize_setHeaderSize]

end Heap

theorem Heap.adjust_bounds (h : Heap) (m : Mem) (e ol nl : U32) :
    (h.adjust m e ol nl).1.startAddress = h.startAddress ∧ (h.adjust m e ol nl).1.endAddress = h.endAddress := by
  unfold Heap.adjust; simp only; split <;> exact ⟨rfl, rfl⟩

/-! ## The invariant over the enlarged range -/

theorem Marks.of_index {h h' : Heap} {m : Mem} {base : Nat} {l : List Seg} (hm : Marks h m base l)
    (hi : h'.index = h.index) : Marks h' m base l :=
  ⟨hm.toBody, by rw [hi]; exact hm.index, by rw [hi]; exact hm.size, by rw [hi]; exact hm.cap,
    by rw [hi]; exact hm.below, hm.low⟩

theorem holes_eq_nil {l : List Seg} : holes l = [] ↔ ∀ s ∈ l, s.hole = false := by
  simp [holes]

theorem Marks.live_of_empty {h : Heap} {m : Mem} {base : Nat} {l : List Seg} (hm : Marks h m base l)
    (hempty : h.index.size.toNat = 0) : ∀ s ∈ l, s.hole = false := by
  rw [← holes_eq_nil, ← List.length_eq_zero_iff, hm.length_holes, hempty]

section Adjust

variable {h : Heap} {m : Mem} {base : Nat} {segs pre : List Seg} {y : Seg} {old ol nl : U32}

/-- **With no hole listed, a hole is made at the old end.** -/
theorem adjust_append (hm : Marks h m base segs) (hc : Cuts base old.toNat segs) (hlive : ∀ s ∈ segs, s.hole = false)
    (hd : 20 ≤ (nl - ol).toNat) (he : old.toNat + (nl - ol).toNat = h.endAddress.toNat) :
    ∃ y, Inv (h.adjust m old ol nl).1 (h.adjust m old ol nl).2 base (segs ++ [y]) ∧ y.hole = true ∧ y.tied = true ∧
      Untouched h old.toNat h.endAddress.toNat m (h.adjust m old ol nl).2 := by
  have hsz : h.index.size.toNat = 0 := by
    rw [← OrderedList.length_items h.index m, hm.index.length_eq, holes_eq_nil.2 hlive]; rfl
  let y : Seg := ⟨old, nl - ol, true, true, hd⟩
  have hlt := h.endAddress.isLt
  have hle := hc.le
  have hyw : y.addr.toNat + y.size.toNat < 2 ^ 32 := by simp only [y]; omega
  have hyf := Seg.toNat_footer hyw
  have k1 := keeps_writeHeader m y.addr y.hole y.size (by simp only [y] at hyw ⊢; omega)
  have k2 := keeps_writeFooter (writeHeader m y.addr y.hole y.size) y.footer y.addr (by omega)
  have k := (k1.mono (a := old.toNat) (b := h.endAddress.toNat) (by simp only [y]; omega)
    (by simp only [y]; omega)).trans (k2.mono (by simp only [y] at hyf ⊢; omega) (by simp only [y] at hyf ⊢; omega))
  have hroom : h.index.size.toNat < heapIndexSize.toNat := by rw [hsz]; decide
  have hm1 := (hm.keep k hle fun u hu => .inl (hc.bounds u hu).2.2).addHole (s := y)
    (headerLessThan (writeFooter (writeHeader m y.addr y.hole y.size) y.footer y.addr)) ⟨hle, hyw⟩
    ((headerAt_writeHeader m y hyw).keep k2 hyw (.inl (by simp only [y] at hyf ⊢; omega)))
    (fun _ => footerAt_writeFooter _ y hyw) rfl hroom
  have hadj : h.adjust m old ol nl =
    ({ h with index := (h.index.insert (headerLessThan (writeFooter (writeHeader m y.addr
      y.hole y.size) y.footer y.addr)) (writeFooter (writeHeader m y.addr y.hole y.size) y.footer y.addr) y.addr).1 },
      (h.index.insert (headerLessThan (writeFooter (writeHeader m y.addr y.hole y.size) y.footer y.addr))
        (writeFooter (writeHeader m y.addr y.hole y.size) y.footer y.addr) y.addr).2) := Heap.adjust_empty _ _ _ hsz
  rw [hadj]
  refine ⟨y, ⟨hm1.perm (List.perm_append_comm : ([y] ++ segs).Perm (segs ++ [y])), ?_⟩, rfl, rfl, ?_⟩
  · exact cuts_append.2 ⟨old.toNat, hc, rfl, by simp only [Seg.len_eq, y]; omega, he⟩
  · exact (untouched_of_keeps (h := h) k).trans (untouched_index (OrderedList.keeps_insert _ _ _
      (by have := hm.below; have := hm.low; omega) hroom)) rfl

/-- The endmost header of a heap whose last segment is a hole is that hole's. -/
theorem endmost_last (hm : Marks h m base (pre ++ [y])) (hc : Cuts base old.toNat (pre ++ [y])) (hy : y.hole = true) :
    ∃ j, (h.endmostFrom m h.index.size.toNat 0 (none, 0)).1 = some j ∧ h.index.getItemAtIndex m j = y.addr := by
  have hbase := low_base hm
  obtain ⟨i, hi, hiy⟩ := hm.index_of (s := y) (by simp) hy
  obtain ⟨j, hj, hje, hmax⟩ := Heap.endmost_some (h := h) (m := m) (by omega) fun j hj => by
    obtain ⟨s, hs, -, hsa⟩ := hm.hole_at hj
    have := (hm.within s hs).1
    rw [← hsa, gt_iff_lt, BitVec.lt_def]
    simp; omega
  refine ⟨j, hje, ?_⟩
  obtain ⟨s, hs, -, hsa⟩ := hm.hole_at hj
  have h1 := hmax i hi
  rw [hiy, ← hsa, BitVec.le_def] at h1
  have hsr := s.room
  obtain ⟨_, _, _, hyb, _⟩ := cuts_append.1 hc
  rcases List.mem_append.1 hs with hs | hs
  · have hp := List.pairwise_append.1 hc.pairwise
    have := hp.2.2 s hs y (by simp)
    simp only [Seg.start_eq, Seg.len_eq] at this
    omega
  · rw [← hsa, List.mem_singleton.1 hs]

/-- **A hole that ends at the old end grows**, and gets a footer that points back to it. -/
theorem adjust_extend (hm : Marks h m base (pre ++ [y])) (hc : Cuts base old.toNat (pre ++ [y])) (hy : y.hole = true)
    (he : old.toNat + (nl - ol).toNat = h.endAddress.toNat) :
    ∃ z, Inv (h.adjust m old ol nl).1 (h.adjust m old ol nl).2 base (pre ++ [z]) ∧ z.addr = y.addr ∧
      z.hole = true ∧ z.tied = true ∧ Untouched h y.addr.toNat h.endAddress.toNat m (h.adjust m old ol nl).2 ∧
      (h.adjust m old ol nl).1.index.items (h.adjust m old ol nl).2 = h.index.items m := by
  obtain ⟨j, hj, hjy⟩ := endmost_last hm hc hy
  have hyb := hc.bounds y (by simp)
  have hyr := y.room
  have hlt := h.endAddress.isLt
  obtain ⟨c, hc1, hc2⟩ := cuts_append.1 hc
  obtain ⟨hys, hyl, hye⟩ := hc2
  simp only [Seg.start_eq, Seg.len_eq, cuts_nil] at hyb hys hyl hye
  have hzs : (y.size + (nl - ol)).toNat = y.size.toNat + (nl - ol).toNat := by rw [BitVec.toNat_add]; omega
  let z : Seg := ⟨y.addr, y.size + (nl - ol), true, true, by omega⟩
  have hzw : z.addr.toNat + z.size.toNat < 2 ^ 32 := by simp only [z]; omega
  have hzf := Seg.toNat_footer hzw
  have hyh := hm.header y (by simp)
  have k1 := keeps_setHeaderSize m z.addr z.size (by simp only [z] at hzw ⊢; omega)
  have k2 := keeps_writeFooter (setHeaderSize m z.addr z.size) z.footer z.addr (by omega)
  have k := (k1.mono (a := y.addr.toNat) (b := h.endAddress.toNat) (by simp only [z]; omega)
    (by simp only [z]; omega)).trans (k2.mono (by simp only [z] at hzf ⊢; omega) (by simp only [z] at hzf ⊢; omega))
  have hzh : HeaderAt (setHeaderSize m z.addr z.size) z := by
    have h12 : y.addr.toNat + 12 ≤ 2 ^ 32 := by omega
    exact ⟨(headerMagic_setHeaderSize m z.size h12).trans hyh.1,
      ((isHole_setHeaderSize m z.size h12).trans hyh.2.1).trans hy, headerSize_setHeaderSize _ _ _⟩
  have hm1 : Marks h (writeFooter (setHeaderSize m z.addr z.size) z.footer z.addr) base (z :: pre) :=
    (hm.perm List.perm_append_comm).replaceHole k hyb.1 (fun u hu => .inl (by
      have := hc1.bounds u hu
      simp only [Seg.start_eq, Seg.len_eq] at this; omega)) ⟨hyb.1, hzw⟩
      (hzh.keep k2 hzw (.inl (by simp only [z] at hzf ⊢; omega))) (fun _ => footerAt_writeFooter _ z hzw) hy rfl rfl
  have hadj : h.adjust m old ol nl = (h, writeFooter (setHeaderSize m z.addr z.size) z.footer z.addr) := by
    rw [Heap.adjust_endmost _ _ _ hj]
    simp only [hjy, hyh.2.2]
    rfl
  rw [hadj]
  refine ⟨z, ⟨hm1.perm (List.perm_append_comm : ([z] ++ pre).Perm (pre ++ [z])), ?_⟩, rfl, rfl, rfl,
    untouched_of_keeps k, ?_⟩
  · exact cuts_append.2 ⟨c, hc1, hys, by simp only [Seg.len_eq, z]; omega, by
      simp only [Seg.len_eq, z, cuts_nil]; omega⟩
  · have hsl := hm.slots
    have hbelow := hm.below
    have hsz := hm.size
    exact OrderedList.items_congr (l := h.index) (by omega) k (.inl (by omega))

end Adjust

/-! ## Exactly when -/

/-- What the adjustment is to leave of a heap that ended at `old`: a well-formed heap over a larger range, the live
blocks in it as they were. -/
structure Grown (segs : List Seg) (old : U32) (m : Mem) (h' : Heap) (m' : Mem) (segs' : List Seg) : Prop where
  larger : old.toNat < h'.endAddress.toNat
  wellFormed : WellFormed h' m' segs'
  kept : ∀ s ∈ segs, s.hole = false → s ∈ segs'
  untouched : ∀ s ∈ segs, s.hole = false → ∀ x : U32, s.addr.toNat ≤ x.toNat →
    x.toNat < s.addr.toNat + s.size.toNat → m' x = m x

/-- **The end of the heap takes `d` more bytes**: no segment is a hole and a segment fits into them, or a hole ends
there. -/
def EndTakes (segs : List Seg) (old d : Nat) : Prop :=
  (∀ s ∈ segs, s.hole = false) ∧ 20 ≤ d ∨ ∃ y ∈ segs, y.hole = true ∧ y.addr.toNat + y.size.toNat = old

instance (segs : List Seg) (old d : Nat) : Decidable (EndTakes segs old d) := by unfold EndTakes; infer_instance

section Exact

variable {h : Heap} {m : Mem} {segs segs' : List Seg} {old ol nl : U32}

theorem eq_append_of_end {base e : Nat} {y : Seg} (hc : Cuts base e segs) (hy : y ∈ segs)
    (he : y.addr.toNat + y.size.toNat = e) : ∃ pre, segs = pre ++ [y] := by
  obtain ⟨pre, post, rfl⟩ := List.append_of_mem hy
  have := hc.split.2.2
  rw [show start y + len y = e from he] at this
  rw [this.eq_nil]
  exact ⟨pre, rfl⟩

theorem grown_of_takes (hwf : WellFormed { h with endAddress := old } m segs) (hd : nl - ol = h.endAddress - old)
    (hlt : old.toNat < h.endAddress.toNat) (ht : EndTakes segs old.toNat (h.endAddress - old).toNat) :
    ∃ segs', Grown segs old m (h.adjust m old ol nl).1 (h.adjust m old ol nl).2 segs' := by
  have hm : Marks h m h.startAddress.toNat segs := hwf.toMarks.of_index rfl
  have hb := h.adjust_bounds m old ol nl
  have hdn : old.toNat + (nl - ol).toNat = h.endAddress.toNat := by rw [hd, BitVec.toNat_sub]; omega
  rw [← hd] at ht
  rcases ht with ⟨hlive, h20⟩ | ⟨y, hy, hyh, hye⟩
  · obtain ⟨y, hi, hyh, hyt, hu⟩ := adjust_append hm hwf.cut hlive h20 hdn
    refine ⟨segs ++ [y], by rw [hb.2]; exact hlt, ⟨by rw [hb.1]; exact hi, ?_⟩, fun s hs _ => List.mem_append_left _ hs,
      fun s hs _ => untouched_live hm hu hs (.inl (hwf.cut.bounds s hs).2.2)⟩
    intro s hs
    rcases List.mem_append.1 hs with hs | hs
    · exact hwf.tied s hs
    · rw [List.mem_singleton.1 hs]; exact hyt
  · obtain ⟨pre, rfl⟩ := eq_append_of_end hwf.cut hy hye
    obtain ⟨z, hi, -, -, hzt, hu, -⟩ := adjust_extend hm hwf.cut hyh hdn
    have hpre : ∀ s ∈ pre ++ [y], s.hole = false → s ∈ pre := fun s hs hl => by
      rcases List.mem_append.1 hs with hs | hs
      · exact hs
      · rw [List.mem_singleton.1 hs, hyh] at hl; cases hl
    refine ⟨pre ++ [z], by rw [hb.2]; exact hlt, ⟨by rw [hb.1]; exact hi, ?_⟩,
      fun s hs hl => List.mem_append_left _ (hpre s hs hl), fun s hs hl => untouched_live hm hu hs ?_⟩
    · intro s hs
      rcases List.mem_append.1 hs with hs | hs
      · exact hwf.tied s (List.mem_append_left _ hs)
      · rw [List.mem_singleton.1 hs]; exact hzt
    · have := (List.pairwise_append.1 hwf.cut.pairwise).2.2 s (hpre s hs hl) y (by simp)
      exact .inl this

theorem room_behind {base : Nat} {e : Nat} (hc : Cuts base old.toNat segs) (hc' : Cuts base e segs')
    (hk : ∀ s ∈ segs, s ∈ segs') (hlt : old.toNat < e) : old.toNat + 20 ≤ e := by
  obtain ⟨x, hx, hx1, hx2⟩ := hc'.cover old.toNat hc.le hlt
  have hxb := hc'.bounds x hx
  have hxr := x.room
  simp only [Seg.start_eq, Seg.len_eq] at hx1 hx2 hxb
  by_cases heq : x.addr.toNat = old.toNat
  · omega
  · obtain ⟨s, hs, hs1, hs2⟩ := hc.cover x.addr.toNat hxb.1 (by omega)
    have hsb := hc.bounds s hs
    simp only [Seg.start_eq, Seg.len_eq] at hs1 hs2 hsb
    have hne : s ≠ x := fun h' => by subst h'; omega
    have := hc'.apart (hk s hs) hx hne
    simp only [Seg.start_eq, Seg.len_eq] at this
    omega

theorem exists_endmost (hm : Marks h m h.startAddress.toNat segs)
    (hh : ∃ s ∈ segs, s.hole = true) :
    ∃ j y, j < h.index.size.toNat ∧ (h.endmostFrom m h.index.size.toNat 0 (none, 0)).1 = some j ∧ y ∈ segs ∧
      y.addr = h.index.getItemAtIndex m j ∧ y.hole = true ∧
      ∀ s ∈ segs, y.addr.toNat < s.addr.toNat → s.hole = false := by
  have hbase := low_base hm
  obtain ⟨y0, hy0, hy0h⟩ := hh
  obtain ⟨i, hi, -⟩ := hm.index_of hy0 hy0h
  obtain ⟨j, hj, hje, hmax⟩ := Heap.endmost_some (h := h) (m := m) (by omega) fun j hj => by
    obtain ⟨s, hs, -, hsa⟩ := hm.hole_at hj
    have := (hm.within s hs).1
    rw [← hsa, gt_iff_lt, BitVec.lt_def]
    simp; omega
  obtain ⟨y, hy, hyh, hya⟩ := hm.hole_at hj
  refine ⟨j, y, hj, hje, hy, hya, hyh, fun s hs hlt => ?_⟩
  by_contra hsh
  obtain ⟨i', hi', hi'a⟩ := hm.index_of hs (by simpa using hsh)
  have := hmax i' hi'
  rw [hi'a, ← hya, BitVec.le_def] at this
  omega

theorem adjust_reads {j : Nat} {y : Seg} (old ol nl : U32) (hm : Marks h m h.startAddress.toNat segs)
    (hj : j < h.index.size.toNat)
    (hje : (h.endmostFrom m h.index.size.toNat 0 (none, 0)).1 = some j) (hy : y ∈ segs)
    (hya : y.addr = h.index.getItemAtIndex m j) (hw : y.addr.toNat + y.size.toNat + (nl - ol).toNat < 2 ^ 32) :
    (h.adjust m old ol nl).1 = h ∧ headerSize (h.adjust m old ol nl).2 y.addr = y.size + (nl - ol) ∧
      h.index.getItemAtIndex (h.adjust m old ol nl).2 j = y.addr := by
  have hyr := y.room
  have hyw := (hm.within y hy).1
  have hys : (y.size + (nl - ol)).toNat = y.size.toNat + (nl - ol).toNat := by rw [BitVec.toNat_add]; omega
  have hf : (y.addr + (y.size + (nl - ol)) - sizeofFooter).toNat
      = y.addr.toNat + y.size.toNat + (nl - ol).toNat - 8 := by
    rw [BitVec.toNat_sub, BitVec.toNat_add, hys, show sizeofFooter.toNat = 8 from rfl]; omega
  have k1 := keeps_setHeaderSize m y.addr (y.size + (nl - ol)) (by omega)
  have k2 := keeps_writeFooter (setHeaderSize m y.addr (y.size + (nl - ol)))
    (y.addr + (y.size + (nl - ol)) - sizeofFooter) y.addr (by omega)
  rw [Heap.adjust_endmost (h := h) (m := m) old ol nl hje]
  simp only [← hya, (hm.header y hy).2.2]
  refine ⟨trivial, ?_, ?_⟩
  · rw [headerSize_keep k2 (by omega) (.inl (by omega)), headerSize_setHeaderSize]
  · refine Eq.trans ?_ hya.symm
    have hs := hm.size
    have hbelow := hm.below
    have hlow := hm.low
    have hsl := OrderedList.toNat_slot (l := h.index) (c := heapIndexSize.toNat) (by omega) (i := j) (by omega)
    exact ((k1.mono (a := h.startAddress.toNat) (b := 2 ^ 32) hyw (by omega)).trans
      (k2.mono (by omega) (by omega))).load_eq (by omega) (.inl (by omega))

theorem takes_of_grown (hwf : WellFormed { h with endAddress := old } m segs) (hd : nl - ol = h.endAddress - old)
    (hg : Grown segs old m (h.adjust m old ol nl).1 (h.adjust m old ol nl).2 segs') :
    EndTakes segs old.toNat (h.endAddress - old).toNat := by
  have hm : Marks h m h.startAddress.toNat segs := hwf.toMarks.of_index rfl
  have hcut : Cuts h.startAddress.toNat old.toNat segs := hwf.cut
  have hb := h.adjust_bounds m old ol nl
  have hlt := hg.larger
  rw [hb.2] at hlt
  have hdn : old.toNat + (nl - ol).toNat = h.endAddress.toNat := by rw [hd, BitVec.toNat_sub]; omega
  have hc' := hg.wellFormed.cut
  rw [hb.1, hb.2] at hc'
  by_cases hlive : ∀ s ∈ segs, s.hole = false
  · have := room_behind hcut hc' (fun s hs => hg.kept s hs (hlive s hs)) hlt
    exact .inl ⟨hlive, by rw [← hd]; omega⟩
  · obtain ⟨j, y, hj, hje, hy, hya, hyh, hlast⟩ := exists_endmost hm (by
      push Not at hlive
      exact hlive.imp fun s hs => ⟨hs.1, by simpa using hs.2⟩)
    have hyb := hcut.bounds y hy
    have hyr := y.room
    simp only [Seg.start_eq, Seg.len_eq] at hyb
    by_cases hye : y.addr.toNat + y.size.toNat = old.toNat
    · exact .inr ⟨y, hy, hyh, hye⟩
    · exfalso
      -- what follows `y` is still a segment, and `y` has grown over it
      obtain ⟨z, hz, hz1, hz2⟩ := hcut.cover (y.addr.toNat + y.size.toNat) (by omega) (by omega)
      simp only [Seg.start_eq, Seg.len_eq] at hz1 hz2
      have hza := hcut.apart hz hy fun h' => by subst h'; omega
      simp only [Seg.start_eq, Seg.len_eq] at hza
      have hzs := hg.kept z hz (hlast z hz (by omega))
      obtain ⟨r1, r2, r3⟩ := adjust_reads old ol nl hm hj hje hy hya (by omega)
      obtain ⟨y', hy', -, hya'⟩ := hg.wellFormed.hole_at (i := j) (by rw [r1]; exact hj)
      rw [r1, r3] at hya'
      have hsz' := (hg.wellFormed.header y' hy').2.2
      rw [hya', r2] at hsz'
      have hys : (y.size + (nl - ol)).toNat = y.size.toNat + (nl - ol).toNat := by rw [BitVec.toNat_add]; omega
      have := hc'.apart hy' hzs fun h' => by
        have hzr := z.room
        rw [← h'] at hza hzr
        rw [hya'] at hza
        omega
      simp only [Seg.start_eq, Seg.len_eq, hya', ← hsz'] at this
      omega

namespace Kernel

variable {alloc : Allocator} {k k₁ k₂ : Kernel} {new_size : U32}

theorem grow_eq (hexp : k.expand alloc (k.heap.endAddress - k.heap.startAddress + new_size) = some k₁) :
    k.grow alloc new_size = some { k₁ with
      heap := (k₁.heap.adjust k₁.mem k.heap.endAddress (k.heap.endAddress - k.heap.startAddress)
        (k₁.heap.endAddress - k₁.heap.startAddress)).1
      mem := (k₁.heap.adjust k₁.mem k.heap.endAddress (k.heap.endAddress - k.heap.startAddress)
        (k₁.heap.endAddress - k₁.heap.startAddress)).2 } := by
  unfold grow
  simp only [hexp, Option.map_some]

theorem grow_takes (hexp : k.expand alloc (k.heap.endAddress - k.heap.startAddress + new_size) = some k₁)
    (hstart : k₁.heap.startAddress = k.heap.startAddress)
    (hwf : WellFormed { k₁.heap with endAddress := k.heap.endAddress } k₁.mem segs)
    (hk₂ : k.grow alloc new_size = some k₂) (hg : Grown segs k.heap.endAddress k₁.mem k₂.heap k₂.mem segs') :
    k.heap.endAddress.toNat < k₁.heap.endAddress.toNat ∧
      EndTakes segs k.heap.endAddress.toNat (k₁.heap.endAddress - k.heap.endAddress).toNat := by
  rw [grow_eq hexp] at hk₂
  obtain rfl := Option.some.inj hk₂
  have hlt := hg.larger
  rw [(Heap.adjust_bounds ..).2] at hlt
  exact ⟨hlt, takes_of_grown hwf (by rw [hstart]; bv_omega) hg⟩

end Kernel

end Exact

/-- **The adjustment after `Expand`**, before `Alloc` tries again.  `k₁` is what `Expand` leaves: up to the old end a
well-formed heap, as it was if no page table had to be made (`Kernel.expand_same`).  The result is well-formed over
the larger range, with every live block as it was, exactly when the range is larger and the end of the heap takes what
was added. -/
theorem grow_iff {alloc : Allocator} {k k₁ : Kernel} {segs : List Seg} {new_size : U32}
    (hexp : k.expand alloc (k.heap.endAddress - k.heap.startAddress + new_size) = some k₁)
    (hstart : k₁.heap.startAddress = k.heap.startAddress)
    (hwf : WellFormed { k₁.heap with endAddress := k.heap.endAddress } k₁.mem segs) :
    (∃ k₂ segs', k.grow alloc new_size = some k₂ ∧
      Grown segs k.heap.endAddress k₁.mem k₂.heap k₂.mem segs') ↔
    k.heap.endAddress.toNat <
        (k.heap.startAddress + Kernel.expandSize (k.heap.endAddress - k.heap.startAddress + new_size)).toNat ∧
      EndTakes segs k.heap.endAddress.toNat (k.heap.startAddress +
        Kernel.expandSize (k.heap.endAddress - k.heap.startAddress + new_size) - k.heap.endAddress).toNat := by
  have hend := Kernel.expand_end hexp
  rw [hstart] at hend
  rw [← hend]
  constructor
  · rintro ⟨k₂, segs', hk₂, hg⟩
    exact Kernel.grow_takes hexp hstart hwf hk₂ hg
  · rintro ⟨hlt, ht⟩
    obtain ⟨segs', hg⟩ := grown_of_takes hwf
      (show k₁.heap.endAddress - k₁.heap.startAddress - (k.heap.endAddress - k.heap.startAddress) = _ by
        rw [hstart]; bv_omega) hlt ht
    exact ⟨_, segs', Kernel.grow_eq hexp, hg⟩

/-- A kernel whose page tables are all there, over a heap of two pages. -/
def twoPages (segs : List Seg) : Kernel where
  mem := layout 0xC0000000 segs
  kheap := 1
  heap := ⟨⟨0xC0000000, 1, heapIndexSize⟩, 0xC0080000, 0xC0082000, 0, false, false⟩
  placement_address := 0
  frames := ⟨0x20, fun _ => 0⟩
  directories := fun _ => ⟨fun _ => 1, fun _ => 0, 0⟩
  pageTables := fun _ _ => Page.zero
  kernel_directory := 0
  current_directory := 0
  uninit := 0

def firstLive : Seg := ⟨0xC0080000, 0x1000, false, true, by decide⟩
def lastHole : Seg := ⟨0xC0081000, 0x1000, true, true, by decide⟩
def firstHole : Seg := ⟨0xC0080000, 0x1000, true, true, by decide⟩
def lastLive : Seg := ⟨0xC0081000, 0x1000, false, true, by decide⟩

theorem grow_last_hole : ∃ m₁ k₂ segs',
    (twoPages [firstLive, lastHole]).grow (Kernel.alloc 0) 0x2000 = some k₂ ∧
      Grown [firstLive, lastHole] 0xC0082000 m₁ k₂.heap k₂.mem segs' := by
  obtain ⟨k₁, hk₁, -⟩ := Kernel.expand_of_free (f := Kernel.alloc 0) (k := twoPages [firstLive, lastHole])
    (e := 0xC0082000 - 0xC0080000 + 0x2000) (p := 2) (by decide +kernel) (by decide +kernel) (by decide +kernel)
    (by decide +kernel)
  obtain ⟨hm, hh⟩ := Kernel.expand_same (by decide +kernel) hk₁
  exact ⟨k₁.mem, (grow_iff (k := twoPages [firstLive, lastHole]) hk₁ (by rw [hh])
    (by rw [hm, hh]; decide +kernel)).2 (by decide +kernel)⟩

/-- With a live block at the end it is an earlier hole that grows, over that block. -/
theorem grow_over_live :
    WellFormed (twoPages [firstHole, lastLive]).heap (twoPages [firstHole, lastLive]).mem [firstHole, lastLive] ∧
    (twoPages [firstHole, lastLive]).heap.findSmallestHole (twoPages [firstHole, lastLive]).mem
      (0x1FEC + sizeofHeader + sizeofFooter) false = none ∧
    ∀ fuel, ¬ ∃ k₂ segs', (twoPages [firstHole, lastLive]).grow (Kernel.alloc fuel)
    (0x1FEC + sizeofHeader + sizeofFooter)
        = some k₂ ∧
      Grown [firstHole, lastLive] 0xC0082000 (twoPages [firstHole, lastLive]).mem k₂.heap k₂.mem segs' := by
  refine ⟨by decide +kernel, by decide +kernel, fun fuel ⟨k₂, segs', hk₂, hg⟩ => ?_⟩
  obtain ⟨k₁, hk₁, -⟩ := Kernel.expand_of_free (f := Kernel.alloc fuel) (k := twoPages [firstHole, lastLive])
    (e := 0xC0082000 - 0xC0080000 + (0x1FEC + sizeofHeader + sizeofFooter)) (p := 2) (by decide +kernel)
    (by decide +kernel) (by decide +kernel) (by decide +kernel)
  obtain ⟨hm, hh⟩ := Kernel.expand_same (by decide +kernel) hk₁
  have ht := (Kernel.grow_takes (k := twoPages [firstHole, lastLive]) hk₁ (by rw [hh])
    (show WellFormed _ _ [firstHole, lastLive] by rw [hm, hh]; decide +kernel) hk₂ (by rw [hm]; exact hg)).2
  rw [hh] at ht
  exact absurd ht (by decide +kernel)

end Loris
