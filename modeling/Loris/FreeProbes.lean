import Loris.AccessTrace
import Loris.Merging
/-!
# FreeProbes — the memory `Free` touches while it looks for neighbours and merges them

`freeProbes` is `Free` down to its contraction as a program that records its accesses, and `free_eq_probes` says that
it is what `free` computes.  The left probe reads the eight bytes below a block, the right one the header behind it,
and neither compares with the heap's bounds.  `free_probes_inside` says for which blocks this stays in the heap.
-/
namespace Loris

open ByteMem Cut AccessTrace Prog

namespace Heap

/-- The search for `header` in the index, `k` slots left. -/
def searchProbes (h : Heap) (header : U32) : Nat → Nat → Prog Nat
  | 0, iterator => pure iterator
  | k + 1, iterator => do
    let item ← readWord (h.index.slot iterator)
    if item ≠ header then searchProbes h header k (iterator + 1) else pure iterator

end Heap

/-- The loop of `Remove`. -/
def OrderedList.carryDownProbes (l : OrderedList) : Nat → Nat → Prog Unit
  | 0, _ => pure ()
  | k + 1, index => do
    let item ← readWord (l.slot (index + 1))
    writeWord (l.slot index) item
    carryDownProbes l k (index + 1)

def OrderedList.removeProbes (l : OrderedList) (index : Nat) : Prog OrderedList := do
  l.carryDownProbes (l.size.toNat - index) index
  pure { l with size := l.size - 1 }

namespace Heap

/-- `Free`, "Unify left". -/
def leftProbes (header footer : U32) : Prog Freeing := do
  let test_footer := header - sizeofFooter
  let magic ← readWord test_footer
  if magic = heapMagic then
    let test ← readWord (test_footer + 4)
    let is_hole ← readByte (test + 4)
    if is_hole ≠ 0 then
      let cache_size ← readWord (header + 8)
      let header ← readWord (test_footer + 4)
      writeWord (footer + 4) header
      let size ← readWord (header + 8)
      writeWord (header + 8) (size + cache_size)
      pure ⟨header, footer, false, footer + sizeofFooter⟩
    else pure ⟨header, footer, true, footer + sizeofFooter⟩
  else pure ⟨header, footer, true, footer + sizeofFooter⟩

/-- `Free`, "Unify right". -/
def rightProbes (h : Heap) (f : Freeing) : Prog (Freeing × Heap) := do
  let magic ← readWord f.testHeader
  if magic = heapMagic then
    let is_hole ← readByte (f.testHeader + 4)
    if is_hole ≠ 0 then
      let size ← readWord (f.header + 8)
      let test_size ← readWord (f.testHeader + 8)
      writeWord (f.header + 8) (size + test_size)
      let test_size ← readWord (f.testHeader + 8)
      let iterator ← h.searchProbes f.testHeader h.index.size.toNat 0
      let index ← h.index.removeProbes iterator
      pure ({ f with footer := f.testHeader + test_size - sizeofFooter }, { h with index := index })
    else pure (f, h)
  else pure (f, h)

/-- `Free` of a pointer that is not null, down to the end of "Unify right". -/
def freeProbes (h : Heap) (p : U32) : Prog (Freeing × Heap) := do
  let header := p - sizeofHeader
  let size ← readWord (header + 8)
  writeByte (header + 4) 1
  let f ← leftProbes header (header + size - sizeofFooter)
  h.rightProbes f

/-! ## The programs compute what `Free` computes -/

theorem result_searchProbes (h : Heap) (m : Mem) (header : U32) : ∀ (k i : Nat),
    (h.searchProbes header k i).result m = (h.searchFrom m header k i, m)
  | 0, _ => rfl
  | k + 1, i => by
    unfold searchProbes searchFrom OrderedList.getItemAtIndex
    simp only [result_bind, result_readWord, result_ite, result_pure, result_searchProbes h m header k (i + 1)]
    split <;> rfl

end Heap

theorem OrderedList.result_carryDownProbes (l : OrderedList) : ∀ (k i : Nat) (m : Mem),
    (l.carryDownProbes k i).result m = ((), l.carryDown k m i)
  | 0, _, _ => rfl
  | k + 1, i, m => by
    unfold carryDownProbes
    simp only [result_bind, result_readWord, result_writeWord, result_carryDownProbes l k (i + 1)]
    rfl

theorem OrderedList.result_removeProbes (l : OrderedList) (i : Nat) (m : Mem) :
    (l.removeProbes i).result m = l.remove m i := by
  unfold removeProbes remove
  rw [result_bind, result_carryDownProbes]
  rfl

namespace Heap

theorem result_leftProbes (header footer : U32) (m : Mem) :
    (leftProbes header footer).result m = unifyLeft m header footer := by
  unfold leftProbes unifyLeft footerMagic footerHeader isHole
  simp only [result_bind, result_readWord, result_readByte, result_writeWord, result_ite, result_pure, bne_iff_ne]
  by_cases h1 : load m (header - sizeofFooter) = heapMagic
  · simp only [h1, if_true, true_and]
    split <;> rfl
  · simp only [h1, if_false, false_and]

theorem result_rightProbes (h : Heap) (f : Freeing) (m : Mem) :
    (h.rightProbes f).result m = (((h.unifyRight m f).1, (h.unifyRight m f).2.1), (h.unifyRight m f).2.2) := by
  unfold rightProbes unifyRight headerMagic isHole setHeaderSize headerSize search
  simp only [result_bind, result_readWord, result_readByte, result_writeWord, result_ite, result_pure, bne_iff_ne,
    result_searchProbes, OrderedList.result_removeProbes]
  by_cases h1 : load m f.testHeader = heapMagic
  · simp only [h1, if_true, true_and]
    split <;> simp only
  · simp only [h1, if_false, false_and]

theorem result_freeProbes (h : Heap) (p : U32) (m : Mem) :
    (h.freeProbes p).result m = (h.rightProbes (unifyLeft (setIsHole m (p - sizeofHeader) true) (p - sizeofHeader)
      (p - sizeofHeader + headerSize m (p - sizeofHeader) - sizeofFooter)).1).result
      (unifyLeft (setIsHole m (p - sizeofHeader) true) (p - sizeofHeader)
        (p - sizeofHeader + headerSize m (p - sizeofHeader) - sizeofFooter)).2 := by
  unfold freeProbes
  simp only [result_bind, result_readWord, result_writeByte, result_leftProbes]
  rfl

end Heap

/-- **`Free` is its probes, then the contraction and the insertion.** -/
theorem Kernel.free_eq_probes (k : Kernel) {p : U32} (hp : p ≠ 0) :
    k.free p =
      let r := (k.heap.freeProbes p).result k.mem
      (contractEnd { k with heap := r.1.2, mem := r.2 } r.1.1).map fun k =>
        if r.1.1.doAdd then
          let r := k.heap.index.insert (headerLessThan k.mem) k.mem r.1.1.header
          { k with heap := { k.heap with index := r.1 }, mem := r.2 }
        else k := by
  rw [Heap.result_freeProbes, Heap.result_rightProbes]
  unfold Kernel.free
  rw [if_neg hp]

/-! ## Where the probes go -/

section Touches

variable {P : U32 → Prop} {h : Heap} {m : Mem}

theorem Heap.touches_searchProbes (hP : ∀ i, i < h.index.size.toNat → Word P (h.index.slot i)) (header : U32) :
    ∀ (k i : Nat), i + k ≤ h.index.size.toNat → Touches P (h.searchProbes header k i) m
  | 0, _, _ => touches_pure _
  | k + 1, i, hk => by
    unfold searchProbes
    simp only [touches_bind, touches_readWord, touches_ite, touches_pure]
    exact ⟨hP i (by omega), fun _ => touches_searchProbes hP header k (i + 1) (by omega), fun _ => trivial⟩

/-- `Remove` reads the slot behind the last one. -/
theorem OrderedList.touches_carryDownProbes {l : OrderedList} (hP : ∀ i, i ≤ l.size.toNat → Word P (l.slot i)) :
    ∀ (k i : Nat) (m : Mem), i + k ≤ l.size.toNat → Touches P (l.carryDownProbes k i) m
  | 0, _, _, _ => touches_pure _
  | k + 1, i, m, hk => by
    unfold carryDownProbes
    simp only [touches_bind, touches_readWord, touches_writeWord]
    exact ⟨hP (i + 1) (by omega), hP i (by omega), touches_carryDownProbes hP k (i + 1) _ (by omega)⟩

theorem Heap.touches_leftProbes {header footer : U32} : Touches P (leftProbes header footer) m ↔
    Word P (header - sizeofFooter) ∧ (footerMagic m (header - sizeofFooter) = heapMagic →
      Word P (header - sizeofFooter + 4) ∧ P (footerHeader m (header - sizeofFooter) + 4) ∧
        (isHole m (footerHeader m (header - sizeofFooter)) = true →
          Word P (header + 8) ∧ Word P (footer + 4) ∧ Word P (footerHeader m (header - sizeofFooter) + 8))) := by
  unfold leftProbes footerMagic footerHeader isHole
  simp only [touches_bind, result_readWord, result_readByte, result_writeWord, touches_readWord, touches_readByte,
    touches_writeWord, touches_ite, touches_pure, bne_iff_ne, and_true, implies_true]
  tauto

theorem Heap.touches_rightProbes {f : Freeing} : Touches P (h.rightProbes f) m → Word P f.testHeader := by
  unfold rightProbes
  simp only [touches_bind, touches_readWord]
  exact And.left

theorem Heap.rightProbes_inside {f : Freeing} (ht : Word P f.testHeader) (hh : P (f.testHeader + 4))
    (hs : Word P (f.testHeader + 8)) (hg : Word P (f.header + 8))
    (hP : ∀ i, i ≤ h.index.size.toNat → Word P (h.index.slot i)) : Touches P (h.rightProbes f) m := by
  unfold rightProbes
  simp only [touches_bind, result_readWord, result_readByte, result_writeWord, result_searchProbes, touches_readWord,
    touches_readByte, touches_writeWord, touches_ite, touches_pure, and_true, implies_true]
  refine ⟨ht, fun _ => ⟨hh, fun _ => ⟨hg, hs, hg, hs, ?_, ?_⟩⟩⟩
  · exact touches_searchProbes (fun i hi => hP i (by omega)) _ _ _ (by omega)
  · unfold OrderedList.removeProbes
    simp only [touches_bind, touches_pure, and_true]
    refine OrderedList.touches_carryDownProbes hP _ _ _ ?_
    have := (searchFrom_spec (h := h) (m := store m (f.header + 8) (load m (f.header + 8) + load m (f.testHeader + 8)))
      (a := f.testHeader) h.index.size.toNat 0).2.1
    omega

theorem Heap.unifyLeft_testHeader (m : Mem) (header footer : U32) :
    (unifyLeft m header footer).1.testHeader = footer + sizeofFooter := by
  unfold unifyLeft
  simp only
  split <;> rfl

theorem Heap.leftProbes_grown {header footer : U32} (ht : Touches P (leftProbes header footer) m)
    (hh : Word P (header + 8)) : Word P ((unifyLeft m header footer).1.header + 8) := by
  have hl := touches_leftProbes.1 ht
  unfold unifyLeft
  simp only
  split
  · rename_i hc
    exact ((hl.2 hc.1).2.2 hc.2).2.2
  · exact hh

end Touches

/-! ## In a well-formed heap -/

/-- The storage of the index, or the heap. -/
def Heap.Covers (h : Heap) (x : U32) : Prop :=
  (h.index.elements.toNat ≤ x.toNat ∧ x.toNat < h.index.elements.toNat + 4 * heapIndexSize.toNat) ∨
    (h.startAddress.toNat ≤ x.toNat ∧ x.toNat < h.endAddress.toNat)

instance (h : Heap) (x : U32) : Decidable (h.Covers x) := inferInstanceAs (Decidable (_ ∨ _))

/-- The last two slots of the index, which lie below the first block, do not look like the footer of a hole whose
header is somewhere else. -/
def Heap.LastSlotsClear (h : Heap) (m : Mem) : Prop :=
  h.index.getItemAtIndex m 0x1FFFE = heapMagic →
    h.Covers (h.index.getItemAtIndex m 0x1FFFF + 4) ∧
      (isHole m (h.index.getItemAtIndex m 0x1FFFF) = true → Word h.Covers (h.index.getItemAtIndex m 0x1FFFF + 8))

section Inside

variable {h : Heap} {m : Mem} {segs : List Seg} {b : Seg}

theorem exists_left {base : Nat} (hi : Loris.Inv h m base segs) (hb : b ∈ segs) (hne : b.addr.toNat ≠ base) :
    ∃ l ∈ segs, l.addr.toNat + l.size.toNat = b.addr.toNat := by
  have hbb := hi.cut.bounds b hb
  simp only [Seg.start_eq, Seg.len_eq] at hbb
  obtain ⟨l, hl, h1, h2⟩ := hi.cut.cover (b.addr.toNat - 1) (by omega) (by omega)
  simp only [Seg.start_eq, Seg.len_eq] at h1 h2
  have hlb : l ≠ b := fun he => by subst he; omega
  have := hi.cut.apart hl hb hlb
  simp only [Seg.start_eq, Seg.len_eq] at this
  exact ⟨l, hl, by omega⟩

theorem exists_right {base : Nat} (hi : Loris.Inv h m base segs) (hb : b ∈ segs)
    (hne : b.addr.toNat + b.size.toNat ≠ h.endAddress.toNat) :
    ∃ r ∈ segs, r.addr.toNat = b.addr.toNat + b.size.toNat := by
  have hbb := hi.cut.bounds b hb
  simp only [Seg.start_eq, Seg.len_eq] at hbb
  obtain ⟨r, hr, h1, h2⟩ := hi.cut.cover (b.addr.toNat + b.size.toNat) (by omega) (by omega)
  simp only [Seg.start_eq, Seg.len_eq] at h1 h2
  have hrb : r ≠ b := fun he => by subst he; omega
  have := hi.cut.apart hr hb hrb
  simp only [Seg.start_eq, Seg.len_eq] at this
  exact ⟨r, hr, by omega⟩

theorem lastSlots (hdirect : h.index.elements.toNat + 4 * heapIndexSize.toNat = h.startAddress.toNat) {i j : Nat}
    (hi : i + 2 = heapIndexSize.toNat) (hj : j + 1 = heapIndexSize.toNat) :
    h.index.slot i = h.startAddress - sizeofFooter ∧ h.index.slot j = h.startAddress - sizeofFooter + 4 := by
  have hs := h.startAddress.isLt
  have e1 := OrderedList.toNat_slot (l := h.index) (c := heapIndexSize.toNat) (by omega) (i := i) (by omega)
  have e2 := OrderedList.toNat_slot (l := h.index) (c := heapIndexSize.toNat) (by omega) (i := j) (by omega)
  generalize h.index.slot i = x at *
  generalize h.index.slot j = y at *
  generalize heapIndexSize.toNat = c at *
  unfold sizeofFooter
  constructor <;> bv_omega

theorem Heap.covers_of_range
    (hdirect : h.index.elements.toNat + 4 * heapIndexSize.toNat = h.startAddress.toNat) {x : U32}
    (h1 : h.index.elements.toNat ≤ x.toNat) (h2 : x.toNat < h.endAddress.toNat) : h.Covers x := by
  unfold Heap.Covers
  omega

theorem Heap.Covers.lt_end (hwf : WellFormed h m segs)
    (hdirect : h.index.elements.toNat + 4 * heapIndexSize.toNat = h.startAddress.toNat) (hb : b ∈ segs) {x : U32}
    (hx : h.Covers x) : x.toNat < h.endAddress.toNat := by
  have hbb := hwf.cut.bounds b hb
  simp only [Seg.start_eq, Seg.len_eq] at hbb
  unfold Heap.Covers at hx
  omega

/-- The words of the block and the one below it are in the index or the heap. -/
structure BlockCovered (h : Heap) (b : Seg) : Prop where
  below : Word h.Covers (b.addr - sizeofFooter)
  is_hole : h.Covers (b.addr + 4)
  size : Word h.Covers (b.addr + 8)
  footer : Word h.Covers (b.footer + 4)

theorem toNat_below {base : Nat} (hi : Loris.Inv h m base segs) (hb : b ∈ segs) (h8 : 8 ≤ base) :
    (b.addr - sizeofFooter).toNat = b.addr.toNat - 8 := by
  have hbb := hi.cut.bounds b hb
  simp only [Seg.start_eq, Seg.len_eq] at hbb
  rw [BitVec.toNat_sub]
  simp only [sizeofFooter, BitVec.ofNat_eq_ofNat, BitVec.toNat_ofNat]
  omega

section Direct

variable (hwf : WellFormed h m segs)
  (hdirect : h.index.elements.toNat + 4 * heapIndexSize.toNat = h.startAddress.toNat) (hb : b ∈ segs)

include hwf hdirect hb

theorem blockCovered : BlockCovered h b := by
  have hbb := hwf.cut.bounds b hb
  have hbw := (hwf.within b hb).2
  have hroom := b.room
  have hend := h.endAddress.isLt
  have h4 : 4 * heapIndexSize.toNat = 0x80000 := rfl
  simp only [Seg.start_eq, Seg.len_eq] at hbb
  have hword : ∀ {a : U32}, h.index.elements.toNat ≤ a.toNat → a.toNat + 4 ≤ h.endAddress.toNat → Word h.Covers a :=
    word_of_range (fun _ => Heap.covers_of_range hdirect) (by omega)
  have hbelow := toNat_below hwf.toInv hb (by omega)
  have ha4 := toNat_add_four (a := b.addr) (by omega)
  have ha8 := toNat_add_eight (a := b.addr) (by omega)
  have hf := Seg.toNat_footer hbw
  have hf4 := toNat_add_four (a := b.footer) (by omega)
  exact ⟨hword (by omega) (by omega), Heap.covers_of_range hdirect (by omega) (by omega), hword (by omega) (by omega),
    hword (by omega) (by omega)⟩

/-- Below the first block lie the last two slots of the index. -/
theorem leftProbes_first (hfirst : b.addr = h.startAddress) :
    Touches h.Covers (Heap.leftProbes b.addr b.footer) (setIsHole m b.addr true) ↔ h.LastSlotsClear m := by
  have hc := blockCovered hwf hdirect hb
  have hbb := hwf.cut.bounds b hb
  have hroom := b.room
  have hend := h.endAddress.isLt
  have h4 : 4 * heapIndexSize.toNat = 0x80000 := rfl
  simp only [Seg.start_eq, Seg.len_eq] at hbb
  have hbelow := toNat_below hwf.toInv hb (by omega)
  have hb4 := toNat_add_four (a := b.addr - sizeofFooter) (by omega)
  have hsecond : Word h.Covers (b.addr - sizeofFooter + 4) :=
    word_of_range (fun _ => Heap.covers_of_range hdirect) (by omega) (by omega) (by omega)
  obtain ⟨hs1, hs2⟩ := lastSlots (i := 0x1FFFE) (j := 0x1FFFF) hdirect rfl rfl
  rw [← hfirst] at hs1 hs2
  rw [Heap.touches_leftProbes, (footer_below m b.addr).1, (footer_below m b.addr).2, and_iff_right hc.below]
  unfold Heap.LastSlotsClear OrderedList.getItemAtIndex
  rw [hs1, hs2]
  show (footerMagic m (b.addr - sizeofFooter) = heapMagic → _) ↔ (footerMagic m (b.addr - sizeofFooter) = heapMagic →
    h.Covers (footerHeader m (b.addr - sizeofFooter) + 4) ∧
      (isHole m (footerHeader m (b.addr - sizeofFooter)) = true →
        Word h.Covers (footerHeader m (b.addr - sizeofFooter) + 8)))
  -- marking the block shows only when the slot leads to the block itself
  have hmark : (isHole (setIsHole m b.addr true) (footerHeader m (b.addr - sizeofFooter)) = true →
      Word h.Covers (footerHeader m (b.addr - sizeofFooter) + 8)) ↔
      (isHole m (footerHeader m (b.addr - sizeofFooter)) = true →
        Word h.Covers (footerHeader m (b.addr - sizeofFooter) + 8)) := by
    by_cases hself : footerHeader m (b.addr - sizeofFooter) = b.addr
    · rw [hself]
      exact ⟨fun _ _ => hc.size, fun _ _ => hc.size⟩
    · unfold isHole setIsHole
      rw [storeByte_apply_of_ne m _ fun he => hself ((BitVec.add_left_inj 4).1 he)]
  rw [← hmark]
  exact ⟨fun hl hmagic => ⟨(hl hmagic).2.1, fun hh => ((hl hmagic).2.2 hh).2.2⟩,
    fun hl hmagic => ⟨hsecond, (hl hmagic).1, fun hh => ⟨hc.size, hc.footer, (hl hmagic).2 hh⟩⟩⟩

/-- Below any other block lies the footer of a segment. -/
theorem leftProbes_later (hlater : b.addr ≠ h.startAddress) :
    Touches h.Covers (Heap.leftProbes b.addr b.footer) (setIsHole m b.addr true) := by
  have hc := blockCovered hwf hdirect hb
  have hbb := hwf.cut.bounds b hb
  have hroom := b.room
  have hend := h.endAddress.isLt
  have h4 : 4 * heapIndexSize.toNat = 0x80000 := rfl
  obtain ⟨l, hl, hle⟩ := exists_left hwf.toInv hb fun he => hlater (BitVec.eq_of_toNat_eq he)
  have hlb := hwf.cut.bounds l hl
  have hlr := l.room
  simp only [Seg.start_eq, Seg.len_eq] at hbb hlb
  have hword : ∀ {a : U32}, h.index.elements.toNat ≤ a.toNat → a.toNat + 4 ≤ h.endAddress.toNat → Word h.Covers a :=
    word_of_range (fun _ => Heap.covers_of_range hdirect) (by omega)
  have hbelow := toNat_below hwf.toInv hb (by omega)
  have hlf : l.footer = b.addr - sizeofFooter := BitVec.eq_of_toNat_eq (by
    rw [Seg.toNat_footer (by omega), hbelow]
    omega)
  have hb4 := toNat_add_four (a := b.addr - sizeofFooter) (by omega)
  have hl4 := toNat_add_four (a := l.addr) (by omega)
  have hl8 := toNat_add_eight (a := l.addr) (by omega)
  rw [Heap.touches_leftProbes, (footer_below m b.addr).1, (footer_below m b.addr).2, and_iff_right hc.below, ← hlf,
    (hwf.footer l hl (hwf.tied l hl)).2, hlf]
  exact fun _ => ⟨hword (by omega) (by omega), Heap.covers_of_range hdirect (by omega) (by omega),
    fun _ => ⟨hc.size, hc.footer, hword (by omega) (by omega)⟩⟩

/-- Behind a block that is not the last one there is a header. -/
theorem rightProbes_covered (hne : b.addr.toNat + b.size.toNat ≠ h.endAddress.toNat) {f : Heap.Freeing} {m' : Mem}
    (htest : f.testHeader = b.footer + sizeofFooter) (hgrown : Word h.Covers (f.header + 8)) :
    Touches h.Covers (h.rightProbes f) m' := by
  have hbb := hwf.cut.bounds b hb
  have hbw := (hwf.within b hb).2
  have hroom := b.room
  have hsize := hwf.size
  have hend := h.endAddress.isLt
  have h4 : 4 * heapIndexSize.toNat = 0x80000 := rfl
  obtain ⟨r, hr, hre⟩ := exists_right hwf.toInv hb hne
  have hrb := hwf.cut.bounds r hr
  have hrr := r.room
  simp only [Seg.start_eq, Seg.len_eq] at hbb hrb
  have hword : ∀ {a : U32}, h.index.elements.toNat ≤ a.toNat → a.toNat + 4 ≤ h.endAddress.toNat → Word h.Covers a :=
    word_of_range (fun _ => Heap.covers_of_range hdirect) (by omega)
  have hslot : ∀ i, i ≤ h.index.size.toNat → Word h.Covers (h.index.slot i) := fun i hi => by
    have := OrderedList.toNat_slot (l := h.index) (c := heapIndexSize.toNat + 1) (by omega) (i := i) (by omega)
    exact hword (by omega) (by omega)
  have ht : (b.footer + sizeofFooter).toNat = b.addr.toNat + b.size.toNat := by rw [behind_eq, toNat_behind hbw]
  have ht4 := toNat_add_four (a := b.footer + sizeofFooter) (by omega)
  have ht8 := toNat_add_eight (a := b.footer + sizeofFooter) (by omega)
  refine Heap.rightProbes_inside ?_ ?_ ?_ hgrown hslot <;> rw [htest]
  · exact hword (by omega) (by omega)
  · exact Heap.covers_of_range hdirect (by omega) (by omega)
  · exact hword (by omega) (by omega)

theorem touches_freeProbes : Touches h.Covers (h.freeProbes (b.addr + sizeofHeader)) m ↔
    Touches h.Covers (Heap.leftProbes b.addr b.footer) (setIsHole m b.addr true) ∧
      Touches h.Covers (h.rightProbes (Heap.unifyLeft (setIsHole m b.addr true) b.addr b.footer).1)
        (Heap.unifyLeft (setIsHole m b.addr true) b.addr b.footer).2 := by
  have hc := blockCovered hwf hdirect hb
  have hfoot : b.addr + load m (b.addr + 8) - sizeofFooter = b.footer := by
    show b.addr + headerSize m b.addr - sizeofFooter = _
    rw [(hwf.header b hb).2.2]
    rfl
  unfold Heap.freeProbes
  rw [BitVec.add_sub_cancel]
  simp only [touches_bind, touches_readWord, touches_writeByte, result_readWord, result_writeByte,
    Heap.result_leftProbes]
  rw [and_iff_right hc.size, and_iff_right hc.is_hole,
    show storeByte m (b.addr + 4) 1 = setIsHole m b.addr true from rfl,
    hfoot]

end Direct

/-- **When the probes of `Free` stay in the heap**: exactly when the block is not the last one and, if it is the first,
the last slots of the index do not lead elsewhere. -/
theorem free_probes_inside (hwf : WellFormed h m segs)
    (hdirect : h.index.elements.toNat + 4 * heapIndexSize.toNat = h.startAddress.toNat) (hb : b ∈ segs) :
    Touches h.Covers (h.freeProbes (b.addr + sizeofHeader)) m ↔
      b.addr.toNat + b.size.toNat ≠ h.endAddress.toNat ∧ (b.addr = h.startAddress → h.LastSlotsClear m) := by
  have hleft : Touches h.Covers (Heap.leftProbes b.addr b.footer) (setIsHole m b.addr true) ↔
      (b.addr = h.startAddress → h.LastSlotsClear m) := by
    by_cases hfirst : b.addr = h.startAddress
    · rw [leftProbes_first hwf hdirect hb hfirst]
      exact ⟨fun hl _ => hl, fun hl => hl hfirst⟩
    · exact ⟨fun _ he => absurd he hfirst, fun _ => leftProbes_later hwf hdirect hb hfirst⟩
  rw [touches_freeProbes hwf hdirect hb, hleft]
  constructor
  · rintro ⟨hl, hr⟩
    refine ⟨fun he => ?_, hl⟩
    have hlt := (word_first (Heap.touches_rightProbes hr)).lt_end hwf hdirect hb
    rw [Heap.unifyLeft_testHeader, behind_eq, toNat_behind (hwf.within b hb).2] at hlt
    omega
  · rintro ⟨hne, hl⟩
    exact ⟨hl, rightProbes_covered hwf hdirect hb hne (Heap.unifyLeft_testHeader ..)
      (Heap.leftProbes_grown (hleft.2 hl) (blockCovered hwf hdirect hb).size)⟩

/-- A heap of 64 KiB behind its index, which lists `n` holes. -/
def smallHeap (n : U32) : Heap := ⟨⟨0xC0000000, n, heapIndexSize⟩, 0xC0080000, 0xC0090000, 0, false, false⟩

theorem room_first : 20 ≤ (0x100 : U32).toNat := by decide

theorem room_only : 20 ≤ (0x10000 : U32).toNat := by decide

/-- A block at the start of the heap, and a hole behind it. -/
def firstBlock : Seg := ⟨0xC0080000, 0x100, false, true, room_first⟩

def behindFirst : Seg := ⟨0xC0080100, 0xFF00, true, true, by decide⟩

theorem free_probes_first :
    Touches (smallHeap 1).Covers ((smallHeap 1).freeProbes (firstBlock.addr + sizeofHeader))
      (layout 0xC0000000 [firstBlock, behindFirst]) :=
  (@free_probes_inside _ _ [firstBlock, behindFirst] _ (by decide +kernel) rfl (List.mem_cons_self ..)).2
    ⟨by decide +kernel, fun _ hmagic => absurd hmagic (by decide +kernel)⟩

/-- A block that is all of the heap. -/
def onlyBlock : Seg := ⟨0xC0080000, 0x10000, false, true, room_only⟩

/-- `Free` of the last block reads the magic number of a header at `m_endAddress`. -/
theorem free_probes_end :
    WellFormed (smallHeap 0) (layout 0xC0000000 [onlyBlock]) [onlyBlock] ∧
    ¬ Touches (smallHeap 0).Covers ((smallHeap 0).freeProbes (onlyBlock.addr + sizeofHeader))
      (layout 0xC0000000 [onlyBlock]) := by
  refine ⟨by decide +kernel, fun h => ?_⟩
  have hmem : (⟨0xC0090000, 4⟩ : Access) ∈
      ((smallHeap 0).freeProbes (onlyBlock.addr + sizeofHeader) (layout 0xC0000000 [onlyBlock])).2 := by decide +kernel
  exact absurd (h _ hmem 0 (show 0 < 4 by decide)) (by decide +kernel)

end Inside

end Loris
