import Loris.AllocFit
import Loris.Kernel
/-!
# AlignedAlloc — when page-aligned `Alloc` keeps the heap well-formed

`FindSmallestHole` tests a page-aligned request by `size - offset ≥ n` in 32 bits, while `Alloc` leaves a gap of
`frontGap` bytes in front of the block, which is zero, below the room of a header and a footer, or negative for some
positions, and decides about the remainder before the gap is taken off.  `alloc_aligned_iff` says for which holes the
result is a well-formed heap with the block in it.
-/
namespace Loris

open ByteMem Cut

/-! ## Header sizes read back -/

theorem writeHeader_apply (m : Mem) {a x : U32} (b : Bool) (v : U32) (h : 12 ≤ (x - a).toNat) :
    writeHeader m a b v x = m x := by
  unfold writeHeader setHeaderSize setIsHole
  rw [store_apply_of_ge _ _ (by bv_omega), storeByte_apply_of_ne _ _ (by intro he; subst he; bv_omega),
    store_apply_of_ge _ _ (by omega)]

theorem writeFooter_apply (m : Mem) {f x : U32} (v : U32) (h : 8 ≤ (x - f).toNat) : writeFooter m f v x = m x := by
  unfold writeFooter setFooterHeader
  rw [store_apply_of_ge _ _ (by bv_omega), store_apply_of_ge _ _ (by omega)]

theorem headerSize_writeHeader_apart (m : Mem) {a c : U32} (b : Bool) (v : U32) (h : 12 ≤ (a + 8 - c).toNat)
    (h' : (a + 8 - c).toNat + 4 ≤ 2 ^ 32) : headerSize (writeHeader m c b v) a = headerSize m a :=
  load_congr fun x hx => writeHeader_apply m b v (by bv_omega)

theorem headerSize_writeFooter_apart (m : Mem) {a f : U32} (v : U32) (h : 8 ≤ (a + 8 - f).toNat)
    (h' : (a + 8 - f).toNat + 4 ≤ 2 ^ 32) : headerSize (writeFooter m f v) a = headerSize m a :=
  load_congr fun x hx => writeFooter_apply m v (by bv_omega)

theorem headerSize_writeFront {m : Mem} {pos : U32} (h : (frontGap pos).toNat = 0 ∨ 20 ≤ (frontGap pos).toNat)
    (h' : (frontGap pos).toNat ≤ 0xFF4) : headerSize (writeFront m pos) pos = frontGap pos := by
  unfold writeFront
  rw [alignedHeader_eq, headerSize_writeFooter_apart _ _ (by bv_omega) (by bv_omega), headerSize_writeHeader]

section Carve

variable {h : Heap} {m : Mem} {p S z n : U32}

theorem carve_ptr : (h.carve m p S z n).1 = p + sizeofHeader := by
  unfold Heap.carve; simp only; split <;> rfl

theorem carve_heap : ∃ i, (h.carve m p S z n).2.1 = { h with index := i } ∧
    i.size = if n = S then h.index.size else h.index.size + 1 := by
  unfold Heap.carve
  by_cases hs : n = S
  · subst hs
    rw [if_neg (by simp)]
    exact ⟨h.index, rfl, by simp⟩
  · have hpos : S - n > 0 := by rw [gt_iff_lt, BitVec.lt_def]; bv_omega
    simp only [if_pos hpos, if_neg hs]
    exact ⟨_, rfl, by rw [OrderedList.insert_fst]⟩

theorem allocAt_bounds (h : Heap) (m : Mem) (i : Nat) (z : U32) (al : Bool) :
    (h.allocAt m i z al).2.1.startAddress = h.startAddress ∧
      (h.allocAt m i z al).2.1.endAddress = h.endAddress := by
  unfold Heap.allocAt
  simp only
  split
  all_goals
    rename_i hal
    obtain ⟨j, hj, -⟩ := carve_heap
    rw [hj]
    exact ⟨rfl, rfl⟩

theorem carve_mem (hcap : h.index.elements.toNat + 4 * heapIndexSize.toNat ≤ 2 ^ 32)
    (hroom : n ≠ S → h.index.size.toNat < heapIndexSize.toNat) :
    Keeps h.index.elements.toNat (h.index.elements.toNat + 4 * heapIndexSize.toNat)
      (if n = S then Heap.writeBlock m p z n
        else Heap.writeRest (Heap.writeBlock m p z n) h.endAddress (p + sizeofHeader + z + sizeofFooter) S n)
      (h.carve m p S z n).2.2 := by
  unfold Heap.carve
  by_cases hs : n = S
  · have hpos : ¬ S - n > 0 := by rw [hs]; simp
    simp only [if_neg hpos, if_pos hs]
    exact Keeps.refl _ _ _
  · have hpos : S - n > 0 := by rw [gt_iff_lt, BitVec.lt_def]; bv_omega
    simp only [if_pos hpos, if_neg hs]
    exact OrderedList.keeps_insert _ _ _ hcap (hroom hs)

/-- **The block's header reads its size**, however small the hole behind it. -/
theorem headerSize_carve (hn : n = z + sizeofHeader + sizeofFooter) (h20 : 20 ≤ n.toNat) (hle : n.toNat ≤ S.toNat)
    (hw : p.toNat + S.toNat < 2 ^ 32) (hidx : h.index.elements.toNat + 4 * heapIndexSize.toNat ≤ p.toNat)
    (hroom : n ≠ S → h.index.size.toNat < heapIndexSize.toNat) : headerSize (h.carve m p S z n).2.2 p = n := by
  have hb : headerSize (Heap.writeBlock m p z n) p = n := by
    unfold Heap.writeBlock
    rw [headerSize_writeFooter_apart _ _ (by unfold sizeofHeader sizeofFooter at *; bv_omega)
      (by unfold sizeofHeader sizeofFooter at *; bv_omega), headerSize_writeHeader]
  rw [headerSize_keep (carve_mem (by omega) hroom) (by omega) (.inr hidx)]
  split
  · exact hb
  · rename_i hs
    have hrest : p + sizeofHeader + z + sizeofFooter = p + n := by
      unfold sizeofHeader sizeofFooter at *; bv_omega
    have hne : n.toNat ≠ S.toNat := fun he => hs (BitVec.eq_of_toNat_eq he)
    unfold Heap.writeRest
    simp only [hrest]
    have hh : headerSize (writeHeader (Heap.writeBlock m p z n) (p + n) true (S - n)) p = n := by
      rw [headerSize_writeHeader_apart _ _ _ (by bv_omega) (by bv_omega), hb]
    split
    · rw [headerSize_writeFooter_apart _ _ (by unfold sizeofFooter; bv_omega) (by unfold sizeofFooter; bv_omega), hh]
    · exact hh

theorem headerSize_carve_rest (hn : n = z + sizeofHeader + sizeofFooter) (hle : n.toNat + 20 ≤ S.toNat)
    (hw : p.toNat + S.toNat < 2 ^ 32) (hidx : h.index.elements.toNat + 4 * heapIndexSize.toNat ≤ p.toNat)
    (hroom : h.index.size.toNat < heapIndexSize.toNat) :
    headerSize (h.carve m p S z n).2.2 (p + n) = S - n := by
  have hs : n ≠ S := fun he => by subst he; omega
  have hrest : p + sizeofHeader + z + sizeofFooter = p + n := by
    unfold sizeofHeader sizeofFooter at *; bv_omega
  rw [headerSize_keep (carve_mem (by omega) fun _ => hroom) (by bv_omega) (.inr (by bv_omega)), if_neg hs, hrest]
  unfold Heap.writeRest
  simp only
  split
  · rw [headerSize_writeFooter_apart _ _ (by unfold sizeofFooter; bv_omega) (by unfold sizeofFooter; bv_omega),
      headerSize_writeHeader]
  · rw [headerSize_writeHeader]

end Carve

/-! ## The request a hole holds -/

/-- What a page-aligned `Alloc` out of the hole `x` is to leave: a block in `x` with a page-aligned pointer, in a
well-formed heap that keeps every other segment. -/
structure PlacedAligned (segs : List Seg) (x : Seg) (size p : U32) (h' : Heap) (m' : Mem) (segs' : List Seg)
    (b : Seg) : Prop where
  wellFormed : WellFormed h' m' segs'
  kept : ∀ s ∈ segs, s ≠ x → s ∈ segs'
  mem : b ∈ segs'
  live : b.hole = false
  ptr : p = b.addr + sizeofHeader
  aligned : p.toNat % 0x1000 = 0
  enough : size.toNat + 20 ≤ b.size.toNat
  inside : x.addr.toNat ≤ b.addr.toNat ∧ b.addr.toNat + b.size.toNat ≤ x.addr.toNat + x.size.toNat

theorem Allocated.placed {h : Heap} {m : Mem} {segs segs' : List Seg} {x b : Seg} {size : U32} {r : U32 × Heap × Mem}
    (ha : Allocated h m h.startAddress.toNat segs x size r b segs') (hwf : WellFormed h m segs)
    (hal : r.1.toNat % 0x1000 = 0) : PlacedAligned segs x size r.1 r.2.1 r.2.2 segs' b := by
  obtain ⟨pre, post, front, rest, rfl, rfl, hc, hnew⟩ := ha.split
  obtain ⟨j, hj⟩ := ha.heap
  have hbx := hc.bounds b (by simp)
  have hinv := ha.inv
  refine ⟨⟨by rw [hj] at hinv ⊢; exact hinv, fun s hs => ?_⟩,
    fun s hs hne => ?_, by simp, ha.live, ha.ptr, hal, ha.enough,
    hbx.1, hbx.2.2⟩
  · have htied : ∀ t ∈ pre ++ post, t.tied = true := fun t ht => hwf.tied t (mem_around x ht)
    simp only [List.mem_append, List.mem_cons] at hs htied hnew
    rcases hs with (hs | hs | rfl | hs) | hs
    · exact htied s (.inl hs)
    · exact (hnew s (.inl hs)).2
    · exact hinv.live s (by simp) ha.live
    · exact (hnew s (.inr hs)).2
    · exact htied s (.inr hs)
  · simp only [List.mem_append, List.mem_cons] at hs ⊢
    rcases hs with hs | rfl | hs
    · exact .inl (.inl hs)
    · exact absurd rfl hne
    · exact .inr hs

section Converse

variable {h : Heap} {m : Mem} {base : Nat} {pre post segs' : List Seg} {x b : Seg} {i : Nat} {size : U32}

/-- A segment starting at `x` and the block behind it are apart, so no gap is smaller than a segment. -/
theorem gap_room {mid : List Seg} (hc : Cuts x.addr.toNat (x.addr.toNat + x.size.toNat) mid) (hb : b ∈ mid)
    (hlt : x.addr.toNat < b.addr.toNat) : x.addr.toNat + 20 ≤ b.addr.toNat := by
  cases mid with
  | nil => cases hb
  | cons q mid =>
    have hq : q.addr.toNat = x.addr.toNat := hc.1
    have hqr := q.room
    have hne : q ≠ b := fun he => by subst he; omega
    have := hc.apart (List.mem_cons_self ..) hb hne
    have hbb := hc.bounds b hb
    simp only [Seg.start_eq, Seg.len_eq] at this hbb
    omega

/-- A piece that starts where another of the cut ends, with less than a segment's room to the end, is not there. -/
theorem rest_room {mid : List Seg} (hc : Cuts x.addr.toNat (x.addr.toNat + x.size.toNat) mid) (hb : b ∈ mid)
    (hlt : b.addr.toNat + b.size.toNat < x.addr.toNat + x.size.toNat) :
    ∃ q ∈ mid, q.addr.toNat = b.addr.toNat + b.size.toNat ∧
      q.addr.toNat + q.size.toNat ≤ x.addr.toNat + x.size.toNat := by
  have hbb := hc.bounds b hb
  obtain ⟨q, hq, hq1, hq2⟩ := hc.cover (b.addr.toNat + b.size.toNat) (by simp only [Seg.start_eq] at hbb; omega) hlt
  have hqb := hc.bounds q hq
  simp only [Seg.start_eq, Seg.len_eq] at hbb hq1 hq2 hqb
  refine ⟨q, hq, ?_, hqb.2.2⟩
  have hne : q ≠ b := fun he => by subst he; omega
  have := hc.apart hq hb hne
  simp only [Seg.start_eq, Seg.len_eq] at this
  omega

/-- **A heap that `carve` leaves well-formed** has, outside the carved interval, at least as many holes
as the index listed before. -/
theorem carve_holes {mid : List Seg} {pos S n : U32} (hn : n = size + sizeofHeader + sizeofFooter) (h20 : 20 ≤ n.toNat)
    (hfit : n = S ∨ n.toNat + 20 ≤ S.toNat) (hw : pos.toNat + S.toNat < 2 ^ 32)
    (hidx : h.index.elements.toNat + 4 * heapIndexSize.toNat ≤ pos.toNat)
    (hsz : h.index.size.toNat ≤ heapIndexSize.toNat)
    (hwf' : WellFormed (h.carve m pos S size n).2.1 (h.carve m pos S size n).2.2 (pre ++ mid ++ post))
    (hc : Cuts pos.toNat (pos.toNat + S.toNat) mid) (hb : b ∈ mid) (hl : b.hole = false) (hba : b.addr = pos) :
    h.index.size.toNat ≤ (holes (pre ++ post)).length := by
  obtain ⟨j, hj, hjs⟩ := carve_heap (h := h) (m := m) (p := pos) (S := S) (z := size) (n := n)
  have hlen := hwf'.toMarks.length_holes
  have hle := hwf'.size
  rw [hj] at hlen hle
  simp only [hjs] at hlen hle
  have hroom : n ≠ S → h.index.size.toNat < heapIndexSize.toNat := fun hs => by
    have hcap : heapIndexSize.toNat = 0x20000 := rfl
    rw [if_neg hs] at hle
    bv_omega
  have hcn := headerSize_carve (h := h) (m := m) (p := pos) hn h20 (by rcases hfit with rfl | hf <;> omega) hw hidx
    hroom
  cases mid with
  | nil => cases hb
  | cons c rest =>
    obtain rfl : b = c := hc.eq_of_start hb (List.mem_cons_self ..) (by rw [hc.1]; simp [hba])
    have hbs := (hwf'.header b (by simp)).2.2
    rw [hba, hcn] at hbs
    simp only [holes_append, holes_cons_live hl, List.length_append] at hlen ⊢
    by_cases hs : n = S
    · -- nothing is left behind the block
      have hrest : rest = [] := by
        have h3 := hc.2.2
        rw [show len b = S.toNat by simp [← hbs, hs]] at h3
        exact h3.eq_nil
      subst hrest
      rw [if_pos hs] at hlen
      simp only [holes_nil, List.length_nil] at hlen
      omega
    · -- one hole is, and its header reads the rest of the interval
      have hge := hfit.resolve_left hs
      have hcr := headerSize_carve_rest (h := h) (m := m) (p := pos) hn hge hw hidx (hroom hs)
      have hcap : heapIndexSize.toNat = 0x20000 := rfl
      have hlt := hroom hs
      cases rest with
      | nil =>
        have := hc.2.2
        simp only [Seg.len_eq, ← hbs, cuts_nil] at this
        omega
      | cons q rest =>
        have hq := (hwf'.header q (by simp)).2.2
        have hqa : q.addr = pos + n := BitVec.eq_of_toNat_eq (by
          have := hc.2.2.1
          simp only [Seg.start_eq, Seg.len_eq, ← hbs] at this
          bv_omega)
        rw [hqa, hcr] at hq
        have hrest : rest = [] := by
          have h3 := hc.2.2.2.2
          rw [show pos.toNat + len b + len q = pos.toNat + S.toNat by
            simp only [Seg.len_eq, ← hbs, ← hq]; bv_omega] at h3
          exact h3.eq_nil
        subst hrest
        rw [if_neg hs] at hlen
        have h1 : (holes [q]).length ≤ 1 := by cases hqh : q.hole <;> simp [holes, hqh]
        bv_omega

theorem allocAt_carve (hi : Inv h m base (pre ++ x :: post)) (hget : h.index.getItemAtIndex m i = x.addr)
    (hgap : (frontGap x.addr).toNat = 0 ∨ 20 ≤ (frontGap x.addr).toNat) (hle : (frontGap x.addr).toNat ≤ 0xFF4)
    (hfit : (frontGap x.addr).toNat + (size.toNat + 20) ≤ x.size.toNat) :
    ∃ size' n, n = size' + sizeofHeader + sizeofFooter ∧
      n.toNat = (if x.size.toNat - (size.toNat + 20) < 20 then x.size.toNat else size.toNat + 20) ∧
      h.allocAt m i size true =
        h.carve (writeFront m x.addr) (x.addr + frontGap x.addr) (x.size - frontGap x.addr) size' n := by
  have hxs : headerSize m x.addr = x.size := (hi.header x (by simp)).2.2
  have hbase := low_base hi.toMarks
  have hx := (hi.within x (by simp)).1
  have hall := allocAt_true (h := h) (m := m) (i := i) (z := size)
    (by rw [hget]; exact and_page_ne_zero (by omega))
  simp only [hget, hxs, headerSize_writeFront hgap hle, alignedHeader_eq] at hall
  have hn : (size + sizeofHeader + sizeofFooter).toNat = size.toNat + 20 := by
    unfold sizeofHeader sizeofFooter; have := x.size.isLt; bv_omega
  have h20 : (sizeofHeader + sizeofFooter).toNat = 20 := rfl
  have hsub : (x.size - (size + sizeofHeader + sizeofFooter)).toNat = x.size.toNat - (size.toNat + 20) := by
    rw [BitVec.toNat_sub, hn]; omega
  by_cases hab : x.size - (size + sizeofHeader + sizeofFooter) < sizeofHeader + sizeofFooter
  · simp only [if_pos hab] at hall
    refine ⟨_, _, ?_, ?_, hall⟩
    · unfold sizeofHeader sizeofFooter; bv_omega
    · rw [BitVec.lt_def, hsub, h20] at hab
      rw [if_pos hab]
  · simp only [if_neg hab] at hall
    refine ⟨_, _, rfl, ?_, hall⟩
    rw [BitVec.lt_def, hsub, h20] at hab
    rw [if_neg hab, hn]

section Placed

variable (hwf : WellFormed h m (pre ++ x :: post)) (hget : h.index.getItemAtIndex m i = x.addr)
  (hp : PlacedAligned (pre ++ x :: post) x size (h.allocAt m i size true).1 (h.allocAt m i size true).2.1
    (h.allocAt m i size true).2.2 segs' b)

include hwf hget hp

/-- The block's header stands behind the gap. -/
theorem placed_addr : b.addr = x.addr + frontGap x.addr ∧ b.addr.toNat = x.addr.toNat + (frontGap x.addr).toNat := by
  have hbase := low_base hwf.toMarks
  have hbx := hwf.cut.bounds x (by simp)
  simp only [Seg.start_eq, Seg.len_eq] at hbx
  have hbr := b.room
  obtain ⟨hin1, hin2⟩ := hp.inside
  have hgap := toNat_frontGap x.addr
  have hba : b.addr = x.addr + frontGap x.addr := by
    have hall := allocAt_true (h := h) (m := m) (i := i) (z := size)
      (by rw [hget]; exact and_page_ne_zero (by omega))
    have hptr := hp.ptr
    rw [hall] at hptr
    simp only [carve_ptr, hget, alignedHeader_eq] at hptr
    bv_omega
  have hban := congrArg BitVec.toNat hba
  rw [BitVec.toNat_add] at hban
  exact ⟨hba, by omega⟩

omit hget

/-- The segments around the hole are kept, so the hole's place is cut anew. -/
theorem placed_middle : ∃ mid, segs' = pre ++ mid ++ post ∧ Cuts x.addr.toNat (x.addr.toNat + x.size.toNat) mid ∧
    b ∈ mid := by
  obtain ⟨hin1, hin2⟩ := hp.inside
  have hbr := b.room
  have hnx : ∀ y ∈ pre ++ post, y ≠ x := fun y hy he => by
    have := (vacant_of_cut hwf.toInv).apart y hy
    have := x.room
    subst he; omega
  have hcut' := hp.wellFormed.cut
  rw [(allocAt_bounds ..).1, (allocAt_bounds ..).2] at hcut'
  obtain ⟨mid, rfl, hc⟩ := hwf.cut.middle hcut' fun y hy => hp.kept y (mem_around x hy) (hnx y hy)
  refine ⟨mid, rfl, hc, ?_⟩
  have hmem := hp.mem
  rw [List.append_assoc, List.mem_append, List.mem_append] at hmem
  rcases hmem with hm | hm | hm
  · have := (vacant_of_cut hwf.toInv).apart b (List.mem_append_left _ hm)
    omega
  · exact hm
  · have := (vacant_of_cut hwf.toInv).apart b (List.mem_append_right _ hm)
    omega

end Placed

/-- **A placed block means the hole held it.** -/
theorem holdsAligned_of_placed (hwf : WellFormed h m (pre ++ x :: post)) (hx : x.hole = true)
    (hget : h.index.getItemAtIndex m i = x.addr)
    (hp : PlacedAligned (pre ++ x :: post) x size (h.allocAt m i size true).1 (h.allocAt m i size true).2.1
      (h.allocAt m i size true).2.2 segs' b) :
    HoldsAligned x (size.toNat + 20) ∧
      ((frontGap x.addr).toNat + (size.toNat + 20) ≠ x.size.toNat → h.index.size.toNat < heapIndexSize.toNat) := by
  have hbelow := hwf.below
  have hbx := hwf.cut.bounds x (by simp)
  simp only [Seg.start_eq, Seg.len_eq] at hbx
  have hbr := b.room
  obtain ⟨hin1, hin2⟩ := hp.inside
  have henough := hp.enough
  have hgap := toNat_frontGap x.addr
  obtain ⟨hba, hban⟩ := placed_addr hwf hget hp
  have hle : (frontGap x.addr).toNat ≤ 0xFF4 := by omega
  have hfit : (frontGap x.addr).toNat + (size.toNat + 20) ≤ x.size.toNat := by omega
  obtain ⟨mid, rfl, hc, hb⟩ := placed_middle hwf hp
  have hcnt := hwf.toMarks.length_holes
  rw [holes_append, holes_cons_hole hx] at hcnt
  simp only [List.length_append, List.length_cons] at hcnt
  -- a gap is nothing or a segment
  have hg : (frontGap x.addr).toNat = 0 ∨ 20 ≤ (frontGap x.addr).toNat := by
    by_cases h0 : (frontGap x.addr).toNat = 0
    · exact .inl h0
    · have := gap_room hc hb (by omega)
      omega
  obtain ⟨size', n, hn, hnn, hall⟩ := allocAt_carve (i := i) hwf.toInv hget hg hle hfit
  have hS : (x.size - frontGap x.addr).toNat = x.size.toNat - (frontGap x.addr).toNat := by
    rw [BitVec.toNat_sub]; omega
  have hwf' := hp.wellFormed
  rw [hall] at hwf'
  rcases hg with h0 | h20
  · -- no gap: the index goes on listing the block's header
    have hpos : (x.addr + frontGap x.addr).toNat = x.addr.toNat := by rw [← hba]; omega
    have := carve_holes hn (by split at hnn <;> omega) (by
        split at hnn
        · exact .inl (BitVec.eq_of_toNat_eq (by omega))
        · exact .inr (by omega))
      (by omega) (by omega) hwf.size hwf' (by rw [hpos, hS, h0]; exact hc) hb hp.live hba
    simp only [holes_append, List.length_append] at this
    omega
  · -- a gap: the block's header reads exactly the requested size
    rw [if_neg (by omega)] at hnn
    have hrest : n ≠ x.size - frontGap x.addr → h.index.size.toNat < heapIndexSize.toNat := fun hne => by
      obtain ⟨j, hj, hjs⟩ := carve_heap (h := h) (m := writeFront m x.addr) (p := x.addr + frontGap x.addr)
        (S := x.size - frontGap x.addr) (z := size') (n := n)
      have hsz := hwf'.size
      rw [hj] at hsz
      simp only [hjs, if_neg hne] at hsz
      have hcap : heapIndexSize.toNat = 0x20000 := rfl
      have := hwf.size
      have h1 : (h.index.size + 1).toNat = h.index.size.toNat + 1 := by rw [BitVec.toNat_add]; simp; omega
      omega
    refine ⟨⟨h20, ?_⟩, fun hne => hrest fun he => hne (by rw [he, hS] at hnn; omega)⟩
    have hbs := (hwf'.header b hp.mem).2.2
    rw [hba, headerSize_carve hn (by omega) (by omega) (by rw [← hba]; omega) (by rw [← hba]; omega) hrest] at hbs
    by_cases he : b.addr.toNat + b.size.toNat < x.addr.toNat + x.size.toNat
    · obtain ⟨q, hq, hq1, hq2⟩ := rest_room hc hb he
      have := q.room
      rw [← hbs] at hq1
      right; omega
    · rw [← hbs] at he hin2
      left; omega

end Converse

/-! ## `Alloc` -/

/-- **Page-aligned `Alloc` from a selected hole** places its block exactly when the hole holds it: the gap in front has
room for a header and a footer, what is left behind the block is nothing or has that room too, and in the second case
the index has a free slot. -/
theorem alloc_aligned_iff {k : Kernel} {segs : List Seg} {x : Seg} {size : U32} {i : Nat}
    (hwf : WellFormed k.heap k.mem segs)
    (hsel : k.heap.findSmallestHole k.mem (size + sizeofHeader + sizeofFooter) true = some i)
    (hx : x ∈ segs) (hxi : x.addr = k.heap.index.getItemAtIndex k.mem i) :
    (∃ p k', (∀ fuel, Kernel.alloc (fuel + 1) k size true = some (p, k')) ∧
      ∃ segs' b, PlacedAligned segs x size p k'.heap k'.mem segs' b) ↔
    HoldsAligned x (size.toNat + 20) ∧
      ((frontGap x.addr).toNat + (size.toNat + 20) ≠ x.size.toNat →
        k.heap.index.size.toNat < heapIndexSize.toNat) := by
  have hi := (Heap.findSmallestHole_some hsel).1
  have hhole : x.hole = true := by
    obtain ⟨y, hy, hyh, hya⟩ := hwf.hole_at hi
    rwa [hwf.toInv.seg_eq hx hy (hxi.trans hya.symm)]
  obtain ⟨pre, post, rfl⟩ := List.append_of_mem hx
  constructor
  · rintro ⟨p, k', hrun, segs', b, hp⟩
    obtain ⟨rfl, rfl⟩ := Kernel.alloc_found hsel (hrun 0)
    exact holdsAligned_of_placed hwf hhole hxi.symm hp
  · rintro ⟨hfit, hroom⟩
    obtain ⟨b, segs', ha, hal, -⟩ := allocAt_aligned hwf.toInv hhole hxi.symm hfit hroom
    refine ⟨_, _, fun fuel => Kernel.alloc_of_found fuel hsel, segs', b, ?_⟩
    exact ha.placed hwf hal

/-- A hole at the start of a heap, and the request for all of it. -/
def wholeHole : Seg := ⟨0xC0080000, 0x10000, true, true, by decide⟩

def wholeHeap : Kernel :=
  Kernel.ofHeap ⟨⟨0xC0000000, 1, heapIndexSize⟩, 0xC0080000, 0xC0090000, 0, false, false⟩
    (layout 0xC0000000 [wholeHole])

theorem alloc_aligned_page :
    (∃ p k', (∀ fuel, Kernel.alloc (fuel + 1) wholeHeap 0x1000 true = some (p, k')) ∧
      ∃ segs' b, PlacedAligned [wholeHole] wholeHole 0x1000 p k'.heap k'.mem segs' b) :=
  (alloc_aligned_iff (k := wholeHeap) (i := 0)
    (show WellFormed wholeHeap.heap wholeHeap.mem [wholeHole] by decide +kernel)
    (by decide +kernel)
    (List.mem_singleton.2 rfl) (by decide +kernel)).2 (by decide +kernel)

/-- `FindSmallestHole` selects a hole of exactly the requested size, and the block behind the gap runs past it. -/
theorem alloc_aligned_exact_overruns :
    WellFormed wholeHeap.heap wholeHeap.mem [wholeHole] ∧
    wholeHeap.heap.findSmallestHole wholeHeap.mem (0xFFEC + sizeofHeader + sizeofFooter) true = some 0 ∧
    ¬ ∃ p k', (∀ fuel, Kernel.alloc (fuel + 1) wholeHeap 0xFFEC true = some (p, k')) ∧
      ∃ segs' b, PlacedAligned [wholeHole] wholeHole 0xFFEC p k'.heap k'.mem segs' b := by
  have hwf : WellFormed wholeHeap.heap wholeHeap.mem ([] ++ wholeHole :: []) := by decide +kernel
  have hsel : wholeHeap.heap.findSmallestHole wholeHeap.mem (0xFFEC + sizeofHeader + sizeofFooter) true = some 0 := by
    decide +kernel
  refine ⟨hwf, hsel, fun ⟨p, k', hrun, segs', b, hp⟩ => ?_⟩
  obtain ⟨rfl, rfl⟩ := Kernel.alloc_found hsel (hrun 0)
  exact absurd (holdsAligned_of_placed hwf rfl (by decide +kernel) hp).1 (by decide +kernel)

end Loris
