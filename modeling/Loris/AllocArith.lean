import Loris.AlignedSearch
import Loris.Kernel
/-!
# AllocArith — when `Alloc` computes sizes without wrapping

The unsigned sums and differences of sizes that a pass of `Alloc` forms, in the order it forms them: the request with
its header and footer, the holes' sizes less the search's offset, and, for the chosen hole, the rest, the gap in front
and the rest behind the gap.  A pass that finds no hole expands the heap and calls `Alloc` again.  `alloc_no_wrap` says
of each of these passes when every sum and difference is the exact one, and that the block then has room for the
request.
-/
namespace Loris

open ByteMem

/-- An unsigned sum or difference. -/
inductive Arith where
  | add (a b : U32)
  | sub (a b : U32)

/-- It does not wrap around. -/
def Arith.Exact : Arith → Prop
  | .add a b => a.toNat + b.toNat < 2 ^ 32
  | .sub a b => b.toNat ≤ a.toNat

instance : DecidablePred Arith.Exact
  | .add _ _ => inferInstanceAs (Decidable (_ < _))
  | .sub _ _ => inferInstanceAs (Decidable (_ ≤ _))

namespace Heap

/-- `FindSmallestHole`, at one header. -/
def fitsArith (m : Mem) (pageAlign : Bool) (header : U32) : List Arith :=
  if pageAlign then
    if maskTest (header + sizeofHeader) then
      [.sub 0x1000 ((header + sizeofHeader) % 0x1000),
        .sub (headerSize m header) (0x1000 - (header + sizeofHeader) % 0x1000)]
    else [.sub (headerSize m header) 0]
  else []

/-- The loop of `FindSmallestHole` from `iterator` on. -/
def searchArith (h : Heap) (m : Mem) (size : U32) (pageAlign : Bool) : Nat → Nat → List Arith
  | 0, _ => []
  | k + 1, iterator =>
    fitsArith m pageAlign (h.index.getItemAtIndex m iterator) ++
      if fits m size pageAlign (h.index.getItemAtIndex m iterator) then []
      else searchArith h m size pageAlign k (iterator + 1)

/-- The number of bytes between the block's header and its footer, when `S` is the size of the chosen hole. -/
def payload (S size : U32) : U32 :=
  if S - (size + sizeofHeader + sizeofFooter) < sizeofHeader + sizeofFooter then
    size + (S - (size + sizeofHeader + sizeofFooter))
  else size

/-- The size of the block. -/
def blockSize (S size : U32) : U32 :=
  if S - (size + sizeofHeader + sizeofFooter) < sizeofHeader + sizeofFooter then S
  else size + sizeofHeader + sizeofFooter

/-- The gap's size, as `Alloc` reads it back from the gap's header. -/
def gapRead (m : Mem) (pos : U32) : U32 := headerSize (writeFront m pos) pos

/-- `Alloc` from the chosen hole on, up to the block's header. -/
def absorbArith (S size : U32) : List Arith :=
  .sub S (size + sizeofHeader + sizeofFooter) ::
    if S - (size + sizeofHeader + sizeofFooter) < sizeofHeader + sizeofFooter then
      [.sub S (size + sizeofHeader + sizeofFooter), .add size (S - (size + sizeofHeader + sizeofFooter))]
    else []

/-- The gap in front of a page-aligned block, and what is left of the hole behind it. -/
def gapArith (m : Mem) (pos S : U32) : List Arith :=
  [.sub 0x1000 (pos &&& 0xFFF), .sub (0x1000 - (pos &&& 0xFFF)) sizeofHeader, .sub S (gapRead m pos)]

/-- The hole behind the block, in what is left of the chosen one. -/
def restArith (S new_size : U32) : List Arith := .sub S new_size :: if S - new_size > 0 then [.sub S new_size] else []

/-- `Alloc`, once the hole at `pos` is chosen. -/
def splitArith (m : Mem) (pos size : U32) (page_align : Bool) : List Arith :=
  let S := headerSize m pos
  absorbArith S size ++
    if page_align && (pos &&& 0xFFFFF000) != 0 then gapArith m pos S ++ restArith (S - gapRead m pos) (blockSize S size)
    else restArith S (blockSize S size)

/-- **A pass of `Alloc`**, up to the expansion when it finds no hole. -/
def passArith (h : Heap) (m : Mem) (size : U32) (page_align : Bool) : List Arith :=
  .add size sizeofHeader :: .add (size + sizeofHeader) sizeofFooter ::
    (h.searchArith m (size + sizeofHeader + sizeofFooter) page_align h.index.size.toNat 0 ++
      match h.findSmallestHole m (size + sizeofHeader + sizeofFooter) page_align with
      | some i => splitArith m (h.index.getItemAtIndex m i) size page_align
      | none => [])

variable {h : Heap} {m : Mem} {size S pos : U32} {i : Nat} {al : Bool}

theorem allocAt_payload (h : Heap) (m : Mem) (i : Nat) (size : U32) (al : Bool) :
    h.allocAt m i size al =
      let pos := h.index.getItemAtIndex m i
      let S := headerSize m pos
      if al && (pos &&& 0xFFFFF000) != 0 then
        h.carve (writeFront m pos) (alignedHeader pos) (S - gapRead m pos) (payload S size) (blockSize S size)
      else
        { h with index := (h.index.remove m i).1 }.carve (h.index.remove m i).2 pos S (payload S size)
          (blockSize S size) := by
  simp only [allocAt, decide_eq_true_eq]
  rfl

/-- **There is room for the request** between the block's header and its footer. -/
structure RoomFor (S size : U32) : Prop where
  enough : size.toNat ≤ (payload S size).toNat
  whole : (blockSize S size).toNat = (payload S size).toNat + 20

/-- The sizes of a pass, as exact as they are in the search and the split of the hole it comes to. -/
structure PassExact (h : Heap) (m : Mem) (size : U32) (al : Bool) : Prop where
  arith : ∀ o ∈ h.passArith m size al, o.Exact
  room : ∀ i, h.findSmallestHole m (size + sizeofHeader + sizeofFooter) al = some i → RoomFor (h.sizeAt m i) size

/-- Byte `k` of the size field of a gap at `pos`: the footer lies over it when the gap has from 9 to 19 bytes. -/
def gapByte (pos : U32) (k : Nat) : Byte :=
  if 8 + k < (frontGap pos).toNat ∧ (frontGap pos).toNat ≤ 16 + k then
    if 16 + k - (frontGap pos).toNat < 4 then byteOf heapMagic (16 + k - (frontGap pos).toNat)
    else byteOf pos (12 + k - (frontGap pos).toNat)
  else byteOf (frontGap pos) k

/-- The size of a gap at `pos`, as its header keeps it. -/
def gapKept (pos : U32) : U32 := load (fun a => gapByte pos a.toNat) 0

/-- The gap and the request fit in the hole of `S` bytes at `pos`; a hole that is less than 20 bytes larger than the
request goes to the block as a whole, and has no gap. -/
def GapFits (pos S size : U32) : Prop :=
  pos.toNat % 0x1000 ≤ 0xFF4 ∧
    if S.toNat < size.toNat + 40 then (gapKept pos).toNat = 0
    else (gapKept pos).toNat + size.toNat + 20 ≤ S.toNat

/-- **When the sizes of a pass do not wrap**: the request leaves room for a header and a footer, and, page-aligned, no
hole the search comes to is smaller than its offset, and the one it stops at holds the request behind its gap. -/
structure SizesFit (h : Heap) (m : Mem) (size : U32) (al : Bool) : Prop where
  request : size.toNat + 20 < 2 ^ 32
  offset : al = true → ∀ j, j < h.index.size.toNat →
    (∀ j', j' < j → fits m (size + sizeofHeader + sizeofFooter) al (h.index.getItemAtIndex m j') = false) →
      searchOffset (h.index.getItemAtIndex m j) ≤ (h.sizeAt m j).toNat
  gap : al = true → ∀ j, j < h.index.size.toNat →
    (∀ j', j' < j → fits m (size + sizeofHeader + sizeofFooter) al (h.index.getItemAtIndex m j') = false) →
      fits m (size + sizeofHeader + sizeofFooter) al (h.index.getItemAtIndex m j) = true →
        0x1000 ≤ (h.index.getItemAtIndex m j).toNat →
          GapFits (h.index.getItemAtIndex m j) (h.sizeAt m j) size

/-! ## The search -/

theorem fitsArith_exact {a : U32} : (∀ o ∈ fitsArith m al a, o.Exact) ↔
    (al = true → searchOffset a ≤ (headerSize m a).toNat) := by
  have hoff := toNat_offset a
  unfold fitsArith
  cases al with
  | false => simp
  | true =>
    simp only [if_true, true_implies]
    split
    · rename_i hm
      rw [if_pos hm] at hoff
      have hlt : ((a + sizeofHeader) % 0x1000).toNat < 0x1000 := by
        rw [BitVec.toNat_umod]; exact Nat.mod_lt _ (by decide)
      simp only [List.forall_mem_cons, Arith.Exact, hoff]
      exact ⟨fun h => h.2.1, fun h => ⟨Nat.le_of_lt hlt, h, by simp⟩⟩
    · rename_i hm
      rw [if_neg hm] at hoff
      simp only [List.forall_mem_cons, Arith.Exact]
      rw [← hoff]
      exact ⟨fun h => h.1, fun h => ⟨h, by simp⟩⟩

/-- **The search is exact when no header it comes to has a size below its offset.** -/
theorem searchArith_exact {n : U32} : ∀ {k i : Nat}, (∀ o ∈ h.searchArith m n al k i, o.Exact) ↔
    ∀ j, i ≤ j → j < i + k → (∀ j', i ≤ j' → j' < j → fits m n al (h.index.getItemAtIndex m j') = false) →
      al = true → searchOffset (h.index.getItemAtIndex m j) ≤ (h.sizeAt m j).toNat
  | 0, i => by
    unfold searchArith
    exact ⟨fun _ j hj hlt => absurd hlt (by omega), fun _ _ ho => by cases ho⟩
  | k + 1, i => by
    unfold searchArith
    rw [List.forall_mem_append, fitsArith_exact]
    constructor
    · rintro ⟨h1, h2⟩ j hj hlt hno
      rcases Nat.eq_or_lt_of_le hj with rfl | hij
      · exact h1
      · rw [if_neg (by rw [hno i (Nat.le_refl i) hij]; exact Bool.false_ne_true), searchArith_exact] at h2
        exact h2 j hij (by omega) fun j' hj' => hno j' (by omega)
    · intro hall
      refine ⟨hall i (Nat.le_refl i) (by omega) fun j' hj' hlt => absurd hlt (by omega), ?_⟩
      split
      · exact fun _ ho => by cases ho
      · rename_i hf
        rw [searchArith_exact]
        refine fun j hj hlt hno => hall j (by omega) (by omega) fun j' hj' hlt' => ?_
        rcases Nat.eq_or_lt_of_le hj' with rfl | hij
        · exact Bool.eq_false_iff.2 hf
        · exact hno j' hij hlt'

/-! ## The split -/

theorem toNat_request (hs : size.toNat + 20 < 2 ^ 32) :
    (size + sizeofHeader + sizeofFooter).toNat = size.toNat + 20 := by
  unfold sizeofHeader sizeofFooter
  bv_omega

theorem absorbArith_exact (hs : size.toNat + 20 < 2 ^ 32) (hS : size.toNat + 20 ≤ S.toNat) :
    ∀ o ∈ absorbArith S size, o.Exact := by
  have hn := toNat_request hs
  have hlt := S.isLt
  have hd : (S - (size + sizeofHeader + sizeofFooter)).toNat = S.toNat - (size.toNat + 20) := by
    rw [BitVec.toNat_sub, hn]
    omega
  unfold absorbArith
  rw [List.forall_mem_cons]
  refine ⟨by show (size + sizeofHeader + sizeofFooter).toNat ≤ S.toNat; omega, ?_⟩
  split
  · simp only [List.forall_mem_cons, Arith.Exact, hn, hd]
    exact ⟨hS, by omega, by simp⟩
  · simp

theorem absorb_iff (hs : size.toNat + 20 < 2 ^ 32) (hS : size.toNat + 20 ≤ S.toNat) :
    S - (size + sizeofHeader + sizeofFooter) < sizeofHeader + sizeofFooter ↔ S.toNat < size.toNat + 40 := by
  have hn := toNat_request hs
  have hlt := S.isLt
  have h20 : (sizeofHeader + sizeofFooter).toNat = 20 := rfl
  rw [BitVec.lt_def, BitVec.toNat_sub, hn, h20]
  omega

theorem toNat_blockSize (hs : size.toNat + 20 < 2 ^ 32) (hS : size.toNat + 20 ≤ S.toNat) :
    (blockSize S size).toNat = if S.toNat < size.toNat + 40 then S.toNat else size.toNat + 20 := by
  unfold blockSize
  by_cases ha : S.toNat < size.toNat + 40
  · rw [if_pos ((absorb_iff hs hS).2 ha), if_pos ha]
  · rw [if_neg fun h => ha ((absorb_iff hs hS).1 h), if_neg ha, toNat_request hs]

theorem toNat_payload (hs : size.toNat + 20 < 2 ^ 32) (hS : size.toNat + 20 ≤ S.toNat) :
    (payload S size).toNat = if S.toNat < size.toNat + 40 then S.toNat - 20 else size.toNat := by
  have hlt := S.isLt
  unfold payload
  by_cases ha : S.toNat < size.toNat + 40
  · rw [if_pos ((absorb_iff hs hS).2 ha), if_pos ha, BitVec.toNat_add, BitVec.toNat_sub, toNat_request hs]
    omega
  · rw [if_neg fun h => ha ((absorb_iff hs hS).1 h), if_neg ha]

theorem roomFor (hs : size.toNat + 20 < 2 ^ 32) (hS : size.toNat + 20 ≤ S.toNat) : RoomFor S size := by
  have h1 := toNat_blockSize hs hS
  have h2 := toNat_payload hs hS
  refine ⟨?_, ?_⟩
  · rw [h2]
    split <;> omega
  · rw [h1, h2]
    split <;> omega

theorem restArith_exact {n : U32} : (∀ o ∈ restArith S n, o.Exact) ↔ n.toNat ≤ S.toNat := by
  unfold restArith
  rw [List.forall_mem_cons]
  refine ⟨fun h => h.1, fun h => ⟨h, ?_⟩⟩
  split
  · exact fun o ho => by obtain rfl := List.mem_singleton.1 ho; exact h
  · exact fun _ ho => by cases ho

theorem writeFront_sizeByte (m : Mem) (pos : U32) {k : Nat} (hk : k < 4) :
    writeFront m pos (pos + 8 + BitVec.ofNat 32 k) = gapByte pos k := by
  have hG := toNat_frontGap pos
  have hlt := (frontGap pos).isLt
  have hsize : (pos + 8 + BitVec.ofNat 32 k - (pos + 8)).toNat = k := by bv_omega
  have hmagic : (pos + 8 + BitVec.ofNat 32 k - (pos + frontGap pos - sizeofFooter)).toNat =
      (2 ^ 32 + 16 + k - (frontGap pos).toNat) % 2 ^ 32 := by unfold sizeofFooter; bv_omega
  have hptr : (pos + 8 + BitVec.ofNat 32 k - (pos + frontGap pos - sizeofFooter + 4)).toNat =
      (2 ^ 32 + 12 + k - (frontGap pos).toNat) % 2 ^ 32 := by unfold sizeofFooter; bv_omega
  unfold writeFront writeFooter setFooterHeader writeHeader setHeaderSize gapByte
  rw [alignedHeader_eq]
  generalize (frontGap pos).toNat = G at *
  unfold store
  rw [hptr, hmagic, hsize]
  split_ifs <;> first | omega | rfl | (congr 1; omega)

theorem gapRead_eq (m : Mem) (pos : U32) : gapRead m pos = gapKept pos := by
  have h0 := writeFront_sizeByte m pos (k := 0) (by decide)
  rw [show pos + 8 + BitVec.ofNat 32 0 = pos + 8 from BitVec.add_zero _] at h0
  unfold gapRead headerSize gapKept load
  rw [h0, show writeFront m pos (pos + 8 + 1) = gapByte pos 1 from writeFront_sizeByte m pos (by decide),
    show writeFront m pos (pos + 8 + 2) = gapByte pos 2 from writeFront_sizeByte m pos (by decide),
    show writeFront m pos (pos + 8 + 3) = gapByte pos 3 from writeFront_sizeByte m pos (by decide)]
  rfl

theorem gapArith_exact : (∀ o ∈ gapArith m pos S, o.Exact) ↔
    pos.toNat % 0x1000 ≤ 0xFF4 ∧ (gapKept pos).toNat ≤ S.toNat := by
  have hand := toNat_and_offset pos
  have hmod := Nat.mod_lt pos.toNat (show 0x1000 > 0 by decide)
  have h1000 : (0x1000 : U32).toNat = 0x1000 := rfl
  have h12 : sizeofHeader.toNat = 12 := rfl
  have hsub : (0x1000 - (pos &&& 0xFFF)).toNat = 0x1000 - pos.toNat % 0x1000 := by
    rw [BitVec.toNat_sub, hand, h1000]
    omega
  unfold gapArith
  simp only [List.forall_mem_cons, Arith.Exact, hand, hsub, h1000, h12, gapRead_eq]
  exact ⟨fun ⟨_, h2, h3, _⟩ => ⟨by omega, h3⟩, fun ⟨h2, h3⟩ => ⟨by omega, by omega, h3, fun _ ho => by cases ho⟩⟩

/-- **The split is exact** when the gap, if there is one, leaves the request its room. -/
theorem splitArith_exact (hs : size.toNat + 20 < 2 ^ 32) (hS : size.toNat + 20 ≤ (headerSize m pos).toNat) :
    (∀ o ∈ splitArith m pos size al, o.Exact) ↔
      (al = true → 0x1000 ≤ pos.toNat → GapFits pos (headerSize m pos) size) := by
  have hB := toNat_blockSize hs hS
  have hpage : (al && (pos &&& 0xFFFFF000) != 0) = true ↔ al = true ∧ 0x1000 ≤ pos.toNat := by
    rw [Bool.and_eq_true, bne_iff_ne, ne_eq, ← BitVec.toNat_inj, toNat_and_page]
    refine and_congr_right fun _ => ?_
    show ¬ _ = 0 ↔ _
    omega
  unfold splitArith
  simp only [List.forall_mem_append]
  rw [and_iff_right (absorbArith_exact hs hS)]
  by_cases hal : al = true ∧ 0x1000 ≤ pos.toNat
  · rw [if_pos (hpage.2 hal), List.forall_mem_append, gapArith_exact, restArith_exact]
    rw [show (al = true → 0x1000 ≤ pos.toNat → GapFits pos (headerSize m pos) size) ↔
      GapFits pos (headerSize m pos) size from ⟨fun h => h hal.1 hal.2, fun h _ _ => h⟩]
    unfold GapFits
    rw [and_assoc]
    refine and_congr_right fun _ => ?_
    rw [gapRead_eq]
    have hlt := (headerSize m pos).isLt
    have hd : (gapKept pos).toNat ≤ (headerSize m pos).toNat →
        (headerSize m pos - gapKept pos).toNat = (headerSize m pos).toNat - (gapKept pos).toNat := fun hle => by
      rw [BitVec.toNat_sub]
      omega
    constructor
    · rintro ⟨h2, h3⟩
      rw [hd h2, hB] at h3
      split at h3 <;> rename_i ha
      · rw [if_pos ha]; omega
      · rw [if_neg ha]; omega
    · intro h2
      have hle : (gapKept pos).toNat ≤ (headerSize m pos).toNat := by split at h2 <;> omega
      rw [hd hle, hB]
      refine ⟨hle, ?_⟩
      split at h2 <;> rename_i ha
      · rw [if_pos ha]; omega
      · rw [if_neg ha]; omega
  · rw [if_neg fun h => hal (hpage.1 h), restArith_exact, hB]
    refine ⟨fun _ h1 h2 => absurd ⟨h1, h2⟩ hal, fun _ => ?_⟩
    split <;> omega

/-! ## A pass -/

theorem size_le_of_fits {n a : U32} (hf : fits m n al a = true)
    (ho : al = true → searchOffset a ≤ (headerSize m a).toNat) : n.toNat ≤ (headerSize m a).toNat := by
  cases al with
  | false => simpa only [fits, Bool.false_eq_true, if_false, decide_eq_true_eq, ge_iff_le, BitVec.le_def] using hf
  | true =>
    have h1 := (fits_iff m n a).1 hf
    rw [if_pos (ho rfl)] at h1
    omega

/-- **A pass is exact exactly when its sizes fit.** -/
theorem passExact_iff : h.PassExact m size al ↔ h.SizesFit m size al := by
  have h12 : sizeofHeader.toNat = 12 := rfl
  have h8 : sizeofFooter.toNat = 8 := rfl
  have hreq : (Arith.add size sizeofHeader).Exact ∧ (Arith.add (size + sizeofHeader) sizeofFooter).Exact ↔
      size.toNat + 20 < 2 ^ 32 := by
    simp only [Arith.Exact, h12, h8, BitVec.toNat_add]
    omega
  have hsearch : (∀ o ∈ h.searchArith m (size + sizeofHeader + sizeofFooter) al h.index.size.toNat 0, o.Exact) ↔
      (al = true → ∀ j, j < h.index.size.toNat →
        (∀ j', j' < j → fits m (size + sizeofHeader + sizeofFooter) al (h.index.getItemAtIndex m j') = false) →
          searchOffset (h.index.getItemAtIndex m j) ≤ (h.sizeAt m j).toNat) := by
    rw [searchArith_exact]
    exact ⟨fun hh hal j hj hno => hh j (Nat.zero_le j) (by omega) (fun j' _ => hno j') hal,
      fun hh j _ hj hno hal => hh hal j (by omega) fun j' => hno j' (Nat.zero_le j')⟩
  -- what is left is the hole the search stops at
  have hsplit : size.toNat + 20 < 2 ^ 32 → (al = true → ∀ j, j < h.index.size.toNat →
      (∀ j', j' < j → fits m (size + sizeofHeader + sizeofFooter) al (h.index.getItemAtIndex m j') = false) →
        searchOffset (h.index.getItemAtIndex m j) ≤ (h.sizeAt m j).toNat) →
      ∀ i, h.findSmallestHole m (size + sizeofHeader + sizeofFooter) al = some i →
        size.toNat + 20 ≤ (h.sizeAt m i).toNat := fun hs ho i hf => by
    obtain ⟨hi, hfit, hfirst⟩ := findSmallestHole_some hf
    have := size_le_of_fits hfit fun hal => ho hal i hi hfirst
    rwa [toNat_request hs] at this
  constructor
  · rintro ⟨harith, -⟩
    unfold passArith at harith
    simp only [List.forall_mem_cons, List.forall_mem_append] at harith
    obtain ⟨h1, h2, h3, h4⟩ := harith
    have hs := hreq.1 ⟨h1, h2⟩
    have ho := hsearch.1 h3
    refine ⟨hs, ho, fun hal j hj hno hf hpos => ?_⟩
    cases hfind : h.findSmallestHole m (size + sizeofHeader + sizeofFooter) al with
    | none =>
      rw [findSmallestHole_none.1 hfind j hj] at hf
      cases hf
    | some i =>
      obtain ⟨hi, hfit, hfirst⟩ := findSmallestHole_some hfind
      obtain rfl : i = j := by
        rcases Nat.lt_trichotomy i j with hlt | heq | hlt
        · rw [hno i hlt] at hfit
          cases hfit
        · exact heq
        · rw [hfirst j hlt] at hf
          cases hf
      rw [hfind] at h4
      exact (splitArith_exact hs (hsplit hs ho i hfind)).1 h4 hal hpos
  · rintro ⟨hs, ho, hg⟩
    refine ⟨?_, fun i hf => roomFor hs (hsplit hs ho i hf)⟩
    unfold passArith
    simp only [List.forall_mem_cons, List.forall_mem_append]
    refine ⟨(hreq.2 hs).1, (hreq.2 hs).2, hsearch.2 ho, ?_⟩
    cases hfind : h.findSmallestHole m (size + sizeofHeader + sizeofFooter) al with
    | none => exact fun _ ho => by cases ho
    | some i =>
      obtain ⟨hi, hfit, hfirst⟩ := findSmallestHole_some hfind
      exact (splitArith_exact hs (hsplit hs ho i hfind)).2 fun hal hpos => hg hal i hi hfirst hfit hpos

end Heap

namespace Kernel

/-- The kernel in which a call of `Alloc` in `k` searches again, each time after it found no hole and expanded the
heap. -/
inductive Retries (size : U32) (al : Bool) (k : Kernel) : Kernel → Prop where
  | first : Retries size al k k
  | again {k₁ k₂ : Kernel} (fuel : Nat) : Retries size al k k₁ →
      k₁.heap.findSmallestHole k₁.mem (size + sizeofHeader + sizeofFooter) al = none →
      grow (alloc fuel) k₁ (size + sizeofHeader + sizeofFooter) = some k₂ → Retries size al k k₂

/-- **When `Alloc` computes sizes without wrapping**: exactly when, at the call and at each retry, they fit. -/
theorem alloc_no_wrap (k : Kernel) (size : U32) (al : Bool) :
    (∀ k', Retries size al k k' → k'.heap.PassExact k'.mem size al) ↔
      ∀ k', Retries size al k k' → k'.heap.SizesFit k'.mem size al :=
  forall₂_congr fun _ _ => Heap.passExact_iff

/-- A request near `2 ^ 32` wraps around to 4 bytes, of which the payload has none. -/
theorem alloc_wraps : WellFormed wholeHeap.heap wholeHeap.mem [wholeHole] ∧
    ¬ (Arith.add (0xFFFFFFF0 + sizeofHeader) sizeofFooter).Exact ∧
    wholeHeap.heap.findSmallestHole wholeHeap.mem (0xFFFFFFF0 + sizeofHeader + sizeofFooter) false = some 0 ∧
    ¬ Heap.RoomFor (wholeHeap.heap.sizeAt wholeHeap.mem 0) 0xFFFFFFF0 ∧
    ¬ (∀ k', Retries 0xFFFFFFF0 false wholeHeap k' → k'.heap.PassExact k'.mem 0xFFFFFFF0 false) := by
  have hfind : wholeHeap.heap.findSmallestHole wholeHeap.mem (0xFFFFFFF0 + sizeofHeader + sizeofFooter) false
      = some 0 := by
    decide +kernel
  have hroom : ¬ Heap.RoomFor (wholeHeap.heap.sizeAt wholeHeap.mem 0) 0xFFFFFFF0 := fun h =>
    absurd h.whole (by decide +kernel)
  exact ⟨by decide +kernel, by decide, hfind, hroom, fun h => hroom ((h _ .first).room 0 hfind)⟩

end Kernel

end Loris
