import Loris.BestFit
import Loris.Contraction
import Loris.HeapRuns
/-!
# InOrder — runs that keep the index in order of size

`Alloc` and `Free` change sizes of headers that stay in the index: a page-aligned `Alloc` cuts the hole it takes down to
the gap in front of its block, and `Free` joins its block to the hole on the left.  Neither puts the header where its
new size belongs.  Along a run the index stays in order, and the search best fit, when each such header may read its new
size where it is (`index_sorted`).
-/
namespace Loris

open ByteMem Cut Runs

/-! ## A new size in its place -/

/-- The size that `x` reads once the header `a` reads `n`. -/
def sizeWith (m : Mem) (a n x : U32) : U32 := if x = a then n else headerSize m x

/-- **The header `a` may read `n` in its place** among the headers of `l`. -/
def KeepsPlace (m : Mem) (l : List U32) (a n : U32) : Prop :=
  l.Pairwise fun x y => (sizeWith m a n x).toNat ≤ (sizeWith m a n y).toNat

instance (m : Mem) (l : List U32) (a n : U32) : Decidable (KeepsPlace m l a n) := by unfold KeepsPlace; infer_instance

section Place

variable {m m' : Mem} {l : List U32} {a n : U32}

theorem sizeWith_self : sizeWith m a n a = n := if_pos rfl

theorem sizeWith_ne {x : U32} (h : x ≠ a) : sizeWith m a n x = headerSize m x := if_neg h

/-- A memory in which `a` reads `n` and the others read what they did. -/
theorem keepsPlace_iff (ha : headerSize m' a = n) (hl : ∀ x ∈ l, x ≠ a → headerSize m' x = headerSize m x) :
    KeepsPlace m l a n ↔ l.Pairwise (NotLarger m') := by
  have hw : ∀ x ∈ l, sizeWith m a n x = headerSize m' x := fun x hx => by
    by_cases hxa : x = a
    · rw [hxa, sizeWith_self, ha]
    · rw [sizeWith_ne hxa, hl x hx hxa]
  constructor
  · exact fun h => h.imp_of_mem fun hx hy hxy => notLarger_iff.2 (by rw [← hw _ hx, ← hw _ hy]; exact hxy)
  · exact fun h => h.imp_of_mem fun hx hy hxy => by rw [hw _ hx, hw _ hy]; exact notLarger_iff.1 hxy

theorem KeepsPlace.congr (h : KeepsPlace m l a n) (hl : ∀ x ∈ l, x ≠ a → headerSize m' x = headerSize m x) :
    KeepsPlace m' l a n := by
  have hw : ∀ x ∈ l, sizeWith m' a n x = sizeWith m a n x := fun x hx => by
    by_cases hxa : x = a
    · rw [hxa, sizeWith_self, sizeWith_self]
    · rw [sizeWith_ne hxa, sizeWith_ne hxa, hl x hx hxa]
  exact List.Pairwise.imp_of_mem (fun hx hy hxy => by rw [hw _ hx, hw _ hy]; exact hxy) h

end Place

/-! ## `Alloc` -/

section Pass

variable {h : Heap} {m : Mem} {base : Nat} {pre post : List Seg} {x : Seg} {i : Nat} {size : U32}

theorem sizeSorted_front (hi : Inv h m base (pre ++ x :: post)) (hx : x.hole = true) (hidx : i < h.index.size.toNat)
    (hget : h.index.getItemAtIndex m i = x.addr) (hfit : size.toNat + 20 ≤ x.size.toNat)
    (hs : ((h.index.items m).eraseIdx i).Pairwise (NotLarger m)) :
    SizeSorted (h.allocAt m i size false).2.1 (h.allocAt m i size false).2.2 := by
  obtain ⟨b, rest, ha, -, -, -, hr, -⟩ := allocAt_front hi hx hidx hget hfit
  have hm := hi.toMarks.perm (perm_split pre post x)
  have hm' := hm.removeHole hx hidx hget
  rw [← OrderedList.items_remove m hidx hi.slots] at hs
  refine hr.sizeSorted (hm'.pairwise_congr ha.inv.toBody (fun t ht _ => ⟨t, ?_, rfl, rfl⟩) (hs.imp_of_mem
    fun ha hb hab => (hm'.notLarger_congr hm.toBody
    (fun t ht _ => ⟨t, List.mem_cons_of_mem _ ht, rfl, rfl⟩) ha hb).2 hab))
  exact mem_mid.2 (.inr ht)

/-- A pass of page-aligned `Alloc` leaves an index in order when the header it cuts down may read the gap in its place.
-/
theorem sizeSorted_aligned (hi : Inv h m base (pre ++ x :: post)) (hx : x.hole = true)
    (hget : h.index.getItemAtIndex m i = x.addr) (hfit : HoldsAligned x (size.toNat + 20))
    (hroom : (frontGap x.addr).toNat + (size.toNat + 20) ≠ x.size.toNat → h.index.size.toNat < heapIndexSize.toNat)
    (hs : KeepsPlace m (h.index.items m) x.addr (frontGap x.addr)) :
    SizeSorted (h.allocAt m i size true).2.1 (h.allocAt m i size true).2.2 := by
  obtain ⟨b, segs', ha, -, -, f, rest, rfl, hfa, hfs, hfh, -, hitems, hr⟩ := allocAt_aligned hi hx hget hfit hroom
  have hfin : f ∈ pre ++ (f :: b :: rest) ++ post := by simp
  have hout : ∀ y ∈ h.index.items m, y ≠ x.addr → ∃ s ∈ pre ++ post, s.addr = y ∧ headerSize m y = s.size :=
    fun y hy hya => by
      obtain ⟨s, hs, -, rfl⟩ := mem_holes.1 (hi.index.mem_iff.1 hy)
      refine ⟨s, ?_, rfl, (hi.header s hs).2.2⟩
      simp only [List.mem_append, List.mem_cons] at hs ⊢
      rcases hs with hs | rfl | hs
      · exact .inl hs
      · exact absurd rfl hya
      · exact .inr hs
  refine hr.sizeSorted ?_
  rw [hitems]
  refine (keepsPlace_iff ?_ fun y hy hya => ?_).1 hs
  · rw [← hfa, (ha.inv.header f hfin).2.2, hfs, hfa]
  · obtain ⟨s, hs, rfl, hsz⟩ := hout y hy hya
    rw [hsz, (ha.inv.header s (mem_mid.2 (.inr hs))).2.2]

end Pass

namespace Kernel

/-- **The order a growing heap is in**: the hole of the header `a` ends at the end of the heap and grows, no other one
holds the request, and the index is in order without `a`, or, for a page-aligned request, once `a` reads its gap. -/
structure Pending (k : Kernel) (n : U32) (al : Bool) (a : U32) : Prop where
  listed : a ∈ k.heap.index.items k.mem
  ends : a.toNat + (headerSize k.mem a).toNat = k.heap.endAddress.toNat
  others : ∀ x ∈ k.heap.index.items k.mem, x ≠ a → Heap.fits k.mem n al x = false
  order : if al = true then KeepsPlace k.mem (k.heap.index.items k.mem) a (frontGap a)
    else ((k.heap.index.items k.mem).erase a).Pairwise (NotLarger k.mem)

/-- **`Alloc` keeps the order** of the index: for a page-aligned request, the header it is to cut down may read the gap
in its place.  That is the header the search finds, or, when it finds none, the one whose hole ends at the end. -/
def AllocInOrder (k : Kernel) (size : U32) (al : Bool) : Prop :=
  al = true → ∀ i, i < k.heap.index.size.toNat →
    (k.heap.findSmallestHole k.mem (size + sizeofHeader + sizeofFooter) true = some i ∨
      k.heap.findSmallestHole k.mem (size + sizeofHeader + sizeofFooter) true = none ∧
        (k.heap.index.getItemAtIndex k.mem i).toNat + (headerSize k.mem (k.heap.index.getItemAtIndex k.mem i)).toNat =
          k.heap.endAddress.toNat) →
    KeepsPlace k.mem (k.heap.index.items k.mem) (k.heap.index.getItemAtIndex k.mem i)
      (frontGap (k.heap.index.getItemAtIndex k.mem i))

variable {k k' : Kernel} {base : Nat} {segs : List Seg} {size p n a : U32} {al : Bool}

theorem fits_congr {m m' : Mem} {x : U32} (h : headerSize m' x = headerSize m x) :
    Heap.fits m' n al x = Heap.fits m n al x := by
  unfold Heap.fits; rw [h]

theorem item_mem {h : Heap} {m : Mem} {i : Nat} (hi : i < h.index.size.toNat) :
    h.index.getItemAtIndex m i ∈ h.index.items m := by
  rw [← OrderedList.getElem_items h.index m (by rw [OrderedList.length_items]; exact hi)]
  exact List.getElem_mem _

theorem nodup_items (hi : Inv k.heap k.mem base segs) : (k.heap.index.items k.mem).Nodup := by
  refine hi.index.nodup_iff.2 (List.Nodup.of_map BitVec.toNat ?_)
  unfold holes
  rw [List.map_map]
  exact hi.cut.nodup.sublist (List.filter_sublist.map _)

theorem Pending.grow {alloc : Allocator} {k₂ : Kernel} {N : U32} (hp : Pending k n al a)
    (hi : Inv k.heap k.mem base segs)
    (htables : k.tablesPresent (expandSize (k.heap.endAddress - k.heap.startAddress + N)) (0x100000 + 1)
      (k.heap.endAddress - k.heap.startAddress) = true)
    (hlarger : k.heap.endAddress.toNat + 20 ≤ (k.heap.startAddress +
      expandSize (k.heap.endAddress - k.heap.startAddress + N)).toNat)
    (hk : k.grow alloc N = some k₂) : Pending k₂ n al a := by
  obtain ⟨h, ol, nl, hx, -, hh₂, hm₂, -, hnew⟩ := grow_adjust htables hlarger hk
  obtain ⟨y, hy, hyh, rfl⟩ := mem_holes.1 (hi.index.mem_iff.1 hp.listed)
  have hend := hp.ends
  rw [(hi.header y hy).2.2] at hend
  obtain ⟨pre, rfl⟩ := eq_append_of_end hi.cut hy hend
  obtain ⟨z, hinv, hza, -, -, -, hitems⟩ := adjust_extend (hi.toMarks.of_index hx) hi.cut hyh hnew
  rw [← hm₂, ← hh₂, hx] at hitems
  rw [← hm₂, ← hh₂] at hinv
  have hsame : ∀ x ∈ k.heap.index.items k.mem, x ≠ y.addr → headerSize k₂.mem x =
      headerSize k.mem x := fun x hx hxa => by
    obtain ⟨s, hs, -, rfl⟩ := mem_holes.1 (hi.index.mem_iff.1 hx)
    have hsp : s ∈ pre := (List.mem_append.1 hs).resolve_right fun h' => hxa (by rw [List.mem_singleton.1 h'])
    rw [(hinv.header s (by simp [hsp])).2.2, (hi.header s hs).2.2]
  refine ⟨by rw [hitems]; exact hp.listed, ?_, fun x hx hxa => ?_, ?_⟩
  · obtain ⟨c, -, hzs, -, hze⟩ := cuts_append.1 hinv.cut
    rw [← hza, (hinv.header z (by simp)).2.2]
    simp only [Seg.start_eq, Seg.len_eq, cuts_nil] at hzs hze
    omega
  · rw [hitems] at hx
    rw [fits_congr (hsame x hx hxa)]
    exact hp.others x hx hxa
  · have ho := hp.order
    rw [hitems]
    split
    · rename_i hal
      rw [if_pos hal] at ho
      exact ho.congr hsame
    · rename_i hal
      rw [if_neg hal] at ho
      refine ho.imp_of_mem fun {b c} hb hc hbc => ?_
      rw [notLarger_iff] at hbc ⊢
      have hne : ∀ {d}, d ∈ (k.heap.index.items k.mem).erase y.addr → d ∈ k.heap.index.items k.mem ∧ d ≠ y.addr :=
        fun hd => ((nodup_items hi).mem_erase_iff.1 hd).symm
      rw [hsame b (hne hb).1 (hne hb).2, hsame c (hne hc).1 (hne hc).2]
      exact hbc

theorem exists_item {h : Heap} {m : Mem} {x : U32} (hx : x ∈ h.index.items m) :
    ∃ i, i < h.index.size.toNat ∧ h.index.getItemAtIndex m i = x := by
  obtain ⟨i, hi, rfl⟩ := List.mem_iff_getElem.1 hx
  exact ⟨i, by rwa [OrderedList.length_items] at hi, (OrderedList.getElem_items _ _ _).symm⟩

theorem exists_pending {alloc : Allocator} {k₂ : Kernel} (hi : Inv k.heap k.mem base segs)
    (hs : SizeSorted k.heap k.mem)
    (ho : AllocInOrder k size al)
    (hfind : k.heap.findSmallestHole k.mem (size + sizeofHeader + sizeofFooter) al = none)
    (htables : k.tablesPresent (expandSize (k.heap.endAddress - k.heap.startAddress +
      (size + sizeofHeader + sizeofFooter))) (0x100000 + 1) (k.heap.endAddress - k.heap.startAddress) = true)
    (hlarger : k.heap.endAddress.toNat + 20 ≤ (k.heap.startAddress +
      expandSize (k.heap.endAddress - k.heap.startAddress + (size + sizeofHeader + sizeofFooter))).toNat)
    (hopen : k.EndOpen) (hk : k.grow alloc (size + sizeofHeader + sizeofFooter) = some k₂) :
    ∃ a, Pending k₂ (size + sizeofHeader + sizeofFooter) al a := by
  rcases hopen with hempty | ⟨i, hlt, hend⟩
  · obtain ⟨h, ol, nl, hx, -, hh₂, hm₂, h20, hnew⟩ := grow_adjust htables hlarger hk
    have hlive := hi.toMarks.live_of_empty hempty
    obtain ⟨y, hinv, hyh, -, -⟩ := adjust_append (hi.toMarks.of_index hx) hi.cut hlive h20 hnew
    rw [← hm₂, ← hh₂] at hinv
    have hitems : k₂.heap.index.items k₂.mem = [y.addr] := by
      rw [← List.perm_singleton, show [y.addr] = holes (segs ++ [y]) by
        unfold holes
        rw [List.filter_append, List.filter_eq_nil_iff.2 fun s hs => by rw [hlive s hs]; simp]
        simp [hyh]]
      exact hinv.index
    refine ⟨y.addr, by simp [hitems], ?_, fun x hx hxa => ?_, ?_⟩
    · obtain ⟨c, -, hys, -, hye⟩ := cuts_append.1 hinv.cut
      rw [(hinv.header y (by simp)).2.2]
      simp only [Seg.start_eq, Seg.len_eq, cuts_nil] at hys hye
      omega
    · rw [hitems] at hx
      exact absurd (List.mem_singleton.1 hx) hxa
    · rw [hitems]
      split
      · exact List.pairwise_singleton _ _
      · simp
  · refine ⟨_, Pending.grow ⟨item_mem hlt, hend, fun x hx _ => ?_, ?_⟩ hi htables hlarger hk⟩
    · obtain ⟨j, hj, rfl⟩ := exists_item hx
      exact Heap.findSmallestHole_none.1 hfind j hj
    · split
      · rename_i hal
        subst hal
        exact ho rfl i hlt (.inr ⟨hfind, hend⟩)
      · exact hs.sublist List.erase_sublist

/-- The header that the search finds in a growing heap is the one that grew. -/
theorem Pending.found {i : Nat} (hp : Pending k n al a) (hf : k.heap.findSmallestHole k.mem n al = some i) :
    k.heap.index.getItemAtIndex k.mem i = a := by
  obtain ⟨hlt, hfit, -⟩ := Heap.findSmallestHole_some hf
  by_contra hne
  rw [hp.others _ (item_mem hlt) hne] at hfit
  cases hfit

/-- **A sound `Alloc` in order keeps the index in order.** -/
theorem AllocSound.sizeSorted (hsd : AllocSound k size al) (hsize : size.toNat + 20 < 2 ^ 32) : ∀ {fuel : Nat}
    {segs : List Seg}, Inv k.heap k.mem base segs →
    (SizeSorted k.heap k.mem ∧ AllocInOrder k size al ∨ ∃ a, Pending k (size + sizeofHeader + sizeofFooter) al a) →
    Kernel.alloc fuel k size al = some (p, k') → SizeSorted k'.heap k'.mem := by
  induction hsd with
  | @plain k size i hfind =>
    intro fuel segs hi ho ha
    obtain ⟨rfl, rfl⟩ := alloc_found hfind ha
    obtain ⟨pre, x, post, rfl, hxh, hlt, hxa, hle⟩ := exists_found hi hsize hfind
    refine sizeSorted_front hi hxh hlt hxa hle ?_
    rcases ho with ⟨hs, -⟩ | ⟨a, hp⟩
    · exact hs.sublist (List.eraseIdx_sublist _ _)
    · have ho := hp.order
      have hil : i < (k.heap.index.items k.mem).length := by rw [OrderedList.length_items]; exact hlt
      rw [if_neg (by simp), ← hp.found hfind, ← OrderedList.getElem_items _ _ hil,
        (nodup_items hi).erase_getElem] at ho
      exact ho
  | @aligned k size i x hfind haddr hxs hfit hroom =>
    intro fuel segs hi ho ha
    obtain ⟨rfl, rfl⟩ := alloc_found hfind ha
    obtain ⟨pre, y, post, rfl, hyh, hlt, hya, hfit, hroom⟩ := exists_found_aligned hi hfind haddr hxs hfit hroom
    refine sizeSorted_aligned hi hyh hya hfit hroom ?_
    rw [← hya]
    rcases ho with ⟨-, ho⟩ | ⟨a, hp⟩
    · exact ho rfl i hlt (.inl hfind)
    · have ho := hp.order
      rw [if_pos rfl, ← hp.found hfind] at ho
      exact ho
  | @expand k size al hfind htables hlarger hopen hretry ih =>
    intro fuel segs hi ho ha
    obtain ⟨n, k₂, -, hk₂, ha⟩ := alloc_grown hfind ha
    obtain ⟨segs₂, hi₂, -⟩ := grow_carried hi htables hlarger hopen hk₂
    refine ih n k₂ hk₂ hsize hi₂ (.inr ?_) ha
    rcases ho with ⟨hs, ho⟩ | ⟨a, hp⟩
    · exact exists_pending hi hs ho hfind htables hlarger hopen hk₂
    · exact ⟨a, hp.grow hi htables hlarger hk₂⟩

theorem AllocSound.startAddress (hsd : AllocSound k size al) : ∀ {fuel : Nat},
    Kernel.alloc fuel k size al = some (p, k') → k'.heap.startAddress = k.heap.startAddress := by
  have hfound : ∀ {fuel : Nat} {k : Kernel} {size : U32} {al : Bool} {i : Nat},
      k.heap.findSmallestHole k.mem (size + sizeofHeader + sizeofFooter) al = some i →
      Kernel.alloc fuel k size al = some (p, k') → k'.heap.startAddress = k.heap.startAddress :=
    fun {fuel k size al i} hfind ha => by
      obtain ⟨-, rfl⟩ := alloc_found hfind ha
      exact (allocAt_bounds ..).1
  induction hsd with
  | plain hfind => exact hfound hfind
  | aligned hfind => exact hfound hfind
  | @expand k size al hfind htables hlarger hopen hretry ih =>
    intro fuel ha
    obtain ⟨n, k₂, -, hk₂, ha⟩ := alloc_grown hfind ha
    obtain ⟨h, ol, nl, -, hst, hh₂, -⟩ := grow_adjust htables hlarger hk₂
    rw [ih n k₂ hk₂ ha, hh₂, (h.adjust_bounds ..).1, hst]

/-! ## `Free` -/

/-- The address behind the block of `p`. -/
def behind (k : Kernel) (p : U32) : U32 := p - sizeofHeader + headerSize k.mem (p - sizeofHeader)

/-- The header that `Free(p)` works on once it has looked to the left. -/
def joinedHeader (k : Kernel) (p : U32) : U32 :=
  if LeftClear k.mem (p - sizeofHeader) then p - sizeofHeader else footerHeader k.mem (p - sizeofHeader - sizeofFooter)

/-- The address behind all that `Free(p)` joins. -/
def joinedEnd (k : Kernel) (p : U32) : U32 :=
  if RightClear k.mem (k.behind p) then k.behind p else k.behind p + headerSize k.mem (k.behind p)

/-- The size of the joined hole; at the end of the heap it goes up to where `Contract` is to move that end. -/
def joinedSize (k : Kernel) (p : U32) : U32 :=
  (if k.joinedEnd p = k.heap.endAddress then k.heap.startAddress + heapMinSize else k.joinedEnd p) - k.joinedHeader p

/-- **`Free(p)` keeps the heap cut and its index in order.**  A footer below that names a hole names one of the index
that ends at the block; what lies behind the heap does not look like a header; a block with no hole next to it finds a
slot; at the end of the heap the contraction to the least length leaves room for the joined hole; and a hole on the
left may read its new size in its place. -/
structure FreeInOrder (k : Kernel) (p : U32) : Prop where
  left : LeftClear k.mem (p - sizeofHeader) ∨ ∃ i, i < k.heap.index.size.toNat ∧
    footerMagic k.mem (p - sizeofHeader - sizeofFooter) = heapMagic ∧
    footerHeader k.mem (p - sizeofHeader - sizeofFooter) = k.heap.index.getItemAtIndex k.mem i ∧
    (k.heap.index.getItemAtIndex k.mem i).toNat + (headerSize k.mem (k.heap.index.getItemAtIndex k.mem i)).toNat =
      (p - sizeofHeader).toNat
  last : k.behind p = k.heap.endAddress → RightClear k.mem (k.behind p)
  room : LeftClear k.mem (p - sizeofHeader) → RightClear k.mem (k.behind p) →
    k.heap.index.size.toNat < heapIndexSize.toNat
  least : k.joinedEnd p = k.heap.endAddress → heapMinSize ≤ k.heap.endAddress - k.heap.startAddress ∧
    (k.joinedHeader p).toNat + 20 ≤ k.heap.startAddress.toNat + heapMinSize.toNat
  place : ¬ LeftClear k.mem (p - sizeofHeader) → KeepsPlace k.mem
    (if RightClear k.mem (k.behind p) then k.heap.index.items k.mem else (k.heap.index.items k.mem).erase (k.behind p))
    (k.joinedHeader p) (k.joinedSize p)

end Kernel

section Joined

variable {k : Kernel} {h : Heap} {m m' : Mem} {base : Nat} {segs pre left right post : List Seg} {b M : Seg}

theorem header_of_payload (a : U32) : a + sizeofHeader - sizeofHeader = a := by unfold sizeofHeader; bv_omega

theorem Around.joinedHeader (ha : Around k.mem segs b pre left right post) (hi : Inv k.heap k.mem base segs)
    (hc : Cuts M.addr.toNat (M.addr.toNat + M.size.toNat) (left ++ b :: right)) :
    k.joinedHeader (b.addr + sizeofHeader) = M.addr ∧ (left = [] ↔ LeftClear k.mem b.addr) := by
  unfold Kernel.joinedHeader
  rw [header_of_payload]
  rcases ha.left with ⟨rfl, hlc⟩ | ⟨L, rfl, hLh, hLt⟩
  · rw [if_pos hlc]
    have hs := hc.1
    simp only [Seg.start_eq] at hs
    exact ⟨BitVec.eq_of_toNat_eq hs, by simp [hlc]⟩
  · have hL : L ∈ segs := by rw [ha.split]; simp
    obtain ⟨hs, -, hb, -⟩ := hc
    simp only [Seg.start_eq, Seg.len_eq] at hs hb
    have hLw := hi.within L hL
    have hLr := L.room
    have hLf : L.footer = b.addr - sizeofFooter := by unfold Seg.footer; bv_omega
    have hf := hi.footer L hL hLt
    unfold FooterAt at hf
    rw [hLf] at hf
    have hlc : ¬ LeftClear k.mem b.addr := fun hlc => hlc ⟨hf.1, by
      have hbw := hi.within b (by rw [ha.split]; simp)
      have hbr := b.room
      rw [hf.2, isHole_keep (keeps_setIsHole k.mem b.addr true (by omega)) (by omega) (.inl (by omega)),
        (hi.header L hL).2.1, hLh]⟩
    rw [if_neg hlc, hf.2]
    exact ⟨BitVec.eq_of_toNat_eq hs, by simp [hlc]⟩

theorem Around.joinedEnd (ha : Around k.mem segs b pre left right post) (hi : Inv k.heap k.mem base segs)
    (hc : Cuts M.addr.toNat (M.addr.toNat + M.size.toNat) (left ++ b :: right)) :
    k.behind (b.addr + sizeofHeader) = b.addr + b.size ∧
      (k.joinedEnd (b.addr + sizeofHeader)).toNat = M.addr.toNat + M.size.toNat ∧
      (k.heap.index.items k.mem).diff (right.map (·.addr)) = if RightClear k.mem (b.addr + b.size) then
        k.heap.index.items k.mem else (k.heap.index.items k.mem).erase (b.addr + b.size) := by
  have hb : b ∈ segs := by rw [ha.split]; simp
  have hbw := hi.within b hb
  have hbr := b.room
  have hbe : k.behind (b.addr + sizeofHeader) = b.addr + b.size := by
    unfold Kernel.behind; rw [header_of_payload, (hi.header b hb).2.2]
  refine ⟨hbe, ?_⟩
  unfold Kernel.joinedEnd
  rw [hbe]
  obtain ⟨c, -, hbs, -, hr⟩ := cuts_append.1 hc
  simp only [Seg.start_eq, Seg.len_eq] at hbs hr
  subst hbs
  rcases ha.right with ⟨rfl, hrc⟩ | ⟨R, rfl, hRh⟩
  · rw [if_pos hrc, if_pos hrc, toNat_behind hbw.2]
    exact ⟨hr, by simp⟩
  · have hR : R ∈ segs := by rw [ha.split]; simp
    have hRw := hi.within R hR
    have hRr := R.room
    have hRa : b.addr + b.size = R.addr := by
      have := hr.1
      simp only [Seg.start_eq] at this
      exact BitVec.eq_of_toNat_eq ((toNat_behind hbw.2).trans this.symm)
    have hRd := hi.header R hR
    have hrc : ¬ RightClear k.mem R.addr := fun hrc => hrc ⟨hRd.1, hRd.2.1.trans hRh⟩
    rw [hRa, if_neg hrc, if_neg hrc, hRd.2.2, toNat_behind hRw.2]
    obtain ⟨hs, -, he⟩ := hr
    simp only [Seg.start_eq, Seg.len_eq, cuts_nil] at hs he
    exact ⟨by omega, by simp⟩

/-- **The order after the joining**: a listed hole is in its place, and one to be added goes to its place. -/
theorem sizeSorted_joined {h' : Heap} {f : Heap.Freeing} (hi : Inv h m base segs)
    (ha : Around m segs b pre left right post)
    (hM : Merged h' m' base (pre ++ post) f M)
    (hitems : h'.index.items m' = (h.index.items m).diff (right.map (·.addr))) (hs : SizeSorted h m)
    (hplace : f.doAdd = false → KeepsPlace m (h'.index.items m') M.addr M.size) :
    (f.doAdd = false → SizeSorted h' m') ∧ (f.doAdd = true → h'.index.size.toNat < heapIndexSize.toNat →
      SizeSorted { h' with index := (h'.index.insert (headerLessThan m') m' M.addr).1 }
        (h'.index.insert (headerLessThan m') m' M.addr).2) := by
  have hsub : ∀ s ∈ pre ++ post, s ∈ segs := fun s hs => by rw [ha.split]; exact mem_mid.2 (.inr hs)
  refine ⟨fun hd => ?_, fun hd hroom => ?_⟩
  · have hl := hM.listed hd
    refine (keepsPlace_iff hM.headerAt.2.2 fun x hx hxa => ?_).1 (hplace hd)
    obtain ⟨s, hs', -, rfl⟩ := mem_holes.1 (hl.index.mem_iff.1 hx)
    have hso : s ∈ pre ++ post := (List.mem_cons.1 hs').resolve_left fun he => hxa (by rw [he])
    rw [(hl.header s hs').2.2, (hi.header s (hsub s hso)).2.2]
  · have hl := hM.loose hd
    have hbody := hl.toBody.cons hM.within hM.headerAt hM.footerAt fun h => by rw [hM.hole] at h; cases h
    have hl' := hl.addHole (headerLessThan m') hM.within hM.headerAt hM.footerAt hM.hole hroom
    have hs' : SizeSorted h' m' := by
      unfold SizeSorted
      refine List.Pairwise.imp_of_mem (fun hx hy hxy => ?_) (hitems ▸ hs.sublist (List.diff_sublist _ _))
      exact (hl.notLarger_congr hi.toBody (fun s hs _ => ⟨s, hsub s hs, rfl, rfl⟩) hx hy).2 hxy
    show (OrderedList.items _ _).Pairwise _
    rw [hl.items_addHole hbody hM.hole hroom]
    exact (hl.pairwise_congr hl'.toBody (fun s hs _ => ⟨s, List.mem_cons_of_mem _ hs, rfl, rfl⟩) hs').orderedInsert _ _

theorem Merged.of_index {h' : Heap} {rest : List Seg} {f : Heap.Freeing} (hM : Merged h m base rest f M)
    (hx : h'.index = h.index) : Merged h' m base rest f M :=
  ⟨hM.header, hM.footer, hM.hole, hM.within, hM.headerAt, hM.footerAt, fun hd => (hM.loose hd).of_index hx,
    fun hd => (hM.listed hd).of_index hx⟩

theorem Merged.settled {k₁ k' : Kernel} {f : Heap.Freeing} (hM : Merged k₁.heap k₁.mem base (pre ++ post) f M)
    (hi : Inv h m base segs) (ha : Around m segs b pre left right post)
    (hitems : k₁.heap.index.items k₁.mem = (h.index.items m).diff (right.map (·.addr))) (hs : SizeSorted h m)
    (hc : Cuts base k₁.heap.endAddress.toNat (pre ++ [M] ++ post))
    (hroom : f.doAdd = true → k₁.heap.index.size.toNat < heapIndexSize.toNat)
    (hplace : f.doAdd = false → KeepsPlace m (k₁.heap.index.items k₁.mem) M.addr M.size)
    (hk' : k' = if f.doAdd then
        { k₁ with
          heap := { k₁.heap with index := (k₁.heap.index.insert (headerLessThan k₁.mem) k₁.mem M.addr).1 }
          mem := (k₁.heap.index.insert (headerLessThan k₁.mem) k₁.mem M.addr).2 }
      else k₁) :
    k'.heap.startAddress = k₁.heap.startAddress ∧ SizeSorted k'.heap k'.mem ∧
      Inv k'.heap k'.mem base (pre ++ [M] ++ post) := by
  obtain ⟨h1, h2⟩ := sizeSorted_joined hi ha hM hitems hs hplace
  cases hd : f.doAdd with
  | false =>
    rw [hd] at hk'
    obtain rfl : k' = k₁ := hk'
    exact ⟨rfl, h1 hd, hM.inv_listed hc hd⟩
  | true =>
    rw [hd, if_pos rfl] at hk'
    subst hk'
    exact ⟨rfl, h2 hd (hroom hd), hM.inv_loose hc hd (hroom hd)⟩

end Joined

namespace Kernel

variable {k k' : Kernel} {base : Nat} {segs pre left right post : List Seg} {b : Seg}

theorem contractLoop_same {new_size : U32} : ∀ {n : Nat} {k k' : Kernel} {i : U32},
    contractLoop new_size n k i = some k' → SameButPages k k'
  | 0, _, _, _, h => by cases h
  | n + 1, k, k', i, h => by
    unfold contractLoop at h
    by_cases hi : new_size < i
    · rw [if_pos hi] at h
      obtain ⟨p, -, h⟩ := Option.bind_eq_some_iff.1 h
      exact (freeFrame_same k p).trans (contractLoop_same h)
    · rw [if_neg hi] at h
      obtain rfl := Option.some.inj h
      rfl

theorem exists_hole (a : U32) {s : U32} (h : 20 ≤ s.toNat) : ∃ N : Seg, N.addr = a ∧ N.size = s ∧ N.hole = true :=
  ⟨⟨a, s, true, true, h⟩, rfl, rfl, rfl⟩

theorem shrunk_size {start e a s : U32} (hs : start.toNat ≤ a.toNat) (he : a.toNat + s.toNat = e.toNat)
    (hl : heapMinSize ≤ e - start) (hr : a.toNat + 20 ≤ start.toNat + heapMinSize.toNat) :
    (start + heapMinSize - a).toNat = start.toNat + heapMinSize.toNat - a.toNat ∧
      (start + heapMinSize).toNat = start.toNat + heapMinSize.toNat ∧ start.toNat + heapMinSize.toNat ≤ e.toNat ∧
      start + heapMinSize - a = s - (e - start - heapMinSize) ∧ (a - start).toNat < heapMinSize.toNat ∧
      start + heapMinSize - a ≠ 0 := by
  have hmin : heapMinSize.toNat = 0x70000 := rfl
  have h1 : (e - start).toNat = e.toNat - start.toNat := by rw [BitVec.toNat_sub]; omega
  rw [BitVec.le_def, h1] at hl
  have h2 : (e - start - heapMinSize).toNat = e.toNat - start.toNat - heapMinSize.toNat := by
    rw [BitVec.toNat_sub, h1]; omega
  have h3 : (start + heapMinSize).toNat = start.toNat + heapMinSize.toNat := by rw [BitVec.toNat_add]; omega
  have h4 : (start + heapMinSize - a).toNat = start.toNat + heapMinSize.toNat - a.toNat := by
    rw [BitVec.toNat_sub, h3]; omega
  refine ⟨h4, h3, by omega, BitVec.eq_of_toNat_eq ?_, by rw [BitVec.toNat_sub]; omega, fun h0 => ?_⟩
  · rw [h4, BitVec.toNat_sub, h2]; omega
  · rw [h0] at h4
    have h5 : (0 : U32).toNat = 0 := rfl
    omega

theorem contract_at_least {x n : U32} (hx : x.toNat < heapMinSize.toNat) (h : k.contract x = some (n, k')) :
    n = heapMinSize ∧ k'.heap = { k.heap with endAddress := k.heap.startAddress + heapMinSize } ∧ k'.mem = k.mem := by
  unfold contract at h
  rw [contractSize_small hx] at h
  obtain ⟨k₂, hl, hk⟩ := Option.map_eq_some_iff.1 h
  obtain ⟨rfl, rfl⟩ := Prod.mk.inj hk
  have hs := contractLoop_same hl
  have hh : k₂.heap = k.heap := by rw [hs]
  exact ⟨rfl, by simp only [hh], by simp only; rw [hs]⟩

theorem contractEnd_least {f : Heap.Freeing} {n : U32} (he : f.footer + sizeofFooter = k.heap.endAddress)
    (hlt : (f.header - k.heap.startAddress).toNat < heapMinSize.toNat)
    (hn : n = headerSize k.mem f.header - (k.heap.endAddress - k.heap.startAddress - heapMinSize)) (hpos : n ≠ 0)
    (h : contractEnd k f = some k') :
    k'.heap = { k.heap with endAddress := k.heap.startAddress + heapMinSize } ∧
      k'.mem = writeFooter (setHeaderSize k.mem f.header n) (f.header + n - sizeofFooter) f.header := by
  unfold contractEnd at h
  rw [if_pos he] at h
  obtain ⟨⟨l, k₁⟩, hc, rfl⟩ := Option.map_eq_some_iff.1 h
  obtain ⟨rfl, hh, hm⟩ := contract_at_least hlt hc
  have hgt : n > 0 := by
    rw [gt_iff_lt, BitVec.lt_def]
    exact Nat.pos_of_ne_zero fun h0 => hpos (BitVec.eq_of_toNat_eq h0)
  simp only [hm, ← hn, if_pos hgt, headerSize_setHeaderSize, hh]
  exact ⟨trivial, trivial⟩

section Settled

variable (hi : Inv k.heap k.mem base segs) (hss : SizeSorted k.heap k.mem)
  (hroom : left = [] → right = [] → k.heap.index.size.toNat < heapIndexSize.toNat)
  (hplace : ¬ LeftClear k.mem b.addr → KeepsPlace k.mem
    (if RightClear k.mem (b.addr + b.size) then k.heap.index.items k.mem
      else (k.heap.index.items k.mem).erase (b.addr + b.size))
    (k.joinedHeader (b.addr + sizeofHeader)) (k.joinedSize (b.addr + sizeofHeader)))
  (hl : b.hole = false) (hk : k.free (b.addr + sizeofHeader) = some k')

include hi hss hroom hplace hl hk

/-- The joined hole reaches the end, and the heap is contracted to its least length. -/
theorem free_end_settled (ha : Around k.mem segs b pre left right [])
    (hleast : k.joinedEnd (b.addr + sizeofHeader) = k.heap.endAddress →
      heapMinSize ≤ k.heap.endAddress - k.heap.startAddress ∧
        (k.joinedHeader (b.addr + sizeofHeader)).toNat + 20 ≤ k.heap.startAddress.toNat + heapMinSize.toNat)
    (hbase : k.heap.startAddress.toNat = base) :
    ∃ N, N.hole = true ∧ k'.heap.startAddress = k.heap.startAddress ∧ SizeSorted k'.heap k'.mem ∧
      Inv k'.heap k'.mem base (pre ++ [N] ++ []) := by
  have hinv : Inv k.heap k.mem base (pre ++ (left ++ b :: right) ++ []) := by rw [← ha.split]; exact hi
  obtain ⟨f, i, m', M, hj, hitems, hend, hfree⟩ := free_joined_end hi hl ha
  obtain ⟨j, hh, hie, his⟩ := hj.heap
  obtain rfl : i = j := congrArg Heap.index hh
  obtain ⟨hJ, hJl⟩ := ha.joinedHeader hi hj.cut
  obtain ⟨-, hJe, hJi⟩ := ha.joinedEnd hi hj.cut
  have hM := hj.merged
  simp only at hM hfree
  obtain ⟨hpre, hMe⟩ := hinv.cut.around hj.cut (by simp)
  rw [cuts_nil] at hMe
  have hJend : k.joinedEnd (b.addr + sizeofHeader) = k.heap.endAddress := BitVec.eq_of_toNat_eq (hJe.trans hMe)
  obtain ⟨hlen, hleast⟩ := hleast hJend
  rw [hJ] at hleast
  -- what is left of the joined hole below the new end
  obtain ⟨hNs, hnew, hold, hNM, hoff, hpos⟩ := shrunk_size (s := M.size) (by have := hpre.le; omega) hMe hlen hleast
  have hMr := M.room
  obtain ⟨N, hNa, hNsz, hNh⟩ :=
    exists_hole M.addr (s := k.heap.startAddress + heapMinSize - M.addr) (by rw [hNs]; omega)
  rw [← hNsz] at hNs hNM hpos
  obtain ⟨k₂, hk₂, hk'⟩ := Option.map_eq_some_iff.1 (hfree.symm.trans hk)
  obtain ⟨hheap, hmem⟩ := contractEnd_least (k := { k with
    heap := { k.heap with index := i }
    mem := m' }) (n := N.size) hend (by rw [hM.header]; exact hoff)
    (by rw [hM.header]; exact hNM.trans (by rw [hM.headerAt.2.2])) hpos hk₂
  rw [hM.header, ← hNa] at hmem
  obtain ⟨hN, hkeep⟩ := hM.resize hNa (by omega) hNh (cut_around hinv.cut hj.cut (by simp))
  rw [show N.addr + N.size - sizeofFooter = N.footer from rfl] at hmem
  rw [← hmem] at hN hkeep
  have hN₂ : Merged k₂.heap k₂.mem base (pre ++ []) { f with footer := N.footer } N := hN.of_index (by rw [hheap])
  rw [← hNa] at hk'
  have hisz : i.size.toNat ≤ heapIndexSize.toNat := by
    cases hd : f.doAdd with
    | true => exact (hM.loose hd).size
    | false => exact (hM.listed hd).size
  have hitems₂ : k₂.heap.index.items k₂.mem = i.items m' := by
    have hbelow := hi.below
    have hlow := hM.within.1
    rw [hheap]
    exact OrderedList.items_congr (l := i) (by rw [hie]; omega) hkeep (.inl (by rw [hie]; omega))
  have hcut : Cuts base k₂.heap.endAddress.toNat (pre ++ [N] ++ []) := by
    rw [List.append_nil]
    refine cuts_append.2 ⟨M.addr.toNat, hpre, by rw [← hNa]; rfl, by simp only [Seg.len_eq]; have := N.room; omega, ?_⟩
    rw [hheap, cuts_nil, Seg.len_eq, hNs]
    show _ = (k.heap.startAddress + heapMinSize).toNat
    omega
  have hadd : f.doAdd = left.isEmpty := hj.doAdd
  have hJs : k.joinedSize (b.addr + sizeofHeader) = N.size := by
    unfold joinedSize
    rw [if_pos hJend, hJ, hNsz]
  obtain ⟨h6, h7, h8⟩ := Merged.settled hN₂ hi ha (hitems₂.trans hitems) hss hcut
    (fun hd => by
      rw [hheap]
      exact join_room hi ha his (hroom (by rw [hadd] at hd; exact List.isEmpty_iff.1 hd)))
    (fun hd => by
      have := hplace fun hlc => by rw [show f.doAdd = false from hd, hJl.2 hlc] at hadd; cases hadd
      rw [← hJi, hJ, hJs, ← hNa] at this
      rw [hitems₂, hitems]
      exact this) hk'.symm
  exact ⟨N, hNh, h6.trans (by rw [hheap]), h7, h8⟩

/-- Something follows the joined hole. -/
theorem free_inside_settled (ha : Around k.mem segs b pre left right post) (hpost : post ≠ []) :
    ∃ N, N.hole = true ∧ k'.heap.startAddress = k.heap.startAddress ∧ SizeSorted k'.heap k'.mem ∧
      Inv k'.heap k'.mem base (pre ++ [N] ++ post) := by
  have hinv : Inv k.heap k.mem base (pre ++ (left ++ b :: right) ++ post) := by rw [← ha.split]; exact hi
  obtain ⟨f, i, m', M, hj, hitems, hfree⟩ := free_joined hi ha hl hpost
  obtain ⟨j, hh, hie, his⟩ := hj.heap
  obtain rfl : i = j := congrArg Heap.index hh
  obtain ⟨hJ, hJl⟩ := ha.joinedHeader hi hj.cut
  obtain ⟨-, hJe, hJi⟩ := ha.joinedEnd hi hj.cut
  have hadd : f.doAdd = left.isEmpty := hj.doAdd
  have hMr := M.room
  have hcut : Cuts base k.heap.endAddress.toNat (pre ++ [M] ++ post) :=
    hinv.cut.replace hj.cut (by simp) ⟨rfl, by simp only [Seg.len_eq]; omega, rfl⟩
  have hJs : k.joinedSize (b.addr + sizeofHeader) = M.size := by
    have hne : k.joinedEnd (b.addr + sizeofHeader) ≠ k.heap.endAddress := fun he =>
      hpost ((join_end hinv hj.cut).1 (by
        rw [behind_eq]
        exact BitVec.eq_of_toNat_eq ((toNat_behind hj.merged.within.2).trans (by rw [← hJe, he]))))
    unfold joinedSize
    rw [if_neg hne, hJ]
    exact BitVec.eq_of_toNat_eq (by rw [BitVec.toNat_sub, hJe]; omega)
  rw [hk, Option.some.injEq] at hfree
  have hmerged : Merged (Kernel.mk m' k.kheap { k.heap with index := i } k.placement_address k.frames k.directories
      k.pageTables k.kernel_directory k.current_directory k.uninit).heap m' base (pre ++ post) _ M := hj.merged
  obtain ⟨h6, h7, h8⟩ := hmerged.settled hi ha hitems hss hcut
    (fun hd => join_room hi ha his (hroom (by rw [hadd] at hd; exact List.isEmpty_iff.1 hd)))
    (fun hd => by
      have := hplace fun hlc => by rw [hadd, hJl.2 hlc] at hd; cases hd
      rw [← hJi, hJ, hJs] at this
      rw [hitems]
      exact this) hfree
  exact ⟨M, hj.merged.hole, h6, h7, h8⟩

end Settled

/-- **A `Free` in order keeps the heap cut and its index in order.** -/
theorem FreeInOrder.free (hs : FreeInOrder k (b.addr + sizeofHeader)) (hi : Inv k.heap k.mem base segs)
    (hbase : k.heap.startAddress.toNat = base) (hss : SizeSorted k.heap k.mem) (hb : b ∈ segs) (hl : b.hole = false)
    (hk : k.free (b.addr + sizeofHeader) = some k') :
    k'.heap.startAddress = k.heap.startAddress ∧ SizeSorted k'.heap k'.mem ∧
      ∃ segs', Inv k'.heap k'.mem base segs' ∧ ∀ s ∈ segs, s.hole = false → s ≠ b → s ∈ segs' := by
  obtain ⟨h1, h2, h3, h4, h5⟩ := hs
  have hbe : k.behind (b.addr + sizeofHeader) = b.addr + b.size := by
    unfold behind; rw [header_of_payload, (hi.header b hb).2.2]
  have hbw := hi.within b hb
  rw [header_of_payload] at h1 h3 h5
  rw [hbe] at h2 h3 h5
  obtain ⟨segs₁, pre, left, right, post, hi₁, hsub, ha⟩ := exists_around_read hi hb h1
    fun he => h2 (BitVec.eq_of_toNat_eq ((toNat_behind hbw.2).trans he))
  have hroom : left = [] → right = [] → k.heap.index.size.toNat < heapIndexSize.toNat := fun hln hrn =>
    h3 ((ha.left.resolve_right fun ⟨L, hL, _⟩ => by rw [hL] at hln; cases hln).2)
      (ha.right.resolve_right fun ⟨R, hR, _⟩ => by rw [hR] at hrn; cases hrn).2
  have hsettled : ∃ N, N.hole = true ∧ k'.heap.startAddress = k.heap.startAddress ∧ SizeSorted k'.heap k'.mem ∧
      Inv k'.heap k'.mem base (pre ++ [N] ++ post) := by
    by_cases hpost : post = []
    · subst hpost
      exact free_end_settled hi₁ hss hroom h5 hl hk ha h4 hbase
    · exact free_inside_settled hi₁ hss hroom h5 hl hk ha hpost
  obtain ⟨N, hN, hstart, hsorted, hinv'⟩ := hsettled
  have hinv : Inv k.heap k.mem base (pre ++ (left ++ b :: right) ++ post) := by rw [← ha.split]; exact hi₁
  exact ⟨hstart, hsorted, _, hinv', fun s hs hsl hsb =>
    (live_merged hinv (ha.split ▸ ha) hN hsl).2 ⟨ha.split ▸ hsub s hs hsl, hsb⟩⟩

end Kernel

/-! ## Runs -/

namespace HeapState

variable {s t : HeapState} {segs : List Seg}

/-- **The call keeps the heap cut and its index in order**, in the state it is made in. -/
def InOrder (s : HeapState) : HeapOp → Prop
  | .alloc size page_align => s.kernel.AllocSound size page_align ∧ s.kernel.AllocInOrder size page_align
  | .free p => s.kernel.FreeInOrder p
  | .write _ _ => True

/-- **A heap in order**: it is cut into segments from `m_startAddress` on, the index lists its holes in order of size,
and each live pointer is the payload of a block of its own. -/
def Ordered (s : HeapState) : Prop :=
  SizeSorted s.kernel.heap s.kernel.mem ∧ ∃ segs, Tiled s s.kernel.heap.startAddress.toNat segs

theorem Ordered.alloc {size : U32} {al : Bool} (ho : s.Ordered) (hs : s.InOrder (.alloc size al))
    (h : s.Step (.alloc size al) t) : t.Ordered := by
  obtain ⟨hsort, segs, ht⟩ := ho
  obtain ⟨hsize, fuel, p, k', ha, rfl⟩ := id h
  obtain ⟨⟨segs', ht'⟩, -⟩ := ht.alloc hs.1 h
  exact ⟨hs.1.sizeSorted hsize ht.inv (.inl ⟨hsort, hs.2⟩) ha, segs', by rw [hs.1.startAddress ha]; exact ht'⟩

theorem Ordered.free {p : U32} (ho : s.Ordered) (hs : s.kernel.FreeInOrder p) (h : s.Step (.free p) t) : t.Ordered := by
  obtain ⟨hsort, segs, ht⟩ := ho
  obtain ⟨⟨n, hn⟩, k', hk, rfl⟩ := h
  obtain ⟨g, hg, hgl, hgp, -⟩ := ht.live _ hn
  simp only at hgp
  subst hgp
  obtain ⟨hstart, hsort', segs', hi', hkeep⟩ := hs.free ht.inv rfl hsort hg hgl hk
  refine ⟨hsort', segs', by rw [hstart]; exact hi', fun b hb => ?_, ht.distinct.filter _⟩
  obtain ⟨hb, hne⟩ := List.mem_filter.1 hb
  obtain ⟨q, hq, hbq⟩ := ht.live b hb
  refine ⟨q, hkeep q hq hbq.1 fun he => ?_, hbq⟩
  rw [hbq.2.1, he] at hne
  simp at hne

theorem Ordered.write {a : U32} {v : Byte} (ho : s.Ordered) (h : s.Step (.write a v) t) : t.Ordered := by
  obtain ⟨hsort, segs, ht⟩ := ho
  have ht' := ht.write h
  obtain ⟨⟨b, hb, h1, h2⟩, rfl⟩ := h
  have hitems : s.kernel.heap.index.items (storeByte s.kernel.mem a v) = s.kernel.heap.index.items s.kernel.mem := by
    obtain ⟨g, hg, hbg⟩ := ht.live b hb
    have hp := hbg.ptr (ht.inv.within g hg).2
    have hw := ht.inv.within g hg
    have hbelow := ht.inv.below
    have hsz := ht.inv.size
    exact OrderedList.items_congr (by omega) (keeps_storeByte s.kernel.mem a v) (.inl (by omega))
  refine ⟨?_, segs, ht'⟩
  show (s.kernel.heap.index.items (storeByte s.kernel.mem a v)).Pairwise _
  rw [hitems]
  exact ht.inv.toMarks.pairwise_congr ht'.inv.toBody (fun g hg _ => ⟨g, hg, rfl, rfl⟩) hsort

/-- **A step in order keeps the heap in order.** -/
theorem Ordered.step {op : HeapOp} (ho : s.Ordered) (hs : s.InOrder op) (h : s.Step op t) : t.Ordered := by
  cases op with
  | alloc size al => exact ho.alloc hs h
  | free p => exact ho.free hs h
  | write a v => exact ho.write h

end HeapState

open HeapState in
/-- **The index stays in order and the search best fit** along every run whose calls are in order. -/
theorem index_sorted {s : HeapState} {segs : List Seg} (hwf : WellFormed s.kernel.heap s.kernel.mem segs)
    (hsort : SizeSorted s.kernel.heap s.kernel.mem) (hlive : ∀ b ∈ s.live, ∃ g ∈ segs, Holds b g)
    (hdistinct : s.live.Pairwise fun b c => b.1 ≠ c.1) {ops : List HeapOp}
    (horder : ∀ l₁ op l₂ t, ops = l₁ ++ op :: l₂ → Reaches Step s l₁ t → t.InOrder op) :
    ∀ l₁ l₂ t, ops = l₁ ++ l₂ → Reaches Step s l₁ t → SizeSorted t.kernel.heap t.kernel.mem ∧
      BestFit t.kernel.heap t.kernel.mem ∧
      ∃ segs', Inv t.kernel.heap t.kernel.mem t.kernel.heap.startAddress.toNat segs' := by
  have hrun : Along Step Ordered s ops :=
    (Runs.guarded_iff.2 horder).along (fun _ _ _ ho hs h => ho.step hs h) ⟨hsort, segs, hwf.toInv, hlive, hdistinct⟩
  intro l₁ l₂ t hl hr
  obtain ⟨hsort', segs', ht⟩ := along_iff.1 hrun l₁ l₂ t hl hr
  exact ⟨hsort', hsort'.bestFit, segs', ht.inv⟩

def leftHole : Seg := ⟨0xC0080000, 0x100, true, true, smallHole.room⟩
def nextBlock : Seg := ⟨0xC0080100, 0x100, false, true, smallHole.room⟩
def thinBlock : Seg := ⟨0xC0080200, 0x80, false, true, by decide⟩
def fittingHole : Seg := ⟨0xC0080280, 0x180, true, true, by decide⟩
def tailBlock : Seg := ⟨0xC0080400, 0xC00, false, true, by decide⟩

/-- Two holes, the smaller with a block behind it. -/
def grownLeft : HeapState :=
  ⟨onePage [leftHole, nextBlock, thinBlock, fittingHole, tailBlock], [(nextBlock.addr + sizeofHeader, 0x80)]⟩

open HeapState in
/-- The smaller hole is cut for a new block; what is left of it takes the block behind it, and is the smaller still. -/
theorem index_sorted_grownLeft : ∃ t u, Step grownLeft (.alloc 0x80 false) t ∧
    Step t (.free (nextBlock.addr + sizeofHeader)) u ∧
    SizeSorted u.kernel.heap u.kernel.mem ∧ BestFit u.kernel.heap u.kernel.mem ∧
    ∃ segs', Inv u.kernel.heap u.kernel.mem u.kernel.heap.startAddress.toNat segs' := by
  have hf : grownLeft.kernel.heap.findSmallestHole grownLeft.kernel.mem (0x80 + sizeofHeader + sizeofFooter) false =
      some 0 := by decide +kernel
  have hin : (nextBlock.addr + sizeofHeader, (0x80 : U32)) ∈ (grownLeft.allocated 0 0x80 false).live := by
    decide +kernel
  have hreturns : ((grownLeft.allocated 0 0x80 false).kernel.free (nextBlock.addr + sizeofHeader)).isSome = true := by
    decide +kernel
  obtain ⟨k', hk'⟩ := Option.isSome_iff_exists.1 hreturns
  have hjoin : (grownLeft.allocated 0 0x80 false).kernel.FreeInOrder (nextBlock.addr + sizeofHeader) :=
    ⟨.inr (by decide +kernel), by decide +kernel, by decide +kernel, by decide +kernel, by decide +kernel⟩
  have hg : Guarded Step InOrder grownLeft [.alloc 0x80 false, .free (nextBlock.addr + sizeofHeader)] :=
    .cons ⟨.plain hf, nofun⟩ (fun _ => (step_alloc (by decide) hf).1) ⟨hjoin, fun _ _ => trivial⟩
  have r₁ : Step grownLeft (.alloc 0x80 false) _ := (step_alloc (by decide) hf).2 rfl
  have r₂ : Step _ (.free (nextBlock.addr + sizeofHeader)) _ := (step_free hin hk').2 rfl
  refine ⟨_, _, r₁, r₂, @index_sorted grownLeft [leftHole, nextBlock, thinBlock, fittingHole, tailBlock]
    (by decide +kernel) (by decide +kernel) (fun b hb => ?_) (List.pairwise_singleton _ _) _ (guarded_iff.1 hg) _ [] _
    rfl (.cons r₁ (reaches_one r₂))⟩
  obtain rfl := List.mem_singleton.1 hb
  exact ⟨nextBlock, by simp, rfl, rfl, by decide⟩

open HeapState in
/-- The smaller hole takes the block behind it, passes the other hole in size, and stays in front of it. -/
theorem index_unsorted : WellFormed grownLeft.kernel.heap grownLeft.kernel.mem
      [leftHole, nextBlock, thinBlock, fittingHole, tailBlock] ∧
    SizeSorted grownLeft.kernel.heap grownLeft.kernel.mem ∧
    ∃ t, Reaches Step grownLeft [.free (nextBlock.addr + sizeofHeader)] t ∧
      ¬ SizeSorted t.kernel.heap t.kernel.mem ∧ ¬ BestFit t.kernel.heap t.kernel.mem := by
  refine ⟨by decide +kernel, by decide +kernel, ?_⟩
  have hrun : (grownLeft.kernel.free (nextBlock.addr + sizeofHeader)).map (fun k => (k.heap.index.size,
      k.heap.findSmallestHole k.mem 0x150 false, k.heap.sizeAt k.mem 0, k.heap.sizeAt k.mem 1)) =
        some (2, some 0, 0x200, 0x180) := by decide +kernel
  obtain ⟨k', hk', he⟩ := Option.map_eq_some_iff.1 hrun
  simp only [Prod.mk.injEq] at he
  obtain ⟨hsz, hfind, h0, h1⟩ := he
  have hnot : ¬ BestFit k'.heap k'.mem := fun h => by
    have := (h.chosen _ _ hfind).2.2 1 (by rw [hsz]; decide) (by rw [h1]; decide)
    rw [h0, h1] at this
    exact absurd this (by decide)
  exact ⟨_, ⟨_, ⟨⟨0x80, by simp [grownLeft]⟩, k', hk', rfl⟩, rfl⟩, fun h => hnot h.bestFit, hnot⟩

end Loris
