import Loris.AlignedAlloc
import Loris.Expansion
import Loris.Merging
/-!
# HeapSteps — when `Alloc` and `Free` keep the invariant and the live blocks

Conditions on the state a call of `Alloc` or `Free` is made in, read off memory and index, under which the call keeps
the heap cut into segments and every other live block as it was.  `AllocSound` follows the passes of `Alloc`: each finds
a hole that holds the request, or none and the end of the heap takes the expansion.  `FreeSound` is about the
neighbours that `Free` reads.
-/
namespace Loris

open ByteMem Cut

/-- **The live blocks of `segs` are carried over**: they are segments of `segs'`, with every byte as it was. -/
structure Carried (m m' : Mem) (segs segs' : List Seg) : Prop where
  kept : ∀ s ∈ segs, s.hole = false → s ∈ segs'
  bytes : ∀ s ∈ segs, s.hole = false → ∀ x : U32, s.addr.toNat ≤ x.toNat → x.toNat < s.addr.toNat + s.size.toNat →
    m' x = m x

theorem Carried.trans {m₁ m₂ m₃ : Mem} {l₁ l₂ l₃ : List Seg} (h₁ : Carried m₁ m₂ l₁ l₂) (h₂ : Carried m₂ m₃ l₂ l₃) :
    Carried m₁ m₃ l₁ l₃ :=
  ⟨fun s hs hl => h₂.kept s (h₁.kept s hs hl) hl,
    fun s hs hl x hx hx' => (h₂.bytes s (h₁.kept s hs hl) hl x hx hx').trans (h₁.bytes s hs hl x hx hx')⟩

/-- **A block was placed**: `b` is live, holds the request behind its header, and was no live block before. -/
structure Placed (segs segs' : List Seg) (b : Seg) (size p : U32) : Prop where
  mem : b ∈ segs'
  live : b.hole = false
  ptr : p = b.addr + sizeofHeader
  enough : size.toNat + 20 ≤ b.size.toNat
  fresh : ∀ s ∈ segs, s.hole = false → s ≠ b

section Alloc

variable {h : Heap} {m : Mem} {base : Nat} {segs segs' : List Seg} {x b : Seg} {size : U32} {r : U32 × Heap × Mem}

theorem Allocated.carried (ha : Allocated h m base segs x size r b segs') (hi : Inv h m base segs)
    (hx : x.hole = true) :
    Carried m r.2.2 segs segs' ∧ Placed segs segs' b size r.1 := by
  obtain ⟨pre, post, front, rest, rfl, rfl, hc, -⟩ := ha.split
  have hv := vacant_of_cut hi
  have hout : ∀ s ∈ pre ++ x :: post, s.hole = false → s ∈ pre ++ post := fun s hs hl => by
    simp only [List.mem_append, List.mem_cons] at hs ⊢
    rcases hs with hs | rfl | hs
    · exact .inl hs
    · rw [hx] at hl; cases hl
    · exact .inr hs
  refine ⟨⟨fun s hs hl => ?_, fun s hs hl => untouched_live hi.toMarks ha.frame hs (hv.apart s (hout s hs hl))⟩,
    by simp, ha.live, ha.ptr, ha.enough, fun s hs hl he => ?_⟩
  · have := hout s hs hl
    simp only [List.mem_append] at this ⊢
    rcases this with h' | h'
    · exact .inl (.inl h')
    · exact .inr h'
  · -- the block lies in the hole, and the other segments do not
    have h1 := hv.apart s (hout s hs hl)
    have h2 := hc.bounds b (by simp)
    have h3 := b.room
    subst he
    simp only [Seg.start_eq, Seg.len_eq] at h2
    omega

end Alloc

namespace Kernel

/-- The end of the heap takes an expansion: the index is empty, or one of its holes ends there. -/
def EndOpen (k : Kernel) : Prop :=
  k.heap.index.size.toNat = 0 ∨ ∃ i, i < k.heap.index.size.toNat ∧
    (k.heap.index.getItemAtIndex k.mem i).toNat + (headerSize k.mem (k.heap.index.getItemAtIndex k.mem i)).toNat =
      k.heap.endAddress.toNat

/-- **The passes of `Alloc` are sound.**  A pass that finds a hole is, for a page-aligned request, to find one that
holds it behind its gap, with a slot of the index for what is left over.  A pass that finds none is to come to page
tables that are there, not to wrap around the address space, and to leave a hole at the end for what it adds. -/
inductive AllocSound : Kernel → U32 → Bool → Prop where
  | plain {k size i} (hfind : k.heap.findSmallestHole k.mem (size + sizeofHeader + sizeofFooter) false = some i) :
      AllocSound k size false
  | aligned {k size i} {x : Seg}
      (hfind : k.heap.findSmallestHole k.mem (size + sizeofHeader + sizeofFooter) true = some i)
      (haddr : k.heap.index.getItemAtIndex k.mem i = x.addr) (hsize : headerSize k.mem x.addr = x.size)
      (hfit : HoldsAligned x (size.toNat + 20))
      (hroom : (frontGap x.addr).toNat + (size.toNat + 20) ≠ x.size.toNat →
        k.heap.index.size.toNat < heapIndexSize.toNat) : AllocSound k size true
  | expand {k size al} (hfind : k.heap.findSmallestHole k.mem (size + sizeofHeader + sizeofFooter) al = none)
      (htables : k.tablesPresent
        (expandSize (k.heap.endAddress - k.heap.startAddress + (size + sizeofHeader + sizeofFooter))) (0x100000 + 1)
        (k.heap.endAddress - k.heap.startAddress) = true)
      (hlarger : k.heap.endAddress.toNat + 20 ≤ (k.heap.startAddress +
        expandSize (k.heap.endAddress - k.heap.startAddress + (size + sizeofHeader + sizeofFooter))).toNat)
      (hopen : k.EndOpen)
      (hretry : ∀ fuel k₂, k.grow (alloc fuel) (size + sizeofHeader + sizeofFooter) = some k₂ → AllocSound k₂ size al) :
      AllocSound k size al

variable {k k' : Kernel} {base : Nat} {segs : List Seg} {size p : U32} {al : Bool}

theorem grow_adjust {alloc : Allocator} {n : U32} {k₂ : Kernel}
    (htables : k.tablesPresent (expandSize (k.heap.endAddress - k.heap.startAddress + n)) (0x100000 + 1)
      (k.heap.endAddress - k.heap.startAddress) = true)
    (hlarger : k.heap.endAddress.toNat + 20 ≤ (k.heap.startAddress +
      expandSize (k.heap.endAddress - k.heap.startAddress + n)).toNat)
    (hk : k.grow alloc n = some k₂) :
    ∃ (h : Heap) (ol nl : U32), h.index = k.heap.index ∧ h.startAddress = k.heap.startAddress ∧
      k₂.heap = (h.adjust k.mem k.heap.endAddress ol nl).1 ∧ k₂.mem = (h.adjust k.mem k.heap.endAddress ol nl).2 ∧
      20 ≤ (nl - ol).toNat ∧ k.heap.endAddress.toNat + (nl - ol).toNat = h.endAddress.toNat := by
  obtain ⟨k₁, hk₁, -⟩ := Option.map_eq_some_iff.1 hk
  obtain ⟨hm₁, hh₁⟩ := expand_same htables hk₁
  rw [grow_eq hk₁, hm₁, hh₁] at hk
  obtain rfl := Option.some.inj hk
  generalize expandSize (k.heap.endAddress - k.heap.startAddress + n) = e at *
  have hd : (k.heap.startAddress + e - k.heap.startAddress - (k.heap.endAddress - k.heap.startAddress)).toNat =
      (k.heap.startAddress + e).toNat - k.heap.endAddress.toNat := by
    rw [show k.heap.startAddress + e - k.heap.startAddress - (k.heap.endAddress - k.heap.startAddress) =
      k.heap.startAddress + e - k.heap.endAddress by bv_omega, BitVec.toNat_sub]
    omega
  exact ⟨{ k.heap with endAddress := k.heap.startAddress + e }, _, _, rfl, rfl, rfl, rfl, by rw [hd]; omega,
    by rw [hd]; simp only; omega⟩

/-- **The growth of the heap** over present page tables, when its end is open. -/
theorem grow_carried {alloc : Allocator} {n : U32} {k₂ : Kernel} (hi : Inv k.heap k.mem base segs)
    (htables : k.tablesPresent (expandSize (k.heap.endAddress - k.heap.startAddress + n)) (0x100000 + 1)
      (k.heap.endAddress - k.heap.startAddress) = true)
    (hlarger : k.heap.endAddress.toNat + 20 ≤ (k.heap.startAddress +
      expandSize (k.heap.endAddress - k.heap.startAddress + n)).toNat)
    (hopen : k.EndOpen) (hk : k.grow alloc n = some k₂) :
    ∃ segs₂, Inv k₂.heap k₂.mem base segs₂ ∧ Carried k.mem k₂.mem segs segs₂ := by
  obtain ⟨h, ol, nl, hx, -, hh₂, hm₂, h20, hnew⟩ := grow_adjust htables hlarger hk
  have hm : Marks h k.mem base segs := hi.toMarks.of_index hx
  rw [hh₂, hm₂]
  rcases hopen with hempty | ⟨i, hlt, hend⟩
  · have hlive := hi.toMarks.live_of_empty hempty
    obtain ⟨y, hinv, -, -, hu⟩ := adjust_append hm hi.cut hlive h20 hnew
    exact ⟨_, hinv, fun s hs _ => List.mem_append_left _ hs,
      fun s hs _ => untouched_live hm hu hs (.inl (hi.cut.bounds s hs).2.2)⟩
  · obtain ⟨y, hy, hyh, hya⟩ := hi.toMarks.hole_at hlt
    rw [← hya, (hi.header y hy).2.2] at hend
    obtain ⟨pre, rfl⟩ := eq_append_of_end hi.cut hy hend
    obtain ⟨z, hinv, -, -, -, hu, -⟩ := adjust_extend hm hi.cut hyh hnew
    have hpre : ∀ s ∈ pre ++ [y], s.hole = false → s ∈ pre := fun s hs hl => by
      rcases List.mem_append.1 hs with hs | hs
      · exact hs
      · rw [List.mem_singleton.1 hs, hyh] at hl; cases hl
    exact ⟨_, hinv, fun s hs hl => List.mem_append_left _ (hpre s hs hl), fun s hs hl => untouched_live hm hu hs
      (.inl ((List.pairwise_append.1 hi.cut.pairwise).2.2 s (hpre s hs hl) y (by simp)))⟩

/-- The hole that a plain search finds: a segment that holds the request. -/
theorem exists_found {k : Kernel} {segs : List Seg} {i : Nat} (hi : Inv k.heap k.mem base segs)
    (hsize : size.toNat + 20 < 2 ^ 32)
    (hfind : k.heap.findSmallestHole k.mem (size + sizeofHeader + sizeofFooter) false = some i) :
    ∃ pre x post, segs = pre ++ x :: post ∧ x.hole = true ∧ i < k.heap.index.size.toNat ∧
      k.heap.index.getItemAtIndex k.mem i = x.addr ∧ size.toNat + 20 ≤ x.size.toNat := by
  have hn : (size + sizeofHeader + sizeofFooter).toNat = size.toNat + 20 := by
    unfold sizeofHeader sizeofFooter; bv_omega
  obtain ⟨hlt, hfit, -⟩ := Heap.findSmallestHole_some hfind
  obtain ⟨x, hx, hxh, hxa⟩ := hi.toMarks.hole_at hlt
  obtain ⟨pre, post, rfl⟩ := List.append_of_mem hx
  rw [← hxa, fits_plain, (hi.header x hx).2.2, BitVec.le_def, hn] at hfit
  exact ⟨pre, x, post, rfl, hxh, hlt, hxa.symm, hfit⟩

/-- The hole that a page-aligned search finds: the segment whose header `x` describes, with the room `x` has. -/
theorem exists_found_aligned {k : Kernel} {segs : List Seg} {x : Seg} {i : Nat} (hi : Inv k.heap k.mem base segs)
    (hfind : k.heap.findSmallestHole k.mem (size + sizeofHeader + sizeofFooter) true = some i)
    (haddr : k.heap.index.getItemAtIndex k.mem i = x.addr) (hxs : headerSize k.mem x.addr = x.size)
    (hfit : HoldsAligned x (size.toNat + 20))
    (hroom : (frontGap x.addr).toNat + (size.toNat + 20) ≠ x.size.toNat →
      k.heap.index.size.toNat < heapIndexSize.toNat) :
    ∃ pre y post, segs = pre ++ y :: post ∧ y.hole = true ∧ i < k.heap.index.size.toNat ∧
      k.heap.index.getItemAtIndex k.mem i = y.addr ∧ HoldsAligned y (size.toNat + 20) ∧
      ((frontGap y.addr).toNat + (size.toNat + 20) ≠ y.size.toNat →
        k.heap.index.size.toNat < heapIndexSize.toNat) := by
  obtain ⟨hlt, -⟩ := Heap.findSmallestHole_some hfind
  obtain ⟨y, hy, hyh, hya⟩ := hi.toMarks.hole_at hlt
  have ha : y.addr = x.addr := hya.trans haddr
  have hs : y.size = x.size := by rw [← (hi.header y hy).2.2, ha, hxs]
  unfold HoldsAligned at hfit ⊢
  rw [← ha, ← hs] at hfit hroom
  obtain ⟨pre, post, rfl⟩ := List.append_of_mem hy
  exact ⟨pre, y, post, rfl, hyh, hlt, hya.symm, hfit, hroom⟩

/-- **A sound `Alloc` keeps the invariant and carries the live blocks over**, and places its block. -/
theorem AllocSound.alloc (hs : AllocSound k size al) (hsize : size.toNat + 20 < 2 ^ 32) : ∀ {fuel : Nat}
    {segs : List Seg}, Inv k.heap k.mem base segs → alloc fuel k size al = some (p, k') →
    ∃ segs' b, Inv k'.heap k'.mem base segs' ∧ Carried k.mem k'.mem segs segs' ∧ Placed segs segs' b size p := by
  induction hs with
  | @plain k size i hfind =>
    intro fuel segs hi ha
    obtain ⟨rfl, rfl⟩ := alloc_found hfind ha
    obtain ⟨pre, x, post, rfl, hxh, hlt, hxa, hle⟩ := exists_found hi hsize hfind
    obtain ⟨b, segs', hb⟩ := allocAt_plain hi hxh hlt hxa hle
    exact ⟨segs', b, hb.inv, hb.carried hi hxh⟩
  | @aligned k size i x hfind haddr hxs hfit hroom =>
    intro fuel segs hi ha
    obtain ⟨rfl, rfl⟩ := alloc_found hfind ha
    obtain ⟨pre, y, post, rfl, hyh, -, hya, hfit, hroom⟩ := exists_found_aligned hi hfind haddr hxs hfit hroom
    obtain ⟨b, segs', hb, -⟩ := allocAt_aligned hi hyh hya hfit hroom
    exact ⟨segs', b, hb.inv, hb.carried hi hyh⟩
  | @expand k size al hfind htables hlarger hopen hretry ih =>
    intro fuel segs hi ha
    obtain ⟨n, k₂, -, hk₂, ha⟩ := alloc_grown hfind ha
    obtain ⟨segs₂, hi₂, hc₂⟩ := grow_carried hi htables hlarger hopen hk₂
    obtain ⟨segs', b, hi', hc', hb⟩ := ih n k₂ hk₂ hsize hi₂ ha
    exact ⟨segs', b, hi', hc₂.trans hc', hb.mem, hb.live, hb.ptr, hb.enough,
      fun s hs hl => hb.fresh s (hc₂.kept s hs hl) hl⟩

/-- **What `Free(p)` reads around the block is what is there.**  Behind the block, or behind the hole that follows it,
the heap goes on; a footer below that names a hole names one of the index that ends at the block; and a block with no
hole next to it finds a slot of the index. -/
structure FreeSound (k : Kernel) (p : U32) : Prop where
  inside : p - sizeofHeader + headerSize k.mem (p - sizeofHeader) ≠ k.heap.endAddress
  insideRight : ¬ RightClear k.mem (p - sizeofHeader + headerSize k.mem (p - sizeofHeader)) →
    p - sizeofHeader + headerSize k.mem (p - sizeofHeader) +
      headerSize k.mem (p - sizeofHeader + headerSize k.mem (p - sizeofHeader)) ≠ k.heap.endAddress
  left : LeftClear k.mem (p - sizeofHeader) ∨ ∃ i, i < k.heap.index.size.toNat ∧
    footerMagic k.mem (p - sizeofHeader - sizeofFooter) = heapMagic ∧
    footerHeader k.mem (p - sizeofHeader - sizeofFooter) = k.heap.index.getItemAtIndex k.mem i ∧
    (k.heap.index.getItemAtIndex k.mem i).toNat + (headerSize k.mem (k.heap.index.getItemAtIndex k.mem i)).toNat =
      (p - sizeofHeader).toNat
  room : LeftClear k.mem (p - sizeofHeader) →
    RightClear k.mem (p - sizeofHeader + headerSize k.mem (p - sizeofHeader)) →
    k.heap.index.size.toNat < heapIndexSize.toNat

variable {b : Seg}

/-- A hole whose footer points back to it may be taken for tied. -/
theorem retie {h : Heap} {m : Mem} {pre post : List Seg} {L : Seg} (hi : Inv h m base (pre ++ L :: post))
    (hL : L.hole = true) (hf : FooterAt m L) :
    Inv h m base (pre ++ { L with tied := true } :: post) := by
  have hm := (hi.toMarks.perm (perm_split pre post L)).replaceHole (t := { L with tied := true })
    (show Keeps (2 ^ 32) (2 ^ 32) m m from Keeps.refl _ _ m) (by have := hi.low; omega)
    (fun u hu => .inl (Nat.le_of_lt (hi.within u (mem_around L hu)).2)) (hi.within L (by simp)) (hi.header L (by simp))
    (fun _ => hf) hL hL rfl
  refine ⟨hm.perm (perm_split pre post _).symm, ?_⟩
  have hc : Cuts L.addr.toNat (L.addr.toNat + L.size.toNat) [{ L with tied := true }] :=
    ⟨rfl, (hi.cut.bounds L (by simp)).2.1, rfl⟩
  simpa using hi.cut.splice hc

/-- **The neighbours of a block**, when a footer below that names a hole names one of the index that ends at the block,
and what lies behind the heap does not look like a header. -/
theorem exists_around_read (hi : Inv k.heap k.mem base segs) (hb : b ∈ segs)
    (hleft : LeftClear k.mem b.addr ∨ ∃ i, i < k.heap.index.size.toNat ∧
      footerMagic k.mem (b.addr - sizeofFooter) = heapMagic ∧
      footerHeader k.mem (b.addr - sizeofFooter) = k.heap.index.getItemAtIndex k.mem i ∧
      (k.heap.index.getItemAtIndex k.mem i).toNat + (headerSize k.mem (k.heap.index.getItemAtIndex k.mem i)).toNat =
        b.addr.toNat)
    (hlast : b.addr.toNat + b.size.toNat = k.heap.endAddress.toNat → RightClear k.mem (b.addr + b.size)) :
    ∃ segs₁ pre left right post, Inv k.heap k.mem base segs₁ ∧ (∀ s ∈ segs, s.hole = false → s ∈ segs₁) ∧
      Around k.mem segs₁ b pre left right post := by
  obtain ⟨p, q, rfl⟩ := List.append_of_mem hb
  rcases hleft with hlc | ⟨i, hlt, hmagic, hfoot, hadj⟩
  · obtain ⟨right, post, rfl, hr, -⟩ := right_neighbour hi hlast
    exact ⟨_, p, [], right, post, hi, fun s hs _ => hs, by simp, .inl ⟨rfl, hlc⟩, hr⟩
  · obtain ⟨L, hL, hLh, hLa⟩ := hi.toMarks.hole_at hlt
    rw [← hLa] at hfoot hadj
    rw [(hi.header L hL).2.2] at hadj
    have hsplit := hi.cut.split
    have hLp : L ∈ p := by
      rcases List.mem_append.1 hL with hL | hL
      · exact hL
      · have hLr := L.room
        rcases List.mem_cons.1 hL with rfl | hL
        · omega
        · have := (hsplit.2.2.bounds L hL).1
          simp only [Seg.start_eq, Seg.len_eq] at this; omega
    obtain ⟨pre, rfl⟩ := eq_append_of_end hsplit.1 hLp hadj
    have hLf : L.footer = b.addr - sizeofFooter := by
      have := hi.within L hL
      have hLr := L.room
      unfold Seg.footer; bv_omega
    have hi₁ : Inv k.heap k.mem base ((pre ++ [{ L with tied := true }]) ++ b :: q) := by
      have := retie (show Inv k.heap k.mem base (pre ++ L :: b :: q) by simpa using hi) hLh
        (by unfold FooterAt; rw [hLf]; exact ⟨hmagic, hfoot⟩)
      simpa using this
    obtain ⟨right, post, rfl, hr, -⟩ := right_neighbour hi₁ hlast
    refine ⟨_, pre, [{ L with tied := true }], right, post, hi₁, fun s hs hsl => ?_, by simp,
      .inr ⟨_, rfl, hLh, rfl⟩, hr⟩
    rcases List.mem_append.1 hs with hs | hs
    · rcases List.mem_append.1 hs with hs | hs
      · simp [hs]
      · rw [List.mem_singleton.1 hs, hLh] at hsl; cases hsl
    · exact List.mem_append_right _ hs

/-- **The neighbours of a block that `Free` may release.** -/
theorem FreeSound.around (hs : FreeSound k (b.addr + sizeofHeader)) (hi : Inv k.heap k.mem base segs) (hb : b ∈ segs) :
    ∃ segs₁ pre left right post, Inv k.heap k.mem base segs₁ ∧
      (∀ s ∈ segs, s.hole = false → s ∈ segs₁) ∧ Around k.mem segs₁ b pre left right post ∧ post ≠ [] ∧
      (left = [] → right = [] → k.heap.index.size.toNat < heapIndexSize.toNat) := by
  have hsub : b.addr + sizeofHeader - sizeofHeader = b.addr := by unfold sizeofHeader; bv_omega
  obtain ⟨h1, h2, h3, h4⟩ := hs
  rw [hsub] at h1 h2 h3 h4
  rw [(hi.header b hb).2.2] at h1 h2 h4
  have hw := hi.within b hb
  have hbr := b.room
  have hbe := toNat_behind hw.2
  have hend : b.addr.toNat + b.size.toNat ≠ k.heap.endAddress.toNat :=
    fun he => h1 (BitVec.eq_of_toNat_eq (hbe.trans he))
  obtain ⟨segs₁, pre, left, right, post, hi₁, hsub, ha⟩ := exists_around_read hi hb h3 fun he => absurd he hend
  refine ⟨segs₁, pre, left, right, post, hi₁, hsub, ha, ?_, fun hln hrn => ?_⟩
  · refine ha.post_ne_nil hi₁ hend fun R hR hRh hRa hRe => ?_
    have hRw := hi₁.within R hR
    have hRb : b.addr + b.size = R.addr := BitVec.eq_of_toNat_eq (hbe.trans hRa.symm)
    have hRd := hi₁.header R hR
    rw [hRb] at h2
    refine h2 (fun hc => hc ⟨hRd.1, hRd.2.1.trans hRh⟩) ?_
    rw [hRd.2.2]
    exact BitVec.eq_of_toNat_eq ((toNat_behind hRw.2).trans hRe)
  · have hlc : LeftClear k.mem b.addr := (ha.left.resolve_right fun ⟨L, hL, _⟩ => by rw [hL] at hln; cases hln).2
    exact h4 hlc (ha.right.resolve_right fun ⟨R, hR, _⟩ => by rw [hR] at hrn; cases hrn).2

/-- A block with a live one in front, and two segments behind it, may be released. -/
theorem freeSound_between {p q : List Seg} {c r d : Seg} (hi : Inv k.heap k.mem base (p ++ c :: b :: r :: d :: q))
    (hc : c.hole = false) (hroom : k.heap.index.size.toNat < heapIndexSize.toNat) :
    FreeSound k (b.addr + sizeofHeader) := by
  have hsub : b.addr + sizeofHeader - sizeofHeader = b.addr := by unfold sizeofHeader; bv_omega
  obtain ⟨-, -, hcb, -, hbr, -, hrd, -, hdq⟩ := hi.cut.split
  simp only [Seg.start_eq, Seg.len_eq] at hcb hbr hrd hdq
  have hb := hi.within b (by simp)
  have hr := hi.within r (by simp)
  have hbe : b.addr + b.size = r.addr := BitVec.eq_of_toNat_eq ((toNat_behind hb.2).trans (by omega))
  have hre : r.addr + r.size = d.addr := BitVec.eq_of_toNat_eq ((toNat_behind hr.2).trans (by omega))
  have hclear : LeftClear k.mem b.addr := by
    have hi' : Inv k.heap k.mem base ((p ++ [c]) ++ b :: r :: d :: q) := by simpa using hi
    obtain ⟨pre, left, hsplit, ⟨-, hclear⟩ | ⟨L, rfl, hL, -⟩, -⟩ := left_neighbour hi' (fun L hL hLh hLe => by
      rw [hi'.cut.eq_of_end (List.mem_append_left _ hL) (List.mem_append_left _ (by simp : c ∈ p ++ [c]))
        (by simp only [Seg.start_eq, Seg.len_eq]; omega), hc] at hLh
      cases hLh) (fun he => by
        have hcr := c.room
        have := (hi.cut.bounds c (by simp)).1
        simp only [Seg.start_eq] at this
        omega)
    · exact hclear
    · rw [← (List.append_inj' hsplit rfl).2 |> List.singleton_inj.1, hc] at hL
      cases hL
  -- both segments behind the block start below the end
  have hbelow : ∀ s : Seg, s ∈ p ++ c :: b :: r :: d :: q → s.addr ≠ k.heap.endAddress := fun s hs he => by
    have hsr := s.room
    have hse := (hi.cut.bounds s hs).2.2
    simp only [Seg.start_eq, Seg.len_eq, he] at hse
    omega
  refine ⟨?_, fun _ => ?_, .inl (by rw [hsub]; exact hclear), fun _ _ => hroom⟩
  · rw [hsub, (hi.header b (by simp)).2.2, hbe]
    exact hbelow r (by simp)
  · rw [hsub, (hi.header b (by simp)).2.2, hbe, (hi.header r (by simp)).2.2, hre]
    exact hbelow d (by simp)

/-- **A sound `Free` keeps the invariant and carries the other live blocks over.** -/
theorem FreeSound.free (hs : FreeSound k (b.addr + sizeofHeader)) (hi : Inv k.heap k.mem base segs) (hb : b ∈ segs)
    (hl : b.hole = false) (hk : k.free (b.addr + sizeofHeader) = some k') :
    ∃ segs', Inv k'.heap k'.mem base segs' ∧ ∀ s ∈ segs, s.hole = false → s ≠ b → s ∈ segs' ∧
      ∀ x : U32, s.addr.toNat ≤ x.toNat → x.toNat < s.addr.toNat + s.size.toNat → k'.mem x = k.mem x := by
  obtain ⟨segs₁, pre, left, right, post, hi₁, hsub, ha, hpost, hroom⟩ := hs.around hi hb
  obtain ⟨k'', M, hk'', hr⟩ := free_inside hi₁ ha hl hpost hroom
  rw [hk] at hk''
  obtain rfl := Option.some.inj hk''
  refine ⟨_, hr.inv, fun s hs hsl hsb => ?_⟩
  -- the other live blocks are around the released stretch
  have hs₁ := hsub s hs hsl
  have hcut := hi₁.cut
  have hout : s ∈ pre ++ post := by
    rw [ha.split] at hs₁
    simp only [List.mem_append, List.mem_cons] at hs₁ ⊢
    rcases hs₁ with (h | h | rfl | h) | h
    · exact .inl h
    · rcases ha.left with ⟨rfl, -⟩ | ⟨L, rfl, hL, -⟩
      · cases h
      · rw [List.mem_singleton.1 h, hL] at hsl; cases hsl
    · exact absurd rfl hsb
    · rcases ha.right with ⟨rfl, -⟩ | ⟨R, rfl, hR⟩
      · cases h
      · rw [List.mem_singleton.1 h, hR] at hsl; cases hsl
    · exact .inr h
  rw [ha.split] at hcut
  have hap := cut_around hcut hr.cut (by simp) s hout
  refine ⟨?_, fun x hx hx' => untouched_live hi₁.toMarks hr.frame (hsub s hs hsl) ?_ x hx hx'⟩
  · simp only [List.mem_append] at hout ⊢
    rcases hout with h | h
    · exact .inl (.inl h)
    · exact .inr h
  · have : b.addr.toNat + b.size.toNat ≤ M.addr.toNat + M.size.toNat := (hr.cut.bounds b (by simp)).2.2
    omega

end Kernel

end Loris
