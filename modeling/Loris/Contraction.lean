import Loris.FreeInside
/-!
# Contraction — `Free` at the end of the heap

A freed hole that reaches `m_endAddress` makes `Free` contract the heap.  `Contract` rounds with the mask `0x1000`,
which is one bit, and its loop stops short of the first page above the new end.  `contract_iff`: what a contraction is
to leave is left exactly when the heap has its least length, so that there is nothing to contract.
-/
namespace Loris

open ByteMem Cut

namespace Kernel

variable {k k' : Kernel}

/-- The frame that `kernel_directory` maps the page of an address to; `none` without a page table. -/
def frameAt (k : Kernel) (x : U32) : Option (BitVec 20) :=
  (k.lookupPage x k.kernel_directory).map fun p => (k.page p).frame

theorem lookupPage_same (hs : SameButPages k k') (x dir : U32) : k'.lookupPage x dir = k.lookupPage x dir := by
  rw [hs]; rfl

theorem page_freeFrame (k : Kernel) {p q : PagePtr} (h : q ≠ p) : (k.freeFrame p).page q = k.page q := by
  have := page_setPage k p q (k.frames.freeFrame (k.page p)).2
  rw [if_neg h] at this
  exact this

theorem toNat_sub_page {x : U32} (h : 0x1000 ≤ x.toNat) : (x - 0x1000).toNat = x.toNat - 0x1000 := by
  rw [BitVec.toNat_sub]; simp; omega

/-- **The loop of `Contract` touches frames and page entries only**, and of these only entries of offsets above the new
size. -/
theorem contractLoop_spec {new_size : U32} : ∀ (n : Nat) {k k' : Kernel} {i : U32},
    i.toNat % 0x1000 = 0 → contractLoop new_size n k i = some k' → SameButPages k k' ∧ ∀ q : PagePtr,
      (∀ j : U32, new_size < j → j ≤ i → j.toNat % 0x1000 = 0 →
        k.lookupPage (k.heap.startAddress + j) k.kernel_directory ≠ some q) →
        k'.page q = k.page q
  | 0, _, _, _, _, h => by cases h
  | n + 1, k, k', i, hal, h => by
    unfold contractLoop at h
    by_cases hi : new_size < i
    · rw [if_pos hi] at h
      obtain ⟨p, hp, h⟩ := Option.bind_eq_some_iff.1 h
      have hs := freeFrame_same k p
      have hi' := toNat_sub_page (x := i) (by rw [BitVec.lt_def] at hi; omega)
      obtain ⟨h1, h2⟩ := contractLoop_spec n (by omega) h
      refine ⟨hs.trans h1, fun q hq => ?_⟩
      have hqp : q ≠ p := fun he => hq i hi (BitVec.le_refl _) hal (by rw [hp, he])
      rw [h2 q fun j hj hji hja => ?_, page_freeFrame k hqp]
      exact hq j hj (by rw [BitVec.le_def] at *; omega) hja
    · rw [if_neg hi] at h
      obtain rfl := Option.some.inj h
      exact ⟨rfl, fun _ _ => rfl⟩

/-- The contraction of a heap whose end it reaches: the end it sets, and the entries it keeps. -/
theorem contractEnd_spec {f : Heap.Freeing} (h : contractEnd k f = some k')
    (he : f.footer + sizeofFooter = k.heap.endAddress)
    (hal : (k.heap.endAddress - k.heap.startAddress).toNat % 0x1000 = 0)
    (hpos : 0x1000 ≤ (k.heap.endAddress - k.heap.startAddress).toNat) :
    k'.heap.startAddress = k.heap.startAddress ∧
      k'.heap.endAddress = k.heap.startAddress + contractSize (f.header - k.heap.startAddress) ∧
      k'.directories = k.directories ∧ k'.kernel_directory = k.kernel_directory ∧
      ∀ q : PagePtr, (∀ j : U32, contractSize (f.header - k.heap.startAddress) < j → j.toNat % 0x1000 = 0 →
        k.lookupPage (k.heap.startAddress + j) k.kernel_directory ≠ some q) → k'.page q = k.page q := by
  unfold contractEnd at h
  rw [if_pos he] at h
  obtain ⟨⟨n, k₁⟩, hc, rfl⟩ := Option.map_eq_some_iff.1 h
  unfold contract at hc
  obtain ⟨k₂, hl, hk⟩ := Option.map_eq_some_iff.1 hc
  simp only [Prod.mk.injEq] at hk
  obtain ⟨rfl, rfl⟩ := hk
  have hsub := toNat_sub_page hpos
  obtain ⟨hs, hq⟩ := contractLoop_spec _ (by omega) hl
  have hq' : ∀ q : PagePtr, (∀ j : U32, contractSize (f.header - k.heap.startAddress) < j →
      j.toNat % 0x1000 = 0 → k.lookupPage (k.heap.startAddress + j) k.kernel_directory ≠ some q) →
      k₂.page q = k.page q := fun q h' => hq q fun j hj _ => h' j hj
  rw [hs] at hq' ⊢
  simp only
  split
  · exact ⟨rfl, rfl, rfl, rfl, hq'⟩
  · split <;> exact ⟨rfl, rfl, rfl, rfl, hq'⟩

/-- A contraction to the size the heap has makes the hole's header and footer anew, and changes nothing else. -/
theorem contractEnd_same {f : Heap.Freeing} (he : f.footer + sizeofFooter = k.heap.endAddress)
    (hn : contractSize (f.header - k.heap.startAddress) = k.heap.endAddress - k.heap.startAddress)
    (hpos : 0x1000 ≤ (k.heap.endAddress - k.heap.startAddress).toNat) (hsz : headerSize k.mem f.header ≠ 0) :
    contractEnd k f = some { k with
      mem := writeFooter (setHeaderSize k.mem f.header (headerSize k.mem f.header))
        (f.header + headerSize k.mem f.header - sizeofFooter) f.header } := by
  have hloop : contractLoop (k.heap.endAddress - k.heap.startAddress) (0x100000 + 1) k
      (k.heap.endAddress - k.heap.startAddress - 0x1000) = some k := by
    unfold contractLoop
    rw [if_neg]
    rw [BitVec.lt_def, toNat_sub_page hpos]
    omega
  have hend : k.heap.startAddress + (k.heap.endAddress - k.heap.startAddress) = k.heap.endAddress := by bv_omega
  have hsz' : headerSize k.mem f.header - (k.heap.endAddress - k.heap.startAddress -
      (k.heap.endAddress - k.heap.startAddress)) = headerSize k.mem f.header := by simp
  unfold contractEnd contract
  rw [if_pos he, hn]
  simp only [hloop, Option.map_some, hend, hsz']
  rw [if_pos (by rw [gt_iff_lt, BitVec.lt_def]; have := fun h => hsz (BitVec.eq_of_toNat_eq h); simp at this ⊢; omega)]
  simp only [headerSize_setHeaderSize]

end Kernel

/-! ## What a contraction is to leave -/

/-- **What `Free` of a block that reaches the end is to leave**: the other live blocks below the end, with their
frames; every listed hole below the end; the end on a page boundary and not below the least length; and of the old
heap's pages exactly those from the end on without a frame. -/
structure ContractedWell (k : Kernel) (segs : List Seg) (b : Seg) (k' : Kernel) : Prop where
  live : ∀ s ∈ segs, s.hole = false → s ≠ b → s.addr.toNat + s.size.toNat ≤ k'.heap.endAddress.toNat ∧
    ∀ x : U32, s.addr.toNat ≤ x.toNat → x.toNat < s.addr.toNat + s.size.toNat → k'.frameAt x = k.frameAt x
  holes : ∀ a ∈ k'.heap.index.items k'.mem, a.toNat + (headerSize k'.mem a).toNat ≤ k'.heap.endAddress.toNat
  aligned : k'.heap.endAddress.toNat % 0x1000 = 0
  least : k.heap.startAddress.toNat + heapMinSize.toNat ≤ k'.heap.endAddress.toNat
  pages : ∀ i : U32, i.toNat % 0x1000 = 0 → i.toNat < (k.heap.endAddress - k.heap.startAddress).toNat →
    (k'.frameAt (k.heap.startAddress + i) = some 0 ↔
      k'.heap.endAddress.toNat ≤ (k.heap.startAddress + i).toNat)

theorem contractSize_small {x : U32} (h : x.toNat < heapMinSize.toNat) : Kernel.contractSize x = heapMinSize := by
  have hb := toNat_and_bit12 x
  have hm : heapMinSize.toNat = 0x70000 := rfl
  unfold Kernel.contractSize
  simp only
  split
  · rw [if_pos]
    rw [BitVec.lt_def, BitVec.toNat_add, hb, hm]
    simp; omega
  · rw [if_pos (by rw [BitVec.lt_def]; exact h)]

theorem contractSize_cases (x : U32) : Kernel.contractSize x = heapMinSize ∨
    Kernel.contractSize x = x ∧ heapMinSize.toNat ≤ x.toNat := by
  have hb := toNat_and_bit12 x
  have hm : heapMinSize.toNat = 0x70000 := rfl
  unfold Kernel.contractSize
  simp only
  split
  · left
    rw [if_pos]
    rw [BitVec.lt_def, BitVec.toNat_add, hb, hm]
    simp; omega
  · by_cases hlt : x < heapMinSize
    · rw [if_pos hlt]; exact .inl rfl
    · rw [if_neg hlt]
      rw [BitVec.lt_def] at hlt
      exact .inr ⟨rfl, by omega⟩

/-- **A hole may be cut short, or just get its footer**: its header and footer are written anew. -/
theorem Merged.resize {h : Heap} {m : Mem} {base : Nat} {rest : List Seg} {f : Heap.Freeing} {M N : Seg}
    (hM : Merged h m base rest f M) (ha : N.addr = M.addr) (hs : N.size.toNat ≤ M.size.toNat) (hh : N.hole = true)
    (hap : ∀ u ∈ rest, u.addr.toNat + u.size.toNat ≤ M.addr.toNat ∨ M.addr.toNat + M.size.toNat ≤ u.addr.toNat) :
    Merged h (writeFooter (setHeaderSize m N.addr N.size) N.footer N.addr) base rest { f with footer := N.footer } N ∧
      Keeps M.addr.toNat (M.addr.toNat + M.size.toNat) m
        (writeFooter (setHeaderSize m N.addr N.size) N.footer N.addr) := by
  obtain ⟨hMw, hMw'⟩ := hM.within
  have hNr := N.room
  have hNw : base ≤ N.addr.toNat ∧ N.addr.toNat + N.size.toNat < 2 ^ 32 := by rw [ha]; omega
  have hNf := Seg.toNat_footer hNw.2
  have k1 := keeps_setHeaderSize m N.addr N.size (by omega)
  have k2 := keeps_writeFooter (setHeaderSize m N.addr N.size) N.footer N.addr (by omega)
  have k := (k1.mono (a := M.addr.toNat) (b := M.addr.toNat + M.size.toNat) (by rw [ha]) (by rw [ha]; omega)).trans
    (k2.mono (by rw [hNf, ha]; omega) (by rw [hNf, ha]; omega))
  have hh1 : HeaderAt (setHeaderSize m N.addr N.size) N := by
    have hMh := hM.headerAt
    rw [HeaderAt, ← ha] at hMh
    exact ⟨(headerMagic_setHeaderSize m _ (by omega)).trans hMh.1,
      ((isHole_setHeaderSize m _ (by omega)).trans hMh.2.1).trans (hM.hole.trans hh.symm),
      headerSize_setHeaderSize _ _ _⟩
  have hNh := hh1.keep k2 hNw.2 (.inl (by omega))
  have hNt := footerAt_writeFooter (setHeaderSize m N.addr N.size) N hNw.2
  exact ⟨⟨hM.header.trans ha.symm, rfl, hh, hNw, hNh, fun _ => hNt, fun hd => (hM.loose hd).keep k hMw hap,
    fun hd => (hM.listed hd).replaceHole (t := N) k hMw hap hNw hNh (fun _ => hNt) hM.hole hh ha⟩, k⟩

section Reach

variable {k k' : Kernel} {segs pre left right : List Seg} {b : Seg}

/-- A block whose freed hole reaches the end has nothing behind what it is joined to. -/
theorem around_reach (hwf : WellFormed k.heap k.mem segs) (hb : b ∈ segs)
    (hreach : b.addr.toNat + b.size.toNat = k.heap.endAddress.toNat ∨ ∃ R ∈ segs, R.hole = true ∧
      R.addr.toNat = b.addr.toNat + b.size.toNat ∧ R.addr.toNat + R.size.toNat = k.heap.endAddress.toNat)
    (hfirst : b.addr.toNat = k.heap.startAddress.toNat → LeftClear k.mem b.addr)
    (hlast : b.addr.toNat + b.size.toNat = k.heap.endAddress.toNat → RightClear k.mem (b.addr + b.size)) :
    ∃ pre left right, Around k.mem segs b pre left right [] := by
  obtain ⟨pre, left, right, post, ha, -, hr⟩ := exists_around hwf.toInv hb (fun L hL _ _ => hwf.tied L hL) hfirst hlast
  have hcut := hwf.cut
  rw [ha.split] at hcut
  obtain ⟨d, hd, hpost⟩ := cuts_append.1 hcut
  obtain ⟨c, -, hmid⟩ := cuts_append.1 hd
  obtain ⟨e, -, hbs, -, hrest⟩ := cuts_append.1 hmid
  have hle := hpost.le
  simp only [Seg.start_eq, Seg.len_eq] at hbs hrest
  suffices hde : d = k.heap.endAddress.toNat by
    rw [hde] at hpost
    rw [hpost.eq_nil] at ha
    exact ⟨pre, left, right, ha⟩
  rcases ha.right with ⟨rfl, -⟩ | ⟨R, rfl, hR⟩
  · simp only [cuts_nil] at hrest
    rcases hreach with h1 | ⟨R, hR, hRh, hRs, -⟩
    · omega
    · exact absurd hRs (hr rfl R hR hRh)
  · obtain ⟨hRs, hRl, hRe⟩ := hrest
    simp only [Seg.start_eq, Seg.len_eq, cuts_nil] at hRs hRl hRe
    rcases hreach with h1 | ⟨R', hR', -, hRs', hRe'⟩
    · omega
    · obtain rfl : R' = R := hwf.cut.eq_of_start hR' (by rw [ha.split]; simp) (by simp only [Seg.start_eq]; omega)
      omega

theorem eq_of_lookupPage {dir x y : U32} {p : PagePtr}
    (hd : ∀ i j, (k.directories dir).tables i ≠ 0 → (k.directories dir).tables i = (k.directories dir).tables j → i = j)
    (hx : k.lookupPage x dir = some p) (hy : k.lookupPage y dir = some p) (hxa : x.toNat % 0x1000 = 0)
    (hya : y.toNat % 0x1000 = 0) : x = y := by
  unfold Kernel.lookupPage at hx hy
  simp only at hx hy
  split at hx
  · rename_i hx0
    split at hy
    · obtain rfl := Option.some.inj hx
      have hp := Option.some.inj hy
      simp only [PagePtr.mk.injEq] at hp
      have ht := hd _ _ hx0 hp.1.symm
      have hi := hp.2
      unfold Kernel.tableIndex at ht
      unfold Kernel.pageIndex at hi
      simp [BitVec.toNat_udiv, BitVec.toNat_umod] at ht hi
      exact BitVec.eq_of_toNat_eq (by omega)
    · cases hy
  · cases hx

theorem free_joined_end {base : Nat} (hi : Inv k.heap k.mem base segs) (hlive : b.hole = false)
    (ha : Around k.mem segs b pre left right []) : ∃ f i m' M,
      Joined k.heap k.mem base b pre left right [] (f, { k.heap with index := i }, m') M ∧
      i.items m' = (k.heap.index.items k.mem).diff (right.map (·.addr)) ∧
      f.footer + sizeofFooter = k.heap.endAddress ∧
      k.free (b.addr + sizeofHeader) = (Kernel.contractEnd { k with
          heap := { k.heap with index := i }
          mem := m' } f).map fun k' => if f.doAdd then
          { k' with
            heap := { k'.heap with index := (k'.heap.index.insert (headerLessThan k'.mem) k'.mem M.addr).1 }
            mem := (k'.heap.index.insert (headerLessThan k'.mem) k'.mem M.addr).2 }
        else k' := by
  have hinv : Inv k.heap k.mem base (pre ++ (left ++ b :: right) ++ []) := by rw [← ha.split]; exact hi
  obtain ⟨M, hj, hitems⟩ := join_spec hi ha hlive
  have hfree := Kernel.free_eq hi (b := b) (by rw [ha.split]; simp)
  generalize k.heap.join k.mem b.addr b.footer = r at hj hitems hfree
  obtain ⟨f, h', m'⟩ := r
  obtain ⟨i, hh, -⟩ := hj.heap
  simp only at hh hfree
  subst hh
  simp only [show f.header = M.addr from hj.merged.header] at hfree
  refine ⟨f, i, m', M, hj, hitems, ?_, hfree⟩
  rw [show f.footer = M.footer from hj.merged.footer]
  exact (Kernel.join_end hinv hj.cut).2 rfl

theorem room_of_least {base : Nat} (hi : Inv k.heap k.mem base segs)
    (hlen : k.heap.endAddress.toNat ≤ base + heapMinSize.toNat) :
    k.heap.index.size.toNat < heapIndexSize.toNat := by
  have h1 := hi.cut.length_mul_le (n := 20) fun s _ => s.room
  have h2 := hi.toMarks.size_le
  have h4 : heapIndexSize.toNat = 0x20000 := rfl
  have h5 : heapMinSize.toNat = 0x70000 := rfl
  omega

/-- In a heap of the least length the joined hole reaches the end, and the end stays. -/
theorem free_least (hwf : WellFormed k.heap k.mem segs) (hlive : b.hole = false)
    (ha : Around k.mem segs b pre left right []) (hlen : k.heap.endAddress - k.heap.startAddress = heapMinSize) :
    ∃ k' M, k.free (b.addr + sizeofHeader) = some k' ∧ k' = { k with
        heap := k'.heap
        mem := k'.mem } ∧ k'.heap.endAddress = k.heap.endAddress ∧
      Inv k'.heap k'.mem k.heap.startAddress.toNat (pre ++ [M] ++ []) := by
  have hmn : heapMinSize.toNat = 0x70000 := rfl
  have hse := hwf.cut.le
  have hlen' : k.heap.endAddress.toNat = k.heap.startAddress.toNat + heapMinSize.toNat := by
    rw [← hlen, BitVec.toNat_sub]; omega
  have hinv : Inv k.heap k.mem k.heap.startAddress.toNat (pre ++ (left ++ b :: right) ++ []) := by
    rw [← ha.split]; exact hwf.toInv
  obtain ⟨f, i, m', M, hj, -, hend, hfree⟩ := free_joined_end hwf.toInv hlive ha
  have hM := hj.merged
  obtain ⟨j, hh, -, his⟩ := hj.heap
  obtain rfl : i = j := congrArg Heap.index hh
  simp only at hM
  have hMr := M.room
  have hMw := hM.within
  have hMe := (hinv.cut.around hj.cut (by simp)).2
  have hMn : M.size ≠ 0 := fun h' => by rw [h'] at hMr; simp at hMr
  have hnew : Kernel.contractSize (M.addr - k.heap.startAddress) = k.heap.endAddress - k.heap.startAddress := by
    rw [hlen]
    simp only [cuts_nil] at hMe
    exact contractSize_small (by rw [BitVec.toNat_sub]; omega)
  -- the contraction only ties the hole
  have hcon := Kernel.contractEnd_same (k := { k with
      heap := { k.heap with index := i }
      mem := m' }) hend (by rw [hM.header]; exact hnew)
    (by show 0x1000 ≤ (k.heap.endAddress - k.heap.startAddress).toNat; rw [hlen]; decide)
    (by show headerSize m' f.header ≠ 0; rw [hM.header, hM.headerAt.2.2]; exact hMn)
  simp only [hM.header, hM.headerAt.2.2] at hcon
  rw [hcon, Option.map_some] at hfree
  obtain ⟨hN, -⟩ := hM.resize (N := ⟨M.addr, M.size, true, true, M.room⟩) rfl (Nat.le_refl _) rfl
    (cut_around hinv.cut hj.cut (by simp))
  have hcut : Cuts k.heap.startAddress.toNat k.heap.endAddress.toNat
      (pre ++ [⟨M.addr, M.size, true, true, M.room⟩] ++ []) :=
    hinv.cut.replace hj.cut (by simp) ⟨rfl, by simp only [Seg.len_eq]; omega, rfl⟩
  have hroom := join_room hwf.toInv ha his fun _ => room_of_least hwf.toInv (by omega)
  refine ⟨_, ⟨M.addr, M.size, true, true, M.room⟩, hfree, ?_⟩
  cases hd : f.doAdd with
  | false => exact ⟨rfl, rfl, hN.inv_listed hcut hd⟩
  | true => exact ⟨rfl, rfl, hN.inv_loose hcut hd hroom⟩

/-- **A heap of the least length is not contracted.** -/
theorem contracted_of_least (hwf : WellFormed k.heap k.mem segs) (hlive : b.hole = false)
    (ha : Around k.mem segs b pre left right [])
    (hea : k.heap.endAddress.toNat % 0x1000 = 0)
    (hframes : ∀ i : U32, i.toNat % 0x1000 = 0 → i.toNat < (k.heap.endAddress - k.heap.startAddress).toNat →
      ∃ fr, k.frameAt (k.heap.startAddress + i) = some fr ∧ fr ≠ 0)
    (hlen : k.heap.endAddress - k.heap.startAddress = heapMinSize) :
    ∃ k', k.free (b.addr + sizeofHeader) = some k' ∧ ContractedWell k segs b k' := by
  have hse := hwf.cut.le
  have hlen' : k.heap.endAddress.toNat = k.heap.startAddress.toNat + heapMinSize.toNat := by
    rw [← hlen, BitVec.toNat_sub]; omega
  obtain ⟨k', M, hk', hsame, hb', hinv'⟩ := free_least hwf hlive ha hlen
  have hfr : ∀ x, k'.frameAt x = k.frameAt x := fun x => by rw [hsame]; rfl
  have hcut' := hinv'.cut
  rw [hb'] at hcut'
  refine ⟨k', hk', ⟨fun s hs hsl hsb => ⟨?_, fun x _ _ => hfr x⟩, fun a hain => ?_, by rw [hb']; exact hea,
    by rw [hb', hlen'], fun i hia hil => ?_⟩⟩
  · rw [ha.split] at hs
    rw [hb']
    exact (hwf.cut.bounds s (by rw [ha.split]; exact hs)).2.2
  · obtain ⟨s, hs, -, rfl⟩ := mem_holes.1 (hinv'.index.mem_iff.1 hain)
    rw [hb', (hinv'.header s hs).2.2]
    exact (hcut'.bounds s hs).2.2
  · obtain ⟨fr, hfr1, hfr2⟩ := hframes i hia hil
    rw [hfr, hfr1, hb', Option.some.injEq]
    have hsum : (k.heap.startAddress + i).toNat = k.heap.startAddress.toNat + i.toNat := by
      rw [BitVec.toNat_add]; rw [hlen] at hil; omega
    rw [hlen] at hil
    exact ⟨fun h' => absurd h' hfr2, fun h' => by omega⟩

/-- **A longer heap is contracted wrongly.** -/
theorem least_of_contracted (hwf : WellFormed k.heap k.mem segs) (hlive : b.hole = false)
    (ha : Around k.mem segs b pre left right [])
    (hsa : k.heap.startAddress.toNat % 0x1000 = 0) (hea : k.heap.endAddress.toNat % 0x1000 = 0)
    (hmin : heapMinSize.toNat ≤ (k.heap.endAddress - k.heap.startAddress).toNat)
    (hframes : ∀ i : U32, i.toNat % 0x1000 = 0 → i.toNat < (k.heap.endAddress - k.heap.startAddress).toNat →
      ∃ fr, k.frameAt (k.heap.startAddress + i) = some fr ∧ fr ≠ 0)
    (hdist : ∀ i j, (k.directories k.kernel_directory).tables i ≠ 0 →
      (k.directories k.kernel_directory).tables i = (k.directories k.kernel_directory).tables j → i = j)
    (hk' : k.free (b.addr + sizeofHeader) = some k') (hc : ContractedWell k segs b k') :
    k.heap.endAddress - k.heap.startAddress = heapMinSize := by
  by_contra hne
  have hmn : heapMinSize.toNat = 0x70000 := rfl
  have hse := hwf.cut.le
  have hlen :
      (k.heap.endAddress - k.heap.startAddress).toNat = k.heap.endAddress.toNat - k.heap.startAddress.toNat := by
    rw [BitVec.toNat_sub]; omega
  have hlt : heapMinSize.toNat < (k.heap.endAddress - k.heap.startAddress).toNat :=
    Nat.lt_of_le_of_ne hmin fun he => hne (BitVec.eq_of_toNat_eq he.symm)
  have hal : (k.heap.endAddress - k.heap.startAddress).toNat % 0x1000 = 0 := by omega
  have hpos : 0x1000 ≤ (k.heap.endAddress - k.heap.startAddress).toNat := by omega
  have hinv : Inv k.heap k.mem k.heap.startAddress.toNat (pre ++ (left ++ b :: right) ++ []) := by
    rw [← ha.split]; exact hwf.toInv
  obtain ⟨f, i, m', M, hj, -, hend, hfree⟩ := free_joined_end hwf.toInv hlive ha
  have hM := hj.merged
  simp only at hM
  rw [hfree] at hk'
  obtain ⟨k₁, hk₁, hk₁'⟩ := Option.map_eq_some_iff.1 hk'
  obtain ⟨e1, e2, e3, e4, e5⟩ := Kernel.contractEnd_spec hk₁ hend hal hpos
  -- the insertion leaves all of this
  have hk'₁ : k'.heap.endAddress = k₁.heap.endAddress ∧ k'.directories = k₁.directories ∧
      k'.kernel_directory = k₁.kernel_directory ∧ k'.pageTables = k₁.pageTables := by
    rw [← hk₁']; split <;> exact ⟨rfl, rfl, rfl, rfl⟩
  simp only [hM.header] at e1 e2 e3 e4 e5
  generalize hN : Kernel.contractSize (M.addr - k.heap.startAddress) = N at e2 e5
  -- the new size is below the old one
  have hNlt : N.toNat < (k.heap.endAddress - k.heap.startAddress).toNat := by
    have hMw := hj.cut.le
    have hMs := M.room
    have hMc := (hinv.cut.around hj.cut (by simp)).2.le
    have hMl := (hinv.cut.around hj.cut (by simp)).1.le
    rcases contractSize_cases (M.addr - k.heap.startAddress) with h1 | ⟨h1, -⟩
    · rw [← hN, h1]; exact hlt
    · rw [← hN, h1, BitVec.toNat_sub]; omega
  have hend' : k'.heap.endAddress.toNat = k.heap.startAddress.toNat + N.toNat := by
    rw [hk'₁.1, e2, BitVec.toNat_add]; omega
  have haN : N.toNat % 0x1000 = 0 := by have := hc.aligned; omega
  -- the page at the new end keeps its frame
  obtain ⟨fr, hfr, hfr0⟩ := hframes N haN hNlt
  have hzero := (hc.pages N haN hNlt).2 (by rw [hend', BitVec.toNat_add]; omega)
  unfold Kernel.frameAt at hfr hzero
  obtain ⟨q, hq, hqf⟩ := Option.map_eq_some_iff.1 hfr
  have hkeep := e5 q fun j hj hja he => by
    have := eq_of_lookupPage hdist he hq (by rw [BitVec.toNat_add]; omega) (by rw [BitVec.toNat_add]; omega)
    rw [BitVec.lt_def] at hj
    bv_omega
  have hlook : k'.lookupPage (k.heap.startAddress + N) k'.kernel_directory = some q := by
    rw [← hq]
    unfold Kernel.lookupPage
    rw [hk'₁.2.1, hk'₁.2.2.1, e3, e4]
  rw [hlook, Option.map_some, Option.some.injEq] at hzero
  have hpage : k'.page q = k₁.page q := by unfold Kernel.page; rw [hk'₁.2.2.2]
  rw [hpage, hkeep] at hzero
  exact hfr0 (hqf.symm.trans hzero)

end Reach

/-- **`Free` of a block that reaches the end** contracts the heap rightly exactly when there is nothing to contract,
that is when the heap has its least length. -/
theorem contract_iff {k : Kernel} {segs : List Seg} {b : Seg} (hwf : WellFormed k.heap k.mem segs)
    (hsa : k.heap.startAddress.toNat % 0x1000 = 0) (hea : k.heap.endAddress.toNat % 0x1000 = 0)
    (hmin : heapMinSize.toNat ≤ (k.heap.endAddress - k.heap.startAddress).toNat)
    (hframes : ∀ i : U32, i.toNat % 0x1000 = 0 → i.toNat < (k.heap.endAddress - k.heap.startAddress).toNat →
      ∃ fr, k.frameAt (k.heap.startAddress + i) = some fr ∧ fr ≠ 0)
    (hdist : ∀ i j, (k.directories k.kernel_directory).tables i ≠ 0 →
      (k.directories k.kernel_directory).tables i = (k.directories k.kernel_directory).tables j → i = j)
    (hb : b ∈ segs) (hlive : b.hole = false)
    (hreach : b.addr.toNat + b.size.toNat = k.heap.endAddress.toNat ∨ ∃ R ∈ segs, R.hole = true ∧
      R.addr.toNat = b.addr.toNat + b.size.toNat ∧ R.addr.toNat + R.size.toNat = k.heap.endAddress.toNat)
    (hfirst : b.addr.toNat = k.heap.startAddress.toNat → LeftClear k.mem b.addr)
    (hlast : b.addr.toNat + b.size.toNat = k.heap.endAddress.toNat → RightClear k.mem (b.addr + b.size)) :
    (∃ k', k.free (b.addr + sizeofHeader) = some k' ∧ ContractedWell k segs b k') ↔
      k.heap.endAddress - k.heap.startAddress = heapMinSize := by
  obtain ⟨pre, left, right, ha⟩ := around_reach hwf hb hreach hfirst hlast
  constructor
  · rintro ⟨k', hk', hc⟩
    exact least_of_contracted hwf hlive ha hsa hea hmin hframes hdist hk' hc
  · exact fun hlen => contracted_of_least hwf hlive ha hea hframes hlen

/-- A kernel that maps every page to a frame, over a heap that ends at `e`. -/
def mappedHeap (e : U32) (segs : List Seg) : Kernel where
  mem := layout 0xC0000000 segs
  kheap := 1
  heap := ⟨⟨0xC0000000, BitVec.ofNat 32 (holes segs).length, heapIndexSize⟩, 0xC0080000, e, 0, false, false⟩
  placement_address := 0
  frames := ⟨0x1000, fun _ => 0xFFFFFFFF⟩
  directories := fun _ => ⟨fun i => if i < 1024 then BitVec.ofNat 32 (i + 1) else 0, fun _ => 0, 0⟩
  pageTables := fun _ _ => ⟨true, true, true, false, false, 0, 1⟩
  kernel_directory := 1
  current_directory := 1
  uninit := 0

theorem mappedHeap_frameAt (e : U32) (segs : List Seg) (x : U32) : (mappedHeap e segs).frameAt x = some 1 := by
  have hi : Kernel.tableIndex x < 1024 := by
    unfold Kernel.tableIndex
    simp [BitVec.toNat_udiv]; omega
  have ht :
      ((mappedHeap e segs).directories (mappedHeap e segs).kernel_directory).tables (Kernel.tableIndex x) ≠ 0 := by
    show (if Kernel.tableIndex x < 1024 then BitVec.ofNat 32 (Kernel.tableIndex x + 1) else 0) ≠ 0
    rw [if_pos hi]
    intro h0
    have := congrArg BitVec.toNat h0
    simp at this; omega
  unfold Kernel.frameAt Kernel.lookupPage
  simp only [if_pos ht]
  rfl

theorem mappedHeap_distinct (e : U32) (segs : List Seg) (i j : Nat)
    (hi : ((mappedHeap e segs).directories (mappedHeap e segs).kernel_directory).tables i ≠ 0)
    (hij : ((mappedHeap e segs).directories (mappedHeap e segs).kernel_directory).tables i =
      ((mappedHeap e segs).directories (mappedHeap e segs).kernel_directory).tables j) : i = j := by
  simp only [mappedHeap] at hi hij
  rw [hij] at hi
  split at hi
  · split at hij
    · have := congrArg BitVec.toNat hij
      simp at this; omega
    · rw [← hij] at hi; exact absurd rfl hi
  · exact absurd rfl hi

def lastBlock (size : U32) (h : 20 ≤ size.toNat) : Seg := ⟨0xC0080100, size, false, true, h⟩

theorem contract_least : ∃ k', (mappedHeap 0xC00F0000 [blockA, lastBlock 0x6FF00 (by decide)]).free
      ((lastBlock 0x6FF00 (by decide)).addr + sizeofHeader) = some k' ∧
    ContractedWell (mappedHeap 0xC00F0000 [blockA, lastBlock 0x6FF00 (by decide)])
      [blockA, lastBlock 0x6FF00 (by decide)] (lastBlock 0x6FF00 (by decide)) k' :=
  (contract_iff (k := mappedHeap 0xC00F0000 [blockA, lastBlock 0x6FF00 (by decide)]) (by decide +kernel)
    (by decide +kernel) (by decide +kernel) (by decide +kernel)
    (fun _ _ _ => ⟨1, mappedHeap_frameAt _ _ _, by decide⟩) (mappedHeap_distinct _ _) (by decide +kernel) rfl
    (by decide +kernel) (by decide +kernel) (by decide +kernel)).2 (by decide +kernel)

theorem contract_one_page :
    WellFormed (mappedHeap 0xC00F1000 [blockA, lastBlock 0x70F00 (by decide)]).heap
      (mappedHeap 0xC00F1000 [blockA, lastBlock 0x70F00 (by decide)]).mem [blockA, lastBlock 0x70F00 (by decide)] ∧
    (∀ x, (mappedHeap 0xC00F1000 [blockA, lastBlock 0x70F00 (by decide)]).frameAt x = some 1) ∧
    ¬ ∃ k', (mappedHeap 0xC00F1000 [blockA, lastBlock 0x70F00 (by decide)]).free
        ((lastBlock 0x70F00 (by decide)).addr + sizeofHeader) = some k' ∧
      ContractedWell (mappedHeap 0xC00F1000 [blockA, lastBlock 0x70F00 (by decide)])
        [blockA, lastBlock 0x70F00 (by decide)] (lastBlock 0x70F00 (by decide)) k' := by
  have hwf : WellFormed (mappedHeap 0xC00F1000 [blockA, lastBlock 0x70F00 (by decide)]).heap
      (mappedHeap 0xC00F1000 [blockA, lastBlock 0x70F00 (by decide)]).mem [blockA, lastBlock 0x70F00 (by decide)] := by
    decide +kernel
  refine ⟨hwf, mappedHeap_frameAt _ _, fun ⟨k', hk', hc⟩ => ?_⟩
  obtain ⟨pre, left, right, ha⟩ := around_reach (b := lastBlock 0x70F00 (by decide)) hwf (by decide +kernel)
    (by decide +kernel) (by decide +kernel) (by decide +kernel)
  exact absurd (least_of_contracted hwf rfl ha (by decide +kernel) (by decide +kernel) (by decide +kernel)
    (fun _ _ _ => ⟨1, mappedHeap_frameAt _ _ _, by decide⟩) (mappedHeap_distinct _ _) hk' hc) (by decide +kernel)

end Loris
