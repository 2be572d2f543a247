import Loris.Heap
import Loris.Cut
/-!
# Segments — the heap as a cut into segments

A segment is a header, a body and a footer; it is a hole or a live block.  `tied` records that the footer points back
to the header: `Free` can leave a hole whose footer does not.  `Marks` is what memory and index say about a collection
of segments, `Inv` adds that they cut the heap from `base` to `m_endAddress`, and `WellFormed` that every footer is
tied and the cut starts at `m_startAddress`.  The rules for `Marks` (keep, add, remove, replace, drop) are what the
proofs about `Alloc` and `Free` use.
-/
namespace Loris

open ByteMem Cut

structure Seg where
  addr : U32
  size : U32
  hole : Bool
  tied : Bool
  room : 20 ≤ size.toNat
  deriving DecidableEq

instance : Piece Seg := ⟨fun s => s.addr.toNat, fun s => s.size.toNat⟩

@[simp] theorem Seg.start_eq (s : Seg) : start s = s.addr.toNat := rfl
@[simp] theorem Seg.len_eq (s : Seg) : len s = s.size.toNat := rfl

theorem Seg.ext_of {s t : Seg} (ha : s.addr = t.addr) (hs : s.size = t.size) (hh : s.hole = t.hole)
    (ht : s.tied = t.tied) : s = t := by
  cases s; cases t; simp_all

def Seg.footer (s : Seg) : U32 := s.addr + s.size - sizeofFooter

def HeaderAt (m : Mem) (s : Seg) : Prop :=
  headerMagic m s.addr = heapMagic ∧ isHole m s.addr = s.hole ∧ headerSize m s.addr = s.size

def FooterAt (m : Mem) (s : Seg) : Prop := footerMagic m s.footer = heapMagic ∧ footerHeader m s.footer = s.addr

instance (m : Mem) (s : Seg) : Decidable (HeaderAt m s) := by unfold HeaderAt; infer_instance

instance (m : Mem) (s : Seg) : Decidable (FooterAt m s) := by unfold FooterAt; infer_instance

/-- The headers of the holes, in address order. -/
def holes (segs : List Seg) : List U32 := (segs.filter (·.hole)).map (·.addr)

@[simp] theorem holes_nil : holes [] = [] := rfl

@[simp] theorem holes_append (l r : List Seg) : holes (l ++ r) = holes l ++ holes r := by simp [holes]

theorem holes_cons_hole {s : Seg} (h : s.hole = true) (l : List Seg) : holes (s :: l) = s.addr :: holes l := by
  simp [holes, h]

theorem holes_cons_live {s : Seg} (h : s.hole = false) (l : List Seg) : holes (s :: l) = holes l := by
  simp [holes, h]

theorem holes_perm {l r : List Seg} (h : l.Perm r) : (holes l).Perm (holes r) := (h.filter _).map _

theorem mem_holes {a : U32} {l : List Seg} : a ∈ holes l ↔ ∃ s ∈ l, s.hole = true ∧ s.addr = a := by
  simp [holes, and_assoc]

/-! ## Headers and footers in memory -/

theorem toNat_add_four {a : U32} (h : a.toNat + 8 ≤ 2 ^ 32) : (a + 4).toNat = a.toNat + 4 := by
  rw [BitVec.toNat_add]; simp; omega

theorem toNat_add_eight {a : U32} (h : a.toNat + 12 ≤ 2 ^ 32) : (a + 8).toNat = a.toNat + 8 := by
  rw [BitVec.toNat_add]; simp; omega

theorem keeps_setHeaderSize (m : Mem) (a v : U32) (h : a.toNat + 12 ≤ 2 ^ 32) :
    Keeps a.toNat (a.toNat + 12) m (setHeaderSize m a v) := by
  have e8 := toNat_add_eight h
  exact (keeps_store m (a + 8) v (by omega)).mono (by omega) (by omega)

theorem keeps_setIsHole (m : Mem) (a : U32) (b : Bool) (h : a.toNat + 12 ≤ 2 ^ 32) :
    Keeps a.toNat (a.toNat + 12) m (setIsHole m a b) := by
  have e4 := toNat_add_four (a := a) (by omega)
  exact (keeps_storeByte m (a + 4) _).mono (by omega) (by omega)

theorem keeps_setFooterHeader (m : Mem) (f v : U32) (h : f.toNat + 8 ≤ 2 ^ 32) :
    Keeps f.toNat (f.toNat + 8) m (setFooterHeader m f v) := by
  have e4 := toNat_add_four h
  exact (keeps_store m (f + 4) v (by omega)).mono (by omega) (by omega)

theorem keeps_writeHeader (m : Mem) (a : U32) (b : Bool) (v : U32) (h : a.toNat + 12 ≤ 2 ^ 32) :
    Keeps a.toNat (a.toNat + 12) m (writeHeader m a b v) :=
  (((keeps_store m a heapMagic (by omega)).mono (by omega) (by omega)).trans (keeps_setIsHole _ a b h)).trans
    (keeps_setHeaderSize _ a v h)

theorem keeps_writeFooter (m : Mem) (f v : U32) (h : f.toNat + 8 ≤ 2 ^ 32) :
    Keeps f.toNat (f.toNat + 8) m (writeFooter m f v) :=
  ((keeps_store m f heapMagic (by omega)).mono (by omega) (by omega)).trans (keeps_setFooterHeader _ f v h)

section Fields

variable {m m' : Mem} {lo hi : Nat} {a : U32}

theorem headerMagic_keep (hk : Keeps lo hi m m') (hw : a.toNat + 12 ≤ 2 ^ 32)
    (ha : a.toNat + 12 ≤ lo ∨ hi ≤ a.toNat) : headerMagic m' a = headerMagic m a :=
  hk.load_eq (by omega) (by omega)

theorem isHole_keep (hk : Keeps lo hi m m') (hw : a.toNat + 12 ≤ 2 ^ 32)
    (ha : a.toNat + 12 ≤ lo ∨ hi ≤ a.toNat) : isHole m' a = isHole m a := by
  have e4 := toNat_add_four (a := a) (by omega)
  unfold isHole
  rw [hk (a + 4) (by omega)]

theorem headerSize_keep (hk : Keeps lo hi m m') (hw : a.toNat + 12 ≤ 2 ^ 32)
    (ha : a.toNat + 12 ≤ lo ∨ hi ≤ a.toNat) : headerSize m' a = headerSize m a := by
  have e8 := toNat_add_eight hw
  exact hk.load_eq (by omega) (by omega)

theorem footerMagic_keep (hk : Keeps lo hi m m') (hw : a.toNat + 8 ≤ 2 ^ 32)
    (ha : a.toNat + 8 ≤ lo ∨ hi ≤ a.toNat) : footerMagic m' a = footerMagic m a :=
  hk.load_eq (by omega) (by omega)

theorem footerHeader_keep (hk : Keeps lo hi m m') (hw : a.toNat + 8 ≤ 2 ^ 32)
    (ha : a.toNat + 8 ≤ lo ∨ hi ≤ a.toNat) : footerHeader m' a = footerHeader m a := by
  have e4 := toNat_add_four hw
  exact hk.load_eq (by omega) (by omega)

@[simp] theorem isHole_setIsHole (m : Mem) (a : U32) (b : Bool) : isHole (setIsHole m a b) a = b := by
  unfold isHole setIsHole; cases b <;> simp

@[simp] theorem headerSize_setHeaderSize (m : Mem) (a v : U32) : headerSize (setHeaderSize m a v) a = v := by
  simp [headerSize, setHeaderSize]

@[simp] theorem headerSize_writeHeader (m : Mem) (a : U32) (b : Bool) (v : U32) :
    headerSize (writeHeader m a b v) a = v := by simp [writeHeader]

theorem headerMagic_setHeaderSize (m : Mem) (v : U32) (h : a.toNat + 12 ≤ 2 ^ 32) :
    headerMagic (setHeaderSize m a v) a = headerMagic m a := by
  have e8 := toNat_add_eight h
  exact (keeps_store m (a + 8) v (by omega)).load_eq (by omega) (by omega)

theorem isHole_setHeaderSize (m : Mem) (v : U32) (h : a.toNat + 12 ≤ 2 ^ 32) :
    isHole (setHeaderSize m a v) a = isHole m a := by
  have e4 := toNat_add_four (a := a) (by omega)
  have e8 := toNat_add_eight h
  unfold isHole setHeaderSize
  rw [keeps_store m (a + 8) v (by omega) (a + 4) (by omega)]

theorem headerMagic_setIsHole (m : Mem) (b : Bool) (h : a.toNat + 12 ≤ 2 ^ 32) :
    headerMagic (setIsHole m a b) a = headerMagic m a := by
  have e4 := toNat_add_four (a := a) (by omega)
  exact (keeps_storeByte m (a + 4) _).load_eq (by omega) (by omega)

theorem headerSize_setIsHole (m : Mem) (b : Bool) (h : a.toNat + 12 ≤ 2 ^ 32) :
    headerSize (setIsHole m a b) a = headerSize m a := by
  have e4 := toNat_add_four (a := a) (by omega)
  have e8 := toNat_add_eight h
  exact (keeps_storeByte m (a + 4) _).load_eq (by omega) (by omega)

theorem headerMagic_writeHeader (m : Mem) (b : Bool) (v : U32) (h : a.toNat + 12 ≤ 2 ^ 32) :
    headerMagic (writeHeader m a b v) a = heapMagic := by
  rw [writeHeader, headerMagic_setHeaderSize _ _ h, headerMagic_setIsHole _ _ h]
  exact load_store_same m a heapMagic

theorem isHole_writeHeader (m : Mem) (b : Bool) (v : U32) (h : a.toNat + 12 ≤ 2 ^ 32) :
    isHole (writeHeader m a b v) a = b := by
  rw [writeHeader, isHole_setHeaderSize _ _ h, isHole_setIsHole]

theorem footerMagic_setFooterHeader (m : Mem) (v : U32) (h : a.toNat + 8 ≤ 2 ^ 32) :
    footerMagic (setFooterHeader m a v) a = footerMagic m a := by
  have e4 := toNat_add_four h
  exact (keeps_store m (a + 4) v (by omega)).load_eq (by omega) (by omega)

@[simp] theorem footerHeader_setFooterHeader (m : Mem) (f v : U32) : footerHeader (setFooterHeader m f v) f = v := by
  simp [footerHeader, setFooterHeader]

theorem footerMagic_writeFooter (m : Mem) (v : U32) (h : a.toNat + 8 ≤ 2 ^ 32) :
    footerMagic (writeFooter m a v) a = heapMagic := by
  rw [writeFooter, footerMagic_setFooterHeader _ _ h]
  exact load_store_same m a heapMagic

@[simp] theorem footerHeader_writeFooter (m : Mem) (f v : U32) : footerHeader (writeFooter m f v) f = v := by
  simp [writeFooter]

end Fields

theorem Seg.toNat_footer {s : Seg} (h : s.addr.toNat + s.size.toNat < 2 ^ 32) :
    s.footer.toNat = s.addr.toNat + s.size.toNat - 8 := by
  have := s.room
  unfold Seg.footer sizeofFooter
  bv_omega

theorem HeaderAt.keep {m m' : Mem} {lo hi : Nat} {s : Seg} (h : HeaderAt m s) (hk : Keeps lo hi m m')
    (hw : s.addr.toNat + s.size.toNat < 2 ^ 32) (ha : s.addr.toNat + 12 ≤ lo ∨ hi ≤ s.addr.toNat) : HeaderAt m' s := by
  have := s.room
  exact ⟨(headerMagic_keep hk (by omega) ha).trans h.1, (isHole_keep hk (by omega) ha).trans h.2.1,
    (headerSize_keep hk (by omega) ha).trans h.2.2⟩

theorem FooterAt.keep {m m' : Mem} {lo hi : Nat} {s : Seg} (h : FooterAt m s) (hk : Keeps lo hi m m')
    (hw : s.addr.toNat + s.size.toNat < 2 ^ 32)
    (ha : s.addr.toNat + s.size.toNat ≤ lo ∨ hi ≤ s.addr.toNat + s.size.toNat - 8) : FooterAt m' s := by
  have := s.room
  have e := Seg.toNat_footer hw
  exact ⟨(footerMagic_keep hk (by omega) (by omega)).trans h.1, (footerHeader_keep hk (by omega) (by omega)).trans h.2⟩

theorem headerAt_writeHeader (m : Mem) (s : Seg) (hw : s.addr.toNat + s.size.toNat < 2 ^ 32) :
    HeaderAt (writeHeader m s.addr s.hole s.size) s := by
  have := s.room
  exact ⟨headerMagic_writeHeader m _ _ (by omega), isHole_writeHeader m _ _ (by omega), headerSize_writeHeader m _ _ _⟩

theorem footerAt_writeFooter (m : Mem) (s : Seg) (hw : s.addr.toNat + s.size.toNat < 2 ^ 32) :
    FooterAt (writeFooter m s.footer s.addr) s := by
  have := s.room
  have e := Seg.toNat_footer hw
  exact ⟨footerMagic_writeFooter m _ (by omega), footerHeader_writeFooter m _ _⟩

/-! ## Marks -/

/-- **What memory says about a collection of segments** at or above `base`. -/
structure Body (m : Mem) (base : Nat) (segs : List Seg) : Prop where
  within : ∀ s ∈ segs, base ≤ s.addr.toNat ∧ s.addr.toNat + s.size.toNat < 2 ^ 32
  header : ∀ s ∈ segs, HeaderAt m s
  footer : ∀ s ∈ segs, s.tied = true → FooterAt m s
  live : ∀ s ∈ segs, s.hole = false → s.tied = true

namespace Body

variable {m m' : Mem} {base : Nat} {l r : List Seg} {s : Seg}

theorem sub (hb : Body m base l) (hr : ∀ s ∈ r, s ∈ l) : Body m base r :=
  ⟨fun s hs => hb.within s (hr s hs), fun s hs => hb.header s (hr s hs), fun s hs => hb.footer s (hr s hs),
    fun s hs => hb.live s (hr s hs)⟩

/-- **A change apart from the segments keeps what memory says about them.** -/
theorem keep {lo hi : Nat} (hb : Body m base l) (hk : Keeps lo hi m m')
    (ha : ∀ s ∈ l, s.addr.toNat + s.size.toNat ≤ lo ∨ hi ≤ s.addr.toNat) : Body m' base l := by
  refine ⟨hb.within, fun s hs => ?_, fun s hs ht => ?_, hb.live⟩
  · have := s.room
    exact (hb.header s hs).keep hk (hb.within s hs).2 (by have := ha s hs; omega)
  · have := s.room
    exact (hb.footer s hs ht).keep hk (hb.within s hs).2 (by have := ha s hs; omega)

theorem cons (hb : Body m base l) (hw : base ≤ s.addr.toNat ∧ s.addr.toNat + s.size.toNat < 2 ^ 32)
    (hh : HeaderAt m s) (hf : s.tied = true → FooterAt m s) (hl : s.hole = false → s.tied = true) :
    Body m base (s :: l) :=
  ⟨List.forall_mem_cons.2 ⟨hw, hb.within⟩, List.forall_mem_cons.2 ⟨hh, hb.header⟩,
    List.forall_mem_cons.2 ⟨hf, hb.footer⟩, List.forall_mem_cons.2 ⟨hl, hb.live⟩⟩

end Body

/-- **What memory and index say about a collection of segments**: the index, which lies below `base`, lists the
headers of its holes. -/
structure Marks (h : Heap) (m : Mem) (base : Nat) (segs : List Seg) : Prop extends Body m base segs where
  index : (h.index.items m).Perm (holes segs)
  size : h.index.size.toNat ≤ heapIndexSize.toNat
  cap : h.index.maxSize = heapIndexSize
  below : h.index.elements.toNat + 4 * heapIndexSize.toNat ≤ base
  low : base + 4 ≤ 2 ^ 32

namespace Marks

variable {h : Heap} {m m' : Mem} {base : Nat} {l r : List Seg} {s t : Seg}

theorem perm (hm : Marks h m base l) (hp : l.Perm r) : Marks h m base r :=
  ⟨hm.toBody.sub fun _ hs => hp.mem_iff.2 hs, hm.index.trans (holes_perm hp), hm.size, hm.cap, hm.below, hm.low⟩

theorem slots (hm : Marks h m base l) : h.index.elements.toNat + 4 * (h.index.size.toNat + 1) ≤ 2 ^ 32 := by
  have h1 := hm.below
  have h2 := hm.size
  have h3 := hm.low
  omega

theorem length_holes (hm : Marks h m base l) : (holes l).length = h.index.size.toNat := by
  rw [← hm.index.length_eq, OrderedList.length_items]

theorem size_le (hm : Marks h m base l) : h.index.size.toNat ≤ l.length := by
  rw [← hm.length_holes, holes, List.length_map]
  exact List.length_filter_le _ _

/-- **A change apart from the segments and not below the heap keeps the marks.** -/
theorem keep {lo hi : Nat} (hm : Marks h m base l) (hk : Keeps lo hi m m') (hlo : base ≤ lo)
    (ha : ∀ s ∈ l, s.addr.toNat + s.size.toNat ≤ lo ∨ hi ≤ s.addr.toNat) : Marks h m' base l := by
  have h1 := hm.below
  have h2 := hm.size
  refine ⟨hm.toBody.keep hk ha, ?_, h2, hm.cap, h1, hm.low⟩
  rw [OrderedList.items_congr (by have := hm.low; omega) hk (.inl (by omega))]
  exact hm.index

theorem addLive (hm : Marks h m base l) (hw : base ≤ s.addr.toNat ∧ s.addr.toNat + s.size.toNat < 2 ^ 32)
    (hh : HeaderAt m s) (hf : FooterAt m s) (hl : s.hole = false) (ht : s.tied = true) : Marks h m base (s :: l) :=
  ⟨hm.toBody.cons hw hh (fun _ => hf) (fun _ => ht), by rw [holes_cons_live hl]; exact hm.index, hm.size, hm.cap,
    hm.below, hm.low⟩

theorem dropLive (hm : Marks h m base (s :: l)) (hl : s.hole = false) : Marks h m base l :=
  ⟨hm.toBody.sub fun _ ht => List.mem_cons_of_mem _ ht, by rw [← holes_cons_live hl]; exact hm.index, hm.size, hm.cap,
    hm.below, hm.low⟩

/-- **`Insert` of a new hole's header adds it.** -/
theorem addHole (hm : Marks h m base l) (lessThan : U32 → U32 → Bool)
    (hw : base ≤ s.addr.toNat ∧ s.addr.toNat + s.size.toNat < 2 ^ 32) (hh : HeaderAt m s)
    (hf : s.tied = true → FooterAt m s) (hl : s.hole = true) (hroom : h.index.size.toNat < heapIndexSize.toNat) :
    Marks { h with index := (h.index.insert lessThan m s.addr).1 } (h.index.insert lessThan m s.addr).2 base
      (s :: l) := by
  have hk := OrderedList.keeps_insert (l := h.index) lessThan m s.addr (c := heapIndexSize.toNat)
    (by have := hm.below; have := hm.low; omega) hroom
  have hb := (hm.toBody.cons hw hh hf fun h' => by rw [hl] at h'; cases h').keep (hk.mono (Nat.le_refl _) hm.below)
    fun t ht => .inr (by
      rcases List.mem_cons.1 ht with rfl | ht
      · exact hw.1
      · exact (hm.within t ht).1)
  refine ⟨hb, ?_, ?_, ?_, ?_, hm.low⟩
  · rw [holes_cons_hole hl]
    exact (OrderedList.perm_insert lessThan m s.addr hm.slots).trans (hm.index.cons _)
  · simp only [OrderedList.insert_fst]
    have : heapIndexSize.toNat = 0x20000 := rfl
    rw [BitVec.toNat_add]
    simp only [BitVec.ofNat_eq_ofNat, BitVec.toNat_ofNat]
    omega
  · simp only [OrderedList.insert_fst]; exact hm.cap
  · simp only [OrderedList.insert_fst]; exact hm.below

/-- **`Remove` at a hole's position drops it.** -/
theorem removeHole {i : Nat} (hm : Marks h m base (s :: l)) (hl : s.hole = true) (hi : i < h.index.size.toNat)
    (hs : h.index.getItemAtIndex m i = s.addr) :
    Marks { h with index := (h.index.remove m i).1 } (h.index.remove m i).2 base l := by
  have hk := OrderedList.keeps_remove (l := h.index) m (i := i) (c := heapIndexSize.toNat)
    (by have := hm.below; have := hm.low; omega) hm.size (by omega)
  have hb := (hm.toBody.sub (r := l) fun _ ht => List.mem_cons_of_mem _ ht).keep
    (hk.mono (Nat.le_refl _) hm.below) fun t ht => .inr (hm.within t (List.mem_cons_of_mem _ ht)).1
  have hsz : (h.index.size - 1).toNat = h.index.size.toNat - 1 := by rw [BitVec.toNat_sub]; simp; omega
  refine ⟨hb, ?_, ?_, hm.cap, hm.below, hm.low⟩
  · have hp := (OrderedList.perm_remove m hi hm.slots).trans hm.index
    rw [hs, holes_cons_hole hl] at hp
    exact hp.cons_inv
  · show (h.index.size - 1).toNat ≤ _
    have := hm.size; omega

/-- **A hole may be rewritten in place**: the index goes on listing its header. -/
theorem replaceHole {lo hi : Nat} (hm : Marks h m base (s :: l)) (hk : Keeps lo hi m m') (hlo : base ≤ lo)
    (ha : ∀ u ∈ l, u.addr.toNat + u.size.toNat ≤ lo ∨ hi ≤ u.addr.toNat)
    (hw : base ≤ t.addr.toNat ∧ t.addr.toNat + t.size.toNat < 2 ^ 32) (hh : HeaderAt m' t)
    (hf : t.tied = true → FooterAt m' t) (hs : s.hole = true) (ht : t.hole = true) (hst : t.addr = s.addr) :
    Marks h m' base (t :: l) := by
  have h1 := hm.below
  have h2 := hm.size
  have hb := ((hm.toBody.sub (r := l) fun _ hu => List.mem_cons_of_mem _ hu).keep hk ha).cons hw hh hf
    fun h' => by rw [ht] at h'; cases h'
  refine ⟨hb, ?_, h2, hm.cap, h1, hm.low⟩
  rw [OrderedList.items_congr (by have := hm.low; omega) hk (.inl (by omega)), holes_cons_hole ht, hst,
    ← holes_cons_hole hs]
  exact hm.index

theorem hole_at {i : Nat} (hm : Marks h m base l) (hi : i < h.index.size.toNat) :
    ∃ s ∈ l, s.hole = true ∧ s.addr = h.index.getItemAtIndex m i := by
  rw [← mem_holes]
  apply hm.index.mem_iff.1
  rw [← OrderedList.getElem_items h.index m (by rw [OrderedList.length_items]; exact hi)]
  exact List.getElem_mem _

theorem index_of (hm : Marks h m base l) (hs : s ∈ l) (hl : s.hole = true) :
    ∃ i, i < h.index.size.toNat ∧ h.index.getItemAtIndex m i = s.addr := by
  have := hm.index.mem_iff.2 (mem_holes.2 ⟨s, hs, hl, rfl⟩)
  obtain ⟨i, hi, he⟩ := List.mem_iff_getElem.1 this
  rw [OrderedList.getElem_items] at he
  exact ⟨i, by rwa [OrderedList.length_items] at hi, he⟩

end Marks

/-! ## The invariant -/

/-- **The heap from `base` to `m_endAddress` is cut into segments**, which memory and index describe. -/
structure Inv (h : Heap) (m : Mem) (base : Nat) (segs : List Seg) : Prop extends Marks h m base segs where
  cut : Cuts base h.endAddress.toNat segs

/-- **A well-formed heap**: cut into segments from `m_startAddress` to `m_endAddress`, every footer pointing back to
its header, the index listing exactly the holes. -/
structure WellFormed (h : Heap) (m : Mem) (segs : List Seg) : Prop extends Inv h m h.startAddress.toNat segs where
  tied : ∀ s ∈ segs, s.tied = true

instance (m : Mem) (base : Nat) (segs : List Seg) : Decidable (Body m base segs) :=
  decidable_of_iff ((∀ s ∈ segs, base ≤ s.addr.toNat ∧ s.addr.toNat + s.size.toNat < 2 ^ 32) ∧
    (∀ s ∈ segs, HeaderAt m s) ∧ (∀ s ∈ segs, s.tied = true → FooterAt m s) ∧
    ∀ s ∈ segs, s.hole = false → s.tied = true)
    ⟨fun ⟨h1, h2, h3, h4⟩ => ⟨h1, h2, h3, h4⟩, fun h => ⟨h.within, h.header, h.footer, h.live⟩⟩

instance (h : Heap) (m : Mem) (base : Nat) (segs : List Seg) : Decidable (Marks h m base segs) :=
  decidable_of_iff (Body m base segs ∧ (h.index.items m).Perm (holes segs) ∧
    h.index.size.toNat ≤ heapIndexSize.toNat ∧ h.index.maxSize = heapIndexSize ∧
    h.index.elements.toNat + 4 * heapIndexSize.toNat ≤ base ∧ base + 4 ≤ 2 ^ 32)
    ⟨fun ⟨h1, h2, h3, h4, h5, h6⟩ => ⟨h1, h2, h3, h4, h5, h6⟩,
      fun h => ⟨h.toBody, h.index, h.size, h.cap, h.below, h.low⟩⟩

instance (h : Heap) (m : Mem) (base : Nat) (segs : List Seg) : Decidable (Inv h m base segs) :=
  decidable_of_iff (Marks h m base segs ∧ Cuts base h.endAddress.toNat segs)
    ⟨fun ⟨h1, h2⟩ => ⟨h1, h2⟩, fun h => ⟨h.toMarks, h.cut⟩⟩

instance (h : Heap) (m : Mem) (segs : List Seg) : Decidable (WellFormed h m segs) :=
  decidable_of_iff (Inv h m h.startAddress.toNat segs ∧ ∀ s ∈ segs, s.tied = true)
    ⟨fun ⟨h1, h2⟩ => ⟨h1, h2⟩, fun h => ⟨h.toInv, h.tied⟩⟩

/-! ## A memory for a list of segments -/

def writeSegs : Mem → List Seg → Mem
  | m, [] => m
  | m, s :: segs => writeSegs (writeFooter (writeHeader m s.addr s.hole s.size) s.footer s.addr) segs

def writeSlots : Mem → U32 → List U32 → Mem
  | m, _, [] => m
  | m, slot, a :: l => writeSlots (store m slot a) (slot + 4) l

/-- The zero memory with the headers and footers of `segs`, and their holes in the slots from `elements` on. -/
def layout (elements : U32) (segs : List Seg) : Mem :=
  writeSlots (writeSegs (fun _ => 0) segs) elements (holes segs)

theorem keeps_writeSegs : ∀ {a b : Nat} {segs : List Seg} (m : Mem), Cuts a b segs → b < 2 ^ 32 →
    Keeps a b m (writeSegs m segs)
  | a, b, [], m, _, _ => Keeps.refl a b m
  | a, b, s :: segs, m, ⟨h1, h2, h3⟩, hb => by
    have hr := s.room
    have hle := h3.le
    simp only [Seg.start_eq, Seg.len_eq] at h1 hle
    have hf := Seg.toNat_footer (s := s) (by omega)
    have hk1 := keeps_writeHeader m s.addr s.hole s.size (by omega)
    have hk2 := keeps_writeFooter (writeHeader m s.addr s.hole s.size) s.footer s.addr (by omega)
    exact ((hk1.mono (by omega) (by omega)).trans (hk2.mono (by omega) (by omega))).trans
      ((keeps_writeSegs _ h3 hb).mono (by simp only [Seg.len_eq]; omega) (Nat.le_refl b))

theorem keeps_writeSlots : ∀ (m : Mem) (slot : U32) (l : List U32), slot.toNat + 4 * l.length < 2 ^ 32 →
    Keeps slot.toNat (slot.toNat + 4 * l.length) m (writeSlots m slot l)
  | m, slot, [], _ => Keeps.refl _ _ m
  | m, slot, a :: l, h => by
    rw [List.length_cons] at h ⊢
    have hs : (slot + 4).toNat = slot.toNat + 4 := by rw [BitVec.toNat_add]; simp; omega
    exact ((keeps_store m slot a (by omega)).mono (Nat.le_refl _) (by omega)).trans
      ((keeps_writeSlots _ (slot + 4) l (by omega)).mono (by omega) (by omega))

theorem load_layout {elements a : U32} {segs : List Seg} {b e : Nat} (hc : Cuts b e segs) (he : e < 2 ^ 32)
    (hlo : elements.toNat + 4 * (holes segs).length ≤ a.toNat) (hhi : a.toNat + 4 ≤ b) :
    load (layout elements segs) a = 0 := by
  have hle := hc.le
  unfold layout
  rw [(keeps_writeSlots _ elements (holes segs) (by omega)).load_eq (by omega) (.inr hlo),
    (keeps_writeSegs _ hc he).load_eq (by omega) (.inl hhi)]
  rfl

theorem Inv.seg_eq {h : Heap} {m : Mem} {base : Nat} {segs : List Seg} (hi : Inv h m base segs) {s t : Seg}
    (hs : s ∈ segs) (ht : t ∈ segs) (he : s.addr = t.addr) : s = t :=
  hi.cut.eq_of_start hs ht (by simp [he])

/-- **Memory determines the segments**: two well-formed readings of one heap are one. -/
theorem WellFormed.unique {h : Heap} {m : Mem} {l r : List Seg} (hl : WellFormed h m l) (hr : WellFormed h m r) :
    l = r :=
  hl.cut.unique hr.cut fun s hs t ht he => by
    have ha : s.addr = t.addr := BitVec.eq_of_toNat_eq he
    have h1 := hl.header s hs
    have h2 := hr.header t ht
    unfold HeaderAt at h2
    rw [← ha] at h2
    exact Seg.ext_of ha (h1.2.2.symm.trans h2.2.2) (h1.2.1.symm.trans h2.2.1)
      ((hl.tied s hs).trans (hr.tied t ht).symm)

end Loris
