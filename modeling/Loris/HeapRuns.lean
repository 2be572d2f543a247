import Loris.HeapSteps
import Loris.Runs
/-!
# HeapRuns — a heap from its constructor on

Runs of `Alloc`, of `Free` of live pointers and of writes by the callers into their own payloads.  `Safe` is what a user
of the heap relies on; it is kept along every run whose calls are sound (`heap_safe`).  The constructor stores `max` in
`m_startAddress`, so that the bounds the heap is to have fail from the start (`heap_bounds_never`).
-/
namespace Loris

open ByteMem Cut Runs

/-- `*kheap = Heap(start, end_addr, max, ..)`. -/
def Kernel.construct (k : Kernel) (start end_addr max : U32) : Kernel :=
  let r := Heap.new k.mem k.heap start end_addr max
  { k with heap := r.1, mem := r.2 }

/-- The kernel, and the live pointers with the sizes they were requested with. -/
structure HeapState where
  kernel : Kernel
  live : List (U32 × U32)

inductive HeapOp where
  | alloc (size : U32) (page_align : Bool)
  | free (p : U32)
  | write (address : U32) (v : Byte)

/-- `a` and `m` bytes from there are apart from `b` and `n` bytes from there. -/
def Apart (a m b n : Nat) : Prop := a + m ≤ b ∨ b + n ≤ a

instance (a m b n : Nat) : Decidable (Apart a m b n) := by unfold Apart; infer_instance

namespace HeapState

/-- One call that returns, or one write by a caller into the payload of a live block. -/
def Step (s : HeapState) : HeapOp → HeapState → Prop
  | .alloc size page_align, t => size.toNat + 20 < 2 ^ 32 ∧ ∃ fuel p k',
      Kernel.alloc fuel s.kernel size page_align = some (p, k') ∧ t = ⟨k', (p, size) :: s.live⟩
  | .free p, t => (∃ n, (p, n) ∈ s.live) ∧ ∃ k', s.kernel.free p = some k' ∧ t = ⟨k', s.live.filter (·.1 != p)⟩
  | .write address v, t =>
      (∃ b ∈ s.live, b.1.toNat ≤ address.toNat ∧ address.toNat < b.1.toNat + b.2.toNat) ∧
        t = { s with kernel := { s.kernel with mem := storeByte s.kernel.mem address v } }

/-- The state after a call of `Alloc` that finds its hole. -/
def allocated (s : HeapState) (i : Nat) (size : U32) (page_align : Bool) : HeapState :=
  let r := s.kernel.heap.allocAt s.kernel.mem i size page_align
  ⟨{ s.kernel with heap := r.2.1, mem := r.2.2 }, (r.1, size) :: s.live⟩

theorem step_alloc {s t : HeapState} {size : U32} {al : Bool} {i : Nat} (hsize : size.toNat + 20 < 2 ^ 32)
    (hf : s.kernel.heap.findSmallestHole s.kernel.mem (size + sizeofHeader + sizeofFooter) al = some i) :
    s.Step (.alloc size al) t ↔ t = s.allocated i size al := by
  constructor
  · rintro ⟨-, fuel, p, k', ha, rfl⟩
    obtain ⟨rfl, rfl⟩ := Kernel.alloc_found hf ha
    rfl
  · rintro rfl
    exact ⟨hsize, 1, _, _, Kernel.alloc_of_found 0 hf, rfl⟩

theorem step_free {s t : HeapState} {p n : U32} {k' : Kernel} (hp : (p, n) ∈ s.live)
    (hk : s.kernel.free p = some k') : s.Step (.free p) t ↔ t = ⟨k', s.live.filter (·.1 != p)⟩ := by
  constructor
  · rintro ⟨-, k'', hk', rfl⟩
    rw [Option.some.inj (hk'.symm.trans hk)]
  · rintro rfl
    exact ⟨⟨n, hp⟩, k', hk, rfl⟩

/-- Where the footer of the header at `header` is. -/
def footerOf (s : HeapState) (header : U32) : U32 := header + headerSize s.kernel.mem header - sizeofFooter

/-- **Heap safety at a moment**: the payloads are apart from each other, from every header and footer and from the
index, and lie below `m_endAddress`. -/
structure Safe (s : HeapState) : Prop where
  disjoint : s.live.Pairwise fun b c => Apart b.1.toNat b.2.toNat c.1.toNat c.2.toNat
  blocks : ∀ b ∈ s.live, ∀ c ∈ s.live, Apart b.1.toNat b.2.toNat (c.1 - sizeofHeader).toNat 12 ∧
    Apart b.1.toNat b.2.toNat (s.footerOf (c.1 - sizeofHeader)).toNat 8
  holes : ∀ b ∈ s.live, ∀ i, i < s.kernel.heap.index.size.toNat →
    Apart b.1.toNat b.2.toNat (s.kernel.heap.index.getItemAtIndex s.kernel.mem i).toNat 12 ∧
    Apart b.1.toNat b.2.toNat (s.footerOf (s.kernel.heap.index.getItemAtIndex s.kernel.mem i)).toNat 8
  index : ∀ b ∈ s.live,
    Apart b.1.toNat b.2.toNat s.kernel.heap.index.elements.toNat (4 * heapIndexSize.toNat)
  below : ∀ b ∈ s.live, b.1.toNat + b.2.toNat ≤ s.kernel.heap.endAddress.toNat

/-- **The call changes no payload**: the bytes of a block that is live before and after it are as they were. -/
def Kept (s : HeapState) : HeapOp → HeapState → Prop
  | .write _ _, _ => True
  | _, t => ∀ b ∈ s.live, b ∈ t.live → ∀ x : U32, b.1.toNat ≤ x.toNat → x.toNat < b.1.toNat + b.2.toNat →
      t.kernel.mem x = s.kernel.mem x

/-- **The call is sound in the state it is made in.** -/
def Sound (s : HeapState) : HeapOp → Prop
  | .alloc size page_align => s.kernel.AllocSound size page_align
  | .free p => s.kernel.FreeSound p
  | .write _ _ => True

/-- The segment that a live pointer is the payload of. -/
def Holds (b : U32 × U32) (g : Seg) : Prop :=
  g.hole = false ∧ b.1 = g.addr + sizeofHeader ∧ b.2.toNat + 20 ≤ g.size.toNat

/-- **The heap from `base` on is cut into segments**, and each live pointer is the payload of one of its own. -/
structure Tiled (s : HeapState) (base : Nat) (segs : List Seg) : Prop where
  inv : Inv s.kernel.heap s.kernel.mem base segs
  live : ∀ b ∈ s.live, ∃ g ∈ segs, Holds b g
  distinct : s.live.Pairwise fun b c => b.1 ≠ c.1

variable {s t : HeapState} {base : Nat} {segs : List Seg}

section Safety

variable {b c : U32 × U32} {g g' : Seg}

theorem Holds.ptr (h : Holds b g) (hw : g.addr.toNat + g.size.toNat < 2 ^ 32) : b.1.toNat = g.addr.toNat + 12 := by
  have := g.room
  rw [h.2.1, BitVec.toNat_add, show sizeofHeader.toNat = 12 from rfl]; omega

theorem Holds.header (h : Holds b g) : b.1 - sizeofHeader = g.addr := by rw [h.2.1]; unfold sizeofHeader; bv_omega

/-- The header and footer of one's own segment, and of any other, are apart from one's payload. -/
theorem Tiled.apart_marks (ht : Tiled s base segs) (hg : g ∈ segs) (hb : Holds b g) (hg' : g' ∈ segs) :
    Apart b.1.toNat b.2.toNat g'.addr.toNat 12 ∧ Apart b.1.toNat b.2.toNat g'.footer.toNat 8 := by
  have hp := hb.ptr (ht.inv.within g hg).2
  have hw' := ht.inv.within g' hg'
  have hf' := Seg.toNat_footer hw'.2
  have hr := g.room
  have hr' := g'.room
  have hs := hb.2.2
  unfold Apart
  by_cases he : g = g'
  · subst he; omega
  · have := ht.inv.cut.apart hg hg' he
    simp only [Seg.start_eq, Seg.len_eq] at this
    omega

theorem Tiled.footerOf_eq (ht : Tiled s base segs) (hg : g ∈ segs) : s.footerOf g.addr = g.footer := by
  unfold footerOf Seg.footer; rw [(ht.inv.header g hg).2.2]

/-- **A tiled heap is safe.** -/
theorem Tiled.safe (ht : Tiled s base segs) : s.Safe := by
  refine ⟨?_, fun b hb c hc => ?_, fun b hb i hi => ?_, fun b hb => ?_, fun b hb => ?_⟩
  · refine ht.distinct.imp_of_mem fun {b c} hb hc hne => ?_
    obtain ⟨g, hg, hbg⟩ := ht.live b hb
    obtain ⟨g', hg', hcg⟩ := ht.live c hc
    have := ht.inv.cut.apart hg hg' fun he => hne (by rw [hbg.2.1, hcg.2.1, he])
    have h1 := hbg.ptr (ht.inv.within g hg).2
    have h2 := hcg.ptr (ht.inv.within g' hg').2
    have h3 := hbg.2.2
    have h4 := hcg.2.2
    simp only [Seg.start_eq, Seg.len_eq] at this
    unfold Apart; omega
  · obtain ⟨g, hg, hbg⟩ := ht.live b hb
    obtain ⟨g', hg', hcg⟩ := ht.live c hc
    rw [hcg.header, ht.footerOf_eq hg']
    exact ht.apart_marks hg hbg hg'
  · obtain ⟨g, hg, hbg⟩ := ht.live b hb
    obtain ⟨g', hg', -, hga⟩ := ht.inv.hole_at hi
    rw [← hga, ht.footerOf_eq hg']
    exact ht.apart_marks hg hbg hg'
  · obtain ⟨g, hg, hbg⟩ := ht.live b hb
    have h1 := hbg.ptr (ht.inv.within g hg).2
    have h2 := (ht.inv.within g hg).1
    have h3 := ht.inv.below
    unfold Apart; omega
  · obtain ⟨g, hg, hbg⟩ := ht.live b hb
    have h1 := hbg.ptr (ht.inv.within g hg).2
    have h2 := ht.inv.cut.bounds g hg
    have h3 := hbg.2.2
    simp only [Seg.start_eq, Seg.len_eq] at h2
    omega

end Safety

/-! ## The steps -/

theorem Holds.bytes {b : U32 × U32} {g : Seg} {m m' : Mem} (h : Holds b g) (hw : g.addr.toNat + g.size.toNat < 2 ^ 32)
    (hk : ∀ x : U32, g.addr.toNat ≤ x.toNat → x.toNat < g.addr.toNat + g.size.toNat → m' x = m x) :
    ∀ x : U32, b.1.toNat ≤ x.toNat → x.toNat < b.1.toNat + b.2.toNat → m' x = m x := fun x hx hx' => by
  have h1 := h.ptr hw
  have h2 := h.2.2
  exact hk x (by omega) (by omega)

theorem Tiled.alloc (ht : Tiled s base segs) {size : U32} {al : Bool} (hs : s.kernel.AllocSound size al)
    (h : s.Step (.alloc size al) t) : (∃ segs', Tiled t base segs') ∧ s.Kept (.alloc size al) t := by
  obtain ⟨hsize, fuel, p, k', ha, rfl⟩ := h
  obtain ⟨segs', g, hi', hc, hp⟩ := hs.alloc hsize ht.inv ha
  refine ⟨⟨segs', hi', fun b hb => ?_, List.pairwise_cons.2 ⟨fun b hb he => ?_, ht.distinct⟩⟩, fun b hb _ => ?_⟩
  · rcases List.mem_cons.1 hb with rfl | hb
    · exact ⟨g, hp.mem, hp.live, hp.ptr, hp.enough⟩
    · obtain ⟨q, hq, hbq⟩ := ht.live b hb
      exact ⟨q, hc.kept q hq hbq.1, hbq⟩
  · -- the new pointer is that of a new segment
    obtain ⟨q, hq, hbq⟩ := ht.live b hb
    have hqg : q.addr = g.addr := by
      have := hbq.2.1.symm.trans (he.symm.trans hp.ptr)
      unfold sizeofHeader at this; bv_omega
    exact hp.fresh q hq hbq.1 (hi'.seg_eq (hc.kept q hq hbq.1) hp.mem hqg)
  · obtain ⟨q, hq, hbq⟩ := ht.live b hb
    exact hbq.bytes (ht.inv.within q hq).2 (hc.bytes q hq hbq.1)

theorem Tiled.free (ht : Tiled s base segs) {p : U32} (hs : s.kernel.FreeSound p) (h : s.Step (.free p) t) :
    (∃ segs', Tiled t base segs') ∧ s.Kept (.free p) t := by
  obtain ⟨⟨n, hn⟩, k', hk, rfl⟩ := h
  obtain ⟨g, hg, hgl, hgp, -⟩ := ht.live _ hn
  simp only at hgp
  subst hgp
  obtain ⟨segs', hi', hc⟩ := hs.free ht.inv hg hgl hk
  have hkeep : ∀ b ∈ s.live.filter (·.1 != g.addr + sizeofHeader), ∃ q ∈ segs, Holds b q ∧ q ≠ g := fun b hb => by
    obtain ⟨hb, hne⟩ := List.mem_filter.1 hb
    obtain ⟨q, hq, hbq⟩ := ht.live b hb
    refine ⟨q, hq, hbq, fun he => ?_⟩
    rw [hbq.2.1, he] at hne
    simp at hne
  refine ⟨⟨segs', hi', fun b hb => ?_, ht.distinct.filter _⟩, fun b _ hb => ?_⟩
  · obtain ⟨q, hq, hbq, hne⟩ := hkeep b hb
    exact ⟨q, (hc q hq hbq.1 hne).1, hbq⟩
  · obtain ⟨q, hq, hbq, hne⟩ := hkeep b hb
    exact hbq.bytes (ht.inv.within q hq).2 (hc q hq hbq.1 hne).2

/-- A change between the header and the footer of a segment shows in no header or footer. -/
theorem inv_inside {h : Heap} {m m' : Mem} {lo hi : Nat} {g : Seg} (hi' : Inv h m base segs) (hg : g ∈ segs)
    (hk : Keeps lo hi m m') (hlo : g.addr.toNat + 12 ≤ lo) (hhi : hi + 8 ≤ g.addr.toNat + g.size.toNat) :
    Inv h m' base segs := by
  have hap : ∀ q ∈ segs, (q.addr.toNat + 12 ≤ lo ∨ hi ≤ q.addr.toNat) ∧
      (q.addr.toNat + q.size.toNat ≤ lo ∨ hi ≤ q.addr.toNat + q.size.toNat - 8) := fun q hq => by
    have hr := q.room
    by_cases he : q = g
    · subst he; omega
    · have := hi'.cut.apart hq hg he
      simp only [Seg.start_eq, Seg.len_eq] at this
      omega
  have hb := hi'.below
  have hw := hi'.within g hg
  have hs := hi'.size
  refine ⟨⟨⟨hi'.within, fun q hq => ?_, fun q hq ht => ?_, hi'.live⟩, ?_, hi'.size, hi'.cap, hi'.below, hi'.low⟩,
    hi'.cut⟩
  · exact (hi'.header q hq).keep hk (hi'.within q hq).2 (hap q hq).1
  · exact (hi'.footer q hq ht).keep hk (hi'.within q hq).2 (hap q hq).2
  · rw [OrderedList.items_congr (by have := hi'.low; omega) hk (.inl (by omega))]
    exact hi'.index

theorem Tiled.write (ht : Tiled s base segs) {a : U32} {v : Byte} (h : s.Step (.write a v) t) : Tiled t base segs := by
  obtain ⟨⟨b, hb, h1, h2⟩, rfl⟩ := h
  obtain ⟨g, hg, hbg⟩ := ht.live b hb
  have hp := hbg.ptr (ht.inv.within g hg).2
  have hs := hbg.2.2
  exact ⟨inv_inside ht.inv hg (keeps_storeByte s.kernel.mem a v) (by omega) (by omega), ht.live, ht.distinct⟩

/-- **A sound step keeps the heap tiled** and every payload. -/
theorem Tiled.step (ht : Tiled s base segs) {op : HeapOp} (hs : s.Sound op) (h : s.Step op t) :
    (∃ segs', Tiled t base segs') ∧ s.Kept op t := by
  cases op with
  | alloc size al => exact ht.alloc hs h
  | free p => exact ht.free hs h
  | write a v => exact ⟨⟨segs, ht.write h⟩, trivial⟩

end HeapState

/-! ## The constructor -/

namespace Heap

variable (m : Mem) (junk : Heap) {start : U32} (end_addr max : U32)

/-- Where the constructor puts its hole: behind the index, and on the next page boundary if that address is odd. -/
def firstHeader (start : U32) : U32 :=
  if maskTest (start + 4 * heapIndexSize) then ((start + 4 * heapIndexSize) &&& 0xFFFFF000) + 0x1000
  else start + 4 * heapIndexSize

/-- The heap's memory before the hole is inserted. -/
def newMem (m : Mem) (start end_addr : U32) : Mem :=
  writeHeader (OrderedList.new m start heapIndexSize).2 (firstHeader start) true (end_addr - firstHeader start)

theorem new_eq : Heap.new m junk start end_addr max =
    ({ junk with
        index := (OrderedList.insert ⟨start, 0, heapIndexSize⟩ (headerLessThan (newMem m start end_addr))
          (newMem m start end_addr) (firstHeader start)).1
        startAddress := max
        endAddress := end_addr },
      (OrderedList.insert ⟨start, 0, heapIndexSize⟩ (headerLessThan (newMem m start end_addr))
          (newMem m start end_addr) (firstHeader start)).2) := rfl

theorem new_index (hw : start.toNat + 4 * heapIndexSize.toNat ≤ 2 ^ 32) :
    (Heap.new m junk start end_addr max).1.index.size = 1 ∧
      (Heap.new m junk start end_addr max).1.index.getItemAtIndex (Heap.new m junk start end_addr max).2 0 =
        firstHeader start := by
  rw [new_eq]
  refine ⟨by simp only [OrderedList.insert_fst]; rfl, ?_⟩
  have h := OrderedList.perm_insert (l := ⟨start, 0, heapIndexSize⟩) (headerLessThan (newMem m start end_addr))
    (newMem m start end_addr) (firstHeader start) (by
      show start.toNat + 4 * (0 + 1) ≤ 2 ^ 32
      have : heapIndexSize.toNat = 0x20000 := rfl
      omega)
  have h1 : OrderedList.items ⟨start, 0, heapIndexSize⟩ (newMem m start end_addr) = [] := rfl
  rw [h1, List.perm_singleton] at h
  have h2 : 0 < (OrderedList.items
    (OrderedList.insert ⟨start, 0, heapIndexSize⟩ (headerLessThan (newMem m start end_addr))
    (newMem m start end_addr) (firstHeader start)).1 (OrderedList.insert ⟨start, 0, heapIndexSize⟩
      (headerLessThan (newMem m start end_addr)) (newMem m start end_addr) (firstHeader start)).2).length := by
    rw [h]; exact Nat.one_pos
  have h3 := OrderedList.getElem_items _ _ h2
  rw [← h3]
  simp only [h, List.getElem_cons_zero]

/-- **A new heap is one hole**, with no footer, from the end of the index on. -/
theorem new_inv (hal : start.toNat % 0x1000 = 0) (hroom : start.toNat + 0x80000 + 20 ≤ end_addr.toNat) :
    ∃ g, g.hole = true ∧
      Inv (Heap.new m junk start end_addr max).1 (Heap.new m junk start end_addr max).2 (start.toNat + 0x80000)
        [g] := by
  have hlt := end_addr.isLt
  have ha : (start + 4 * heapIndexSize).toNat = start.toNat + 0x80000 := by
    rw [BitVec.toNat_add, show (4 * heapIndexSize).toNat = 0x80000 from rfl]; omega
  have hodd : maskTest (start + 4 * heapIndexSize) = false := by
    have h1 : (start + 4 * heapIndexSize) &&& 1 = 0 := BitVec.eq_of_toNat_eq (by rw [toNat_and_one, ha]; simp; omega)
    unfold maskTest; rw [h1]; rfl
  have hf : firstHeader start = start + 4 * heapIndexSize := by unfold firstHeader; rw [hodd]; rfl
  have hsize : (end_addr - firstHeader start).toNat = end_addr.toNat - (start.toNat + 0x80000) := by
    rw [BitVec.toNat_sub, hf, ha]; omega
  let g : Seg := ⟨firstHeader start, end_addr - firstHeader start, true, false, by omega⟩
  have hga : g.addr.toNat = start.toNat + 0x80000 := by simp only [g]; rw [hf, ha]
  have hgw : g.addr.toNat + g.size.toNat < 2 ^ 32 := by simp only [g] at hga ⊢; omega
  let h₀ : Heap := { junk with index := ⟨start, 0, heapIndexSize⟩, startAddress := max, endAddress := end_addr }
  have hm : Marks h₀ (newMem m start end_addr) (start.toNat + 0x80000) [] := by
    refine ⟨⟨by simp, by simp, by simp, by simp⟩, List.Perm.refl _, Nat.zero_le _, rfl, ?_, by omega⟩
    show start.toNat + 4 * heapIndexSize.toNat ≤ _
    rw [show heapIndexSize.toNat = 0x20000 from rfl]
  have hg := hm.addHole (s := g) (headerLessThan (newMem m start end_addr)) ⟨by omega, hgw⟩
    (headerAt_writeHeader _ g hgw) (fun h => by cases h) rfl
    (show (0 : U32).toNat < heapIndexSize.toNat by decide)
  refine ⟨g, rfl, hg, ?_⟩
  show Cuts _ end_addr.toNat [g]
  exact ⟨hga, by simp only [Seg.len_eq, g]; omega, by simp only [Seg.len_eq, g, cuts_nil]; omega⟩

end Heap

open HeapState in
/-- **Heap safety over whole runs**: in every run from the constructor on whose calls are sound, every state reached is
safe and no call changes a payload. -/
theorem heap_safe {k : Kernel} {start end_addr max : U32} (hstart : start.toNat % 0x1000 = 0)
    (hend : end_addr.toNat % 0x1000 = 0) (hroom : start.toNat + 0x80000 < end_addr.toNat) {ops : List HeapOp}
    (hsound : ∀ l₁ op l₂ t, ops = l₁ ++ op :: l₂ → Reaches Step ⟨k.construct start end_addr max, []⟩ l₁ t →
      t.Sound op) :
    ∀ l₁ l₂ t, ops = l₁ ++ l₂ → Reaches Step ⟨k.construct start end_addr max, []⟩ l₁ t →
      t.Safe ∧ ∀ op l₃ u, l₂ = op :: l₃ → t.Step op u → t.Kept op u := by
  obtain ⟨g, -, hg⟩ := Heap.new_inv k.mem k.heap end_addr max hstart (by omega)
  have hrun : Along Step (fun s => ∃ segs, Tiled s (start.toNat + 0x80000) segs)
      ⟨k.construct start end_addr max, []⟩ ops :=
    (Runs.guarded_iff.2 hsound).along (fun s op t ⟨segs, ht⟩ hs h => (ht.step hs h).1)
      ⟨[g], hg, by simp, List.Pairwise.nil⟩
  intro l₁ l₂ t hl hr
  obtain ⟨segs, ht⟩ := along_iff.1 hrun l₁ l₂ t hl hr
  exact ⟨ht.safe, fun op l₃ u hop h => (ht.step (hsound l₁ op l₃ t (by rw [hl, hop]) hr) h).2⟩

/-- The kernel that a heap is constructed in, with nothing in its memory. -/
def blankKernel : Kernel := Kernel.ofHeap ⟨⟨0, 0, 0⟩, 0, 0, 0, false, false⟩ fun _ => 0

namespace HeapState

def blankHeap : HeapState := ⟨blankKernel.construct 0xC0000000 0xC0100000 0xCFFFF000, []⟩

/-- A block at the start, and a page-aligned one. -/
def twoBlocks : HeapState := (blankHeap.allocated 0 0x100 false).allocated 0 0x40 true

/-- The first block is freed, and makes one hole with the gap before the second. -/
def secondLeft : HeapState :=
  ⟨(twoBlocks.kernel.free 0xC008000C).get (by decide +kernel), twoBlocks.live.filter (·.1 != 0xC008000C)⟩

theorem free_first : twoBlocks.kernel.free 0xC008000C = some secondLeft.kernel :=
  (Option.some_get (by decide +kernel)).symm

end HeapState

open HeapState in
/-- Two live blocks, one of them page-aligned; the first is freed, and its place taken again. -/
theorem heap_safe_fourCalls : ∃ s t u, Reaches Step blankHeap [.alloc 0x100 false, .alloc 0x40 true] s ∧
    s.live = [(0xC0081000, 0x40), (0xC008000C, 0x100)] ∧ s.Safe ∧ s.Step (.free 0xC008000C) t ∧
    s.Kept (.free 0xC008000C) t ∧ t.Step (.alloc 0x30 false) u ∧ t.Kept (.alloc 0x30 false) u ∧ u.Safe := by
  have h₁ : blankHeap.kernel.heap.findSmallestHole blankHeap.kernel.mem (0x100 + sizeofHeader + sizeofFooter) false =
      some 0 := by decide +kernel
  have h₂ : (blankHeap.allocated 0 0x100 false).kernel.heap.findSmallestHole
      (blankHeap.allocated 0 0x100 false).kernel.mem (0x40 + sizeofHeader + sizeofFooter) true = some 0 := by
    decide +kernel
  have h₃ : (0xC008000C, 0x100) ∈ twoBlocks.live := by decide +kernel
  have h₄ : secondLeft.kernel.heap.findSmallestHole secondLeft.kernel.mem (0x30 + sizeofHeader + sizeofFooter) false =
      some 0 := by decide +kernel
  have haligned : (blankHeap.allocated 0 0x100 false).Sound (.alloc 0x40 true) :=
    .aligned (x := ⟨0xC0080114, 0x7FEEC, true, true, by decide⟩) h₂ (by decide +kernel) (by decide +kernel)
      (by decide +kernel) (by decide +kernel)
  have hfree : twoBlocks.Sound (.free 0xC008000C) :=
    ⟨by decide +kernel, by decide +kernel, .inl (by decide +kernel), by decide +kernel⟩
  have hg : Guarded Step Sound blankHeap [.alloc 0x100 false, .alloc 0x40 true, .free 0xC008000C, .alloc 0x30 false] :=
    .cons (.plain h₁) (fun _ => (step_alloc (by decide) h₁).1) <|
      .cons haligned (fun _ => (step_alloc (by decide) h₂).1) <|
        .cons hfree (fun _ => (step_free h₃ free_first).1) ⟨.plain h₄, fun _ _ => trivial⟩
  have hsafe := heap_safe (by decide) (by decide) (by decide) (guarded_iff.1 hg)
  have r₁ : Step blankHeap (.alloc 0x100 false) _ := (step_alloc (by decide) h₁).2 rfl
  have r₂ : Step _ (.alloc 0x40 true) twoBlocks := (step_alloc (by decide) h₂).2 rfl
  have r₃ : Step twoBlocks (.free 0xC008000C) secondLeft := (step_free h₃ free_first).2 rfl
  have r₄ : Step secondLeft (.alloc 0x30 false) _ := (step_alloc (by decide) h₄).2 rfl
  obtain ⟨hs, hkept⟩ := hsafe [_, _] [_, _] twoBlocks rfl (.cons r₁ (reaches_one r₂))
  obtain ⟨-, hkept'⟩ := hsafe [_, _, _] [_] secondLeft rfl (.cons r₁ (.cons r₂ (reaches_one r₃)))
  exact ⟨_, _, _, .cons r₁ (reaches_one r₂), by decide +kernel, hs, r₃, hkept _ _ _ rfl r₃, r₄, hkept' _ _ _ rfl r₄,
    (hsafe _ [] _ rfl (.cons r₁ (.cons r₂ (.cons r₃ (reaches_one r₄))))).1⟩

open HeapState in
/-- A page-aligned request for all of the first hole: the block is put behind a gap, and ends behind the heap. -/
theorem heap_unsafe_aligned : ∃ t, Reaches Step ⟨blankKernel.construct 0xC0000000 0xC0100000 0xCFFFF000, []⟩
    [.alloc 0x7FFEC true] t ∧ ¬ t.Safe := by
  have hf : (blankKernel.construct 0xC0000000 0xC0100000 0xCFFFF000).heap.findSmallestHole
      (blankKernel.construct 0xC0000000 0xC0100000 0xCFFFF000).mem (0x7FFEC + sizeofHeader + sizeofFooter) true =
        some 0 := by decide +kernel
  refine ⟨_, ⟨_, ⟨by decide, 1, _, _, Kernel.alloc_of_found 0 hf, rfl⟩, rfl⟩, fun h => ?_⟩
  have hb := h.below _ (List.mem_cons_self ..)
  rw [(allocAt_bounds ..).2] at hb
  exact absurd hb (by decide +kernel)

/-! ## The bounds -/

/-- `n` rounded up to a page boundary. -/
def pageRound (n : Nat) : Nat := (n + 0xFFF) / 0x1000 * 0x1000

/-- **The bounds a heap is to keep**, when it was constructed at `start` with the limit `max`. -/
structure HeapState.InBounds (s : HeapState) (start max : U32) : Prop where
  start : s.kernel.heap.startAddress.toNat = pageRound (start.toNat + 0x80000)
  le : s.kernel.heap.startAddress.toNat ≤ s.kernel.heap.endAddress.toNat
  max : s.kernel.heap.endAddress.toNat ≤ max.toNat
  holes : ∀ i, i < s.kernel.heap.index.size.toNat →
    s.kernel.heap.startAddress.toNat ≤ (s.kernel.heap.index.getItemAtIndex s.kernel.mem i).toNat ∧
    (s.kernel.heap.index.getItemAtIndex s.kernel.mem i).toNat + 12 ≤ s.kernel.heap.endAddress.toNat ∧
    (s.kernel.heap.index.getItemAtIndex s.kernel.mem i).toNat +
      (headerSize s.kernel.mem (s.kernel.heap.index.getItemAtIndex s.kernel.mem i)).toNat ≤
      s.kernel.heap.endAddress.toNat
  live : ∀ b ∈ s.live, s.kernel.heap.startAddress.toNat + 12 ≤ b.1.toNat ∧
    b.1.toNat + b.2.toNat + 8 ≤ s.kernel.heap.endAddress.toNat

/-- **A new heap is out of its bounds**: it starts at `max`, and its hole does not lie between there and the end. -/
theorem construct_out_of_bounds {k : Kernel} {start end_addr max : U32}
    (hend : start.toNat + 0x80000 ≤ end_addr.toNat) :
    ¬ (⟨k.construct start end_addr max, []⟩ : HeapState).InBounds start max := by
  intro h
  have hlt := end_addr.isLt
  have hi := Heap.new_index k.mem k.heap end_addr max
    (show start.toNat + _ ≤ _ by rw [show heapIndexSize.toNat = 0x20000 from rfl]; omega)
  have hle : max.toNat ≤ end_addr.toNat := h.le
  obtain ⟨h1, h2, -⟩ := h.holes 0 (by
    show 0 < (Heap.new k.mem k.heap start end_addr max).1.index.size.toNat
    rw [hi.1]; decide)
  have h3 := h.max
  simp only [Kernel.construct, hi.2] at h1 h2 h3
  simp only [Heap.new_eq] at h1 h2 h3
  omega

open HeapState in
/-- **The bounds of the heap fail for every constructor call.** -/
theorem heap_bounds_never {k : Kernel} {start end_addr max : U32} (hend : start.toNat + 0x80000 ≤ end_addr.toNat)
    (_hmax : end_addr.toNat ≤ max.toNat) :
    ¬ ∀ ops t, Reaches Step ⟨k.construct start end_addr max, []⟩ ops t → t.InBounds start max :=
  fun h => construct_out_of_bounds hend (h [] _ rfl)

open HeapState in
theorem heap_bounds_never_kheap :
    ¬ ∀ ops t, Reaches Step ⟨blankKernel.construct 0xC0000000 0xC0100000 0xCFFFF000, []⟩ ops t →
      t.InBounds 0xC0000000 0xCFFFF000 := heap_bounds_never (by decide) (by decide)

open HeapState in
/-- The heap that `initialise_paging` makes starts at its limit. -/
theorem kheap_starts_at_max :
    (blankKernel.construct 0xC0000000 0xC0100000 0xCFFFF000).heap.startAddress = 0xCFFFF000 ∧
    pageRound ((0xC0000000 : U32).toNat + 0x80000) = 0xC0080000 ∧
    ¬ ∀ ops t, Reaches Step ⟨blankKernel.construct 0xC0000000 0xC0100000 0xCFFFF000, []⟩ ops t →
      t.InBounds 0xC0000000 0xCFFFF000 :=
  ⟨rfl, rfl, fun h => construct_out_of_bounds (by decide) (h [] _ rfl)⟩

end Loris
