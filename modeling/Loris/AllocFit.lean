import Loris.SizeOrder
/-!
# AllocFit — `Alloc` from a hole that fits

`carve` cuts a block, and a hole behind it, out of an interval that belongs to no marked segment.  `allocAt` gets that
interval by taking the chosen hole off the index, or, page-aligned, by shortening it to the gap in front of the block.
-/
namespace Loris

open ByteMem Cut

/-! ## `FindSmallestHole` -/

namespace Heap

variable {h : Heap} {m : Mem} {size : U32} {al : Bool}

theorem findFrom_some : ∀ {k i r : Nat}, h.findFrom m size al k i = some r →
    i ≤ r ∧ r < i + k ∧ fits m size al (h.index.getItemAtIndex m r) = true ∧
      ∀ j, i ≤ j → j < r → fits m size al (h.index.getItemAtIndex m j) = false
  | 0, _, _, hf => by cases hf
  | k + 1, i, r, hf => by
    unfold findFrom at hf
    split at hf
    · rename_i hfit
      obtain rfl := Option.some.inj hf
      exact ⟨Nat.le_refl _, by omega, hfit, by omega⟩
    · rename_i hfit
      obtain ⟨h1, h2, h3, h4⟩ := findFrom_some hf
      refine ⟨by omega, by omega, h3, fun j hj hlt => ?_⟩
      by_cases hji : j = i
      · subst hji; simpa using hfit
      · exact h4 j (by omega) hlt

theorem findFrom_none : ∀ {k i : Nat}, h.findFrom m size al k i = none ↔
    ∀ j, i ≤ j → j < i + k → fits m size al (h.index.getItemAtIndex m j) = false
  | 0, i => by simp only [findFrom, true_iff]; omega
  | k + 1, i => by
    unfold findFrom
    split
    · rename_i hfit
      simp only [reduceCtorEq, false_iff, not_forall]
      exact ⟨i, Nat.le_refl _, by omega, by simp [hfit]⟩
    · rename_i hfit
      rw [findFrom_none]
      constructor
      · intro h1 j hj hlt
        by_cases hji : j = i
        · subst hji; simpa using hfit
        · exact h1 j (by omega) (by omega)
      · intro h1 j hj hlt
        exact h1 j (by omega) (by omega)

/-- **A position `FindSmallestHole` returns is the first in the index whose header passes its test.** -/
theorem findSmallestHole_some {r : Nat} (hf : h.findSmallestHole m size al = some r) :
    r < h.index.size.toNat ∧ fits m size al (h.index.getItemAtIndex m r) = true ∧
      ∀ j, j < r → fits m size al (h.index.getItemAtIndex m j) = false := by
  obtain ⟨-, h2, h3, h4⟩ := findFrom_some hf
  exact ⟨by omega, h3, fun j hj => h4 j (by omega) hj⟩

theorem findSmallestHole_none :
    h.findSmallestHole m size al = none ↔
      ∀ j, j < h.index.size.toNat → fits m size al (h.index.getItemAtIndex m j) = false := by
  unfold findSmallestHole
  rw [findFrom_none]
  constructor
  · intro h1 j hj; exact h1 j (by omega) (by omega)
  · intro h1 j _ hj; exact h1 j (by omega)

end Heap

theorem fits_plain (m : Mem) (n a : U32) : Heap.fits m n false a = true ↔ n ≤ headerSize m a := by simp [Heap.fits]

/-! ## Writing a block and the hole behind it -/

theorem block_footer (pos size : U32) :
    pos + sizeofHeader + size = pos + (size + sizeofHeader + sizeofFooter) - sizeofFooter := by
  unfold sizeofHeader sizeofFooter; bv_omega

/-- **The block's header and footer**, and nothing outside it. -/
theorem writeBlock_spec (m : Mem) (b : Seg) (size : U32) (hs : b.size = size + sizeofHeader + sizeofFooter)
    (hl : b.hole = false) (hw : b.addr.toNat + b.size.toNat < 2 ^ 32) :
    HeaderAt (Heap.writeBlock m b.addr size b.size) b ∧ FooterAt (Heap.writeBlock m b.addr size b.size) b ∧
      Keeps b.addr.toNat (b.addr.toNat + b.size.toNat) m (Heap.writeBlock m b.addr size b.size) := by
  have hr := b.room
  have hf := Seg.toNat_footer hw
  have he :
      Heap.writeBlock m b.addr size b.size = writeFooter (writeHeader m b.addr b.hole b.size) b.footer b.addr := by
    unfold Heap.writeBlock Seg.footer
    rw [block_footer, ← hs, hl]
  have k1 := keeps_writeHeader m b.addr b.hole b.size (by omega)
  have k2 := keeps_writeFooter (writeHeader m b.addr b.hole b.size) b.footer b.addr (by omega)
  rw [he]
  exact ⟨(headerAt_writeHeader m b hw).keep k2 hw (.inl (by omega)), footerAt_writeFooter _ b hw,
    (k1.mono (by omega) (by omega)).trans (k2.mono (by omega) (by omega))⟩

/-- **The header and footer of the hole behind it**, when that hole ends inside the heap. -/
theorem writeRest_spec (m : Mem) (t : Seg) (endAddress S n : U32) (hs : t.size = S - n) (hl : t.hole = true)
    (hw : t.addr.toNat + t.size.toNat ≤ endAddress.toNat) :
    HeaderAt (Heap.writeRest m endAddress t.addr S n) t ∧ FooterAt (Heap.writeRest m endAddress t.addr S n) t ∧
      Keeps t.addr.toNat (t.addr.toNat + t.size.toNat) m (Heap.writeRest m endAddress t.addr S n) := by
  have hr := t.room
  have hlt : t.addr.toNat + t.size.toNat < 2 ^ 32 := by omega
  have hf := Seg.toNat_footer hlt
  have he :
      Heap.writeRest m endAddress t.addr S n = writeFooter (writeHeader m t.addr t.hole t.size) t.footer t.addr := by
    unfold Heap.writeRest
    have hft : t.addr + S - n - sizeofFooter = t.footer := by
      unfold Seg.footer sizeofFooter; rw [hs]; bv_omega
    simp only [hft, ← hs, ← hl]
    rw [if_pos (by rw [BitVec.lt_def, hf]; omega)]
  have k1 := keeps_writeHeader m t.addr t.hole t.size (by omega)
  have k2 := keeps_writeFooter (writeHeader m t.addr t.hole t.size) t.footer t.addr (by omega)
  rw [he]
  exact ⟨(headerAt_writeHeader m t hlt).keep k2 hlt (.inl (by omega)), footerAt_writeFooter _ t hlt,
    (k1.mono (by omega) (by omega)).trans (k2.mono (by omega) (by omega))⟩

/-- The memory outside a range of the heap and outside the index storage is unchanged. -/
def Untouched (h : Heap) (lo hi : Nat) (m m' : Mem) : Prop :=
  ∀ x : U32, (x.toNat < lo ∨ hi ≤ x.toNat) →
    (x.toNat < h.index.elements.toNat ∨ h.index.elements.toNat + 4 * heapIndexSize.toNat ≤ x.toNat) → m' x = m x

theorem untouched_of_keeps {h : Heap} {lo hi : Nat} {m m' : Mem} (hk : Keeps lo hi m m') : Untouched h lo hi m m' :=
  fun x hx _ => hk x hx

theorem Untouched.trans {h g : Heap} {lo hi : Nat} {m₁ m₂ m₃ : Mem} (h₁ : Untouched h lo hi m₁ m₂)
    (h₂ : Untouched g lo hi m₂ m₃) (he : g.index.elements = h.index.elements) : Untouched h lo hi m₁ m₃ :=
  fun x hx hy => (h₂ x hx (by rw [he]; exact hy)).trans (h₁ x hx hy)

theorem Untouched.mono {h : Heap} {lo hi a b : Nat} {m m' : Mem} (hu : Untouched h lo hi m m') (hlo : a ≤ lo)
    (hhi : hi ≤ b) : Untouched h a b m m' := fun x hx hy => hu x (by omega) hy

theorem untouched_index {h : Heap} {lo hi : Nat} {m m' : Mem}
    (hk : Keeps h.index.elements.toNat (h.index.elements.toNat + 4 * heapIndexSize.toNat) m m') :
    Untouched h lo hi m m' := fun x _ hy => hk x hy

theorem untouched_live {h : Heap} {m m' : Mem} {segs : List Seg} {base lo hi : Nat} (hm : Marks h m base segs)
    (hu : Untouched h lo hi m m') {s : Seg}
    (hs : s ∈ segs) (ha : s.addr.toNat + s.size.toNat ≤ lo ∨ hi ≤ s.addr.toNat) (x : U32) (hx : s.addr.toNat ≤ x.toNat)
    (hx' : x.toNat < s.addr.toNat + s.size.toNat) : m' x = m x := by
  have h1 := hm.below
  have h2 := (hm.within s hs).1
  exact hu x (by omega) (.inr (by omega))

/-- The interval `[pos, pos + S)` of the heap is apart from the segments of `l`. -/
structure Vacant (h : Heap) (base : Nat) (l : List Seg) (pos S : U32) : Prop where
  lo : base ≤ pos.toNat
  hi : pos.toNat + S.toNat ≤ h.endAddress.toNat
  apart : ∀ u ∈ l, u.addr.toNat + u.size.toNat ≤ pos.toNat ∨ pos.toNat + S.toNat ≤ u.addr.toNat

/-- What a carving leaves: `mid` in place of the interval, its block first. -/
structure Carved (h : Heap) (m : Mem) (base : Nat) (l : List Seg) (pos S : U32) (b : Seg) (r : U32 × Heap × Mem)
    (mid : List Seg) : Prop where
  ptr : r.1 = b.addr + sizeofHeader
  heap : ∃ i, r.2.1 = { h with index := i }
  block : ∃ rest, mid = b :: rest ∧ ∀ t ∈ rest, t.hole = true ∧ t.tied = true
  cut : Cuts pos.toNat (pos.toNat + S.toNat) mid
  marks : Marks r.2.1 r.2.2 base (mid ++ l)
  frame : Untouched h pos.toNat (pos.toNat + S.toNat) m r.2.2

/-- What is left behind the block of a carving: nothing, or one hole, which goes into the index. -/
inductive LeftOver (h : Heap) (m : Mem) (S : U32) (b : Seg) (r : U32 × Heap × Mem) : List Seg → Prop where
  | nothing (hs : b.size = S) (hi : r.2.1.index.items r.2.2 = h.index.items m) : LeftOver h m S b r []
  | hole (t : Seg) (hs : b.size ≠ S) (hh : t.hole = true) (ht : t.tied = true) (ha : t.addr = b.addr + b.size)
      (hi : r.2.1.index.items r.2.2 = (h.index.items m).orderedInsert (NotLarger r.2.2) t.addr) : LeftOver h m S b r [t]

/-- The index storage from slot `n` on is unchanged. -/
def SpareKept (h : Heap) (n base : Nat) (m m' : Mem) : Prop :=
  ∀ a : U32, h.index.elements.toNat + 4 * n ≤ a.toNat → a.toNat < base → m' a = m a

theorem LeftOver.sizeSorted {h : Heap} {m : Mem} {S : U32} {b : Seg} {r : U32 × Heap × Mem} {rest : List Seg}
    (hr : LeftOver h m S b r rest) (hs : (h.index.items m).Pairwise (NotLarger r.2.2)) : SizeSorted r.2.1 r.2.2 := by
  unfold SizeSorted
  cases hr with
  | nothing _ hi => rw [hi]; exact hs
  | hole t _ _ _ _ hi => rw [hi]; exact hs.orderedInsert _ _

section Carving

variable {h : Heap} {m : Mem} {base : Nat} {l : List Seg} {S z : U32} {b : Seg} (hm : Marks h m base l)
  (hf : Vacant h base l b.addr S) (hs : b.size = z + sizeofHeader + sizeofFooter) (hl : b.hole = false)
  (ht : b.tied = true)

include hm hf hs hl ht

theorem writeBlock_marks (hle : b.size.toNat ≤ S.toNat) :
    Marks h (Heap.writeBlock m b.addr z b.size) base (b :: l) ∧
      Keeps b.addr.toNat (b.addr.toNat + b.size.toNat) m (Heap.writeBlock m b.addr z b.size) ∧
      h.index.items (Heap.writeBlock m b.addr z b.size) = h.index.items m := by
  have hw : b.addr.toNat + b.size.toNat < 2 ^ 32 := by have := hf.hi; omega
  have hcap : h.index.elements.toNat + 4 * h.index.size.toNat ≤ 2 ^ 32 := by have := hm.slots; omega
  have hbelow : h.index.elements.toNat + 4 * h.index.size.toNat ≤ b.addr.toNat := by
    have := hm.below; have := hm.size; have := hf.lo; omega
  obtain ⟨h1, h2, h3⟩ := writeBlock_spec m b z hs hl hw
  exact ⟨(hm.keep h3 hf.lo fun u hu => by have := hf.apart u hu; omega).addLive ⟨hf.lo, hw⟩ h1 h2 hl ht, h3,
    OrderedList.items_congr hcap h3 (.inl hbelow)⟩

theorem carve_whole (he : b.size = S) :
    Carved h m base l b.addr S b (h.carve m b.addr S z b.size) [b] ∧
      LeftOver h m S b (h.carve m b.addr S z b.size) [] ∧
      SpareKept h (h.index.size.toNat + 1) base m (h.carve m b.addr S z b.size).2.2 := by
  have hr := b.room
  obtain ⟨hm1, h3, hi1⟩ := writeBlock_marks hm hf hs hl ht (by rw [he])
  have hc : h.carve m b.addr S z b.size = (b.addr + sizeofHeader, h, Heap.writeBlock m b.addr z b.size) := by
    unfold Heap.carve; rw [he, BitVec.sub_self]; rfl
  rw [hc]
  exact ⟨⟨rfl, ⟨h.index, rfl⟩, ⟨[], rfl, by simp⟩, ⟨rfl, by simp; omega, by simp [he]⟩, hm1,
    untouched_of_keeps (h3.mono (Nat.le_refl _) (by rw [he]))⟩, .nothing he hi1,
    fun a _ ha => h3 a (by have := hf.lo; omega)⟩

theorem carve_rest (hge : b.size.toNat + 20 ≤ S.toNat) (hroom : h.index.size.toNat < heapIndexSize.toNat) :
    ∃ rest, Carved h m base l b.addr S b (h.carve m b.addr S z b.size) (b :: rest) ∧
      LeftOver h m S b (h.carve m b.addr S z b.size) rest ∧
      SpareKept h (h.index.size.toNat + 1) base m (h.carve m b.addr S z b.size).2.2 := by
  have hr := b.room
  have he : b.size ≠ S := fun he => by rw [he] at hge; omega
  obtain ⟨hm1, h3, hi1⟩ := writeBlock_marks hm hf hs hl ht (by omega)
  have hcap : h.index.elements.toNat + 4 * h.index.size.toNat ≤ 2 ^ 32 := by have := hm.slots; omega
  have hbelow : h.index.elements.toNat + 4 * h.index.size.toNat ≤ b.addr.toNat := by
    have := hm.below; have := hm.size; have := hf.lo; omega
  have hlo := hf.lo
  have hhi := hf.hi
  have hsub : (S - b.size).toNat = S.toNat - b.size.toNat := by rw [BitVec.toNat_sub]; omega
  have haddr : (b.addr + b.size).toNat = b.addr.toNat + b.size.toNat := by rw [BitVec.toNat_add]; omega
  let t : Seg := ⟨b.addr + b.size, S - b.size, true, true, by omega⟩
  have hte : t.addr.toNat + t.size.toNat = b.addr.toNat + S.toNat := by simp only [t]; omega
  obtain ⟨m₁, hm₁⟩ : ∃ m₁, Heap.writeBlock m b.addr z b.size = m₁ := ⟨_, rfl⟩
  obtain ⟨m₂, hm₂⟩ : ∃ m₂, Heap.writeRest m₁ h.endAddress t.addr S b.size = m₂ := ⟨_, rfl⟩
  obtain ⟨g1, g2, g3⟩ := writeRest_spec m₁ t h.endAddress S b.size rfl rfl (by omega)
  rw [hm₁] at hm1 h3 hi1
  rw [hm₂] at g1 g2 g3
  have hm2 : Marks h m₂ base (b :: l) := hm1.keep g3 (by simp only [t]; omega) fun u hu => by
    rcases List.mem_cons.1 hu with rfl | hu
    · left; simp only [t]; omega
    · have := hf.apart u hu; simp only [t] at hte ⊢; omega
  have hwithin : base ≤ t.addr.toNat ∧ t.addr.toNat + t.size.toNat < 2 ^ 32 := by simp only [t] at hte ⊢; omega
  have hm3 := hm2.addHole (s := t) (headerLessThan m₂) hwithin g1 (fun _ => g2) rfl hroom
  have hc : h.carve m b.addr S z b.size = (b.addr + sizeofHeader,
      { h with index := (h.index.insert (headerLessThan m₂) m₂ t.addr).1 },
      (h.index.insert (headerLessThan m₂) m₂ t.addr).2) := by
    have hta : b.addr + sizeofHeader + z + sizeofFooter = t.addr := by
      simp only [t, hs]; unfold sizeofHeader sizeofFooter; bv_omega
    have hpos : S - b.size > 0 := by
      rw [gt_iff_lt, BitVec.lt_def, hsub]; simp; omega
    unfold Heap.carve
    simp only [hta, if_pos hpos, hm₁, hm₂]
  have hi2 := OrderedList.items_congr hcap g3 (.inl (by simp only [t]; omega))
  have hi3 := hm2.items_addHole (s := t) (hm2.toBody.cons hwithin g1 (fun _ => g2) (fun h' => by cases h')) rfl hroom
  refine ⟨[t], ?_⟩
  rw [hc]
  refine ⟨⟨rfl, ⟨_, rfl⟩, ⟨[t], rfl, by simp [t]⟩, ?_, hm3.perm ?_, ?_⟩,
    .hole t he rfl rfl rfl (by rw [hi2, hi1] at hi3; exact hi3), fun a ha ha' => ?_⟩
  · refine ⟨rfl, by simp; omega, haddr, ?_, ?_⟩
    · simp only [Seg.len_eq, t]; omega
    · simp only [Seg.len_eq, t, cuts_nil]; omega
  · exact List.Perm.swap b t l
  · have hki := OrderedList.keeps_insert (l := h.index) (headerLessThan m₂) m₂ t.addr (c := heapIndexSize.toNat)
      (by have := hm.below; have := hm.low; omega) hroom
    exact ((untouched_of_keeps (h3.mono (Nat.le_refl _) (by omega))).trans
      (untouched_of_keeps (h := h) (g3.mono (by simp only [t]; omega) (by omega))) rfl).trans (untouched_index hki) rfl
  · have hks := OrderedList.keeps_insert (l := h.index) (headerLessThan m₂) m₂ t.addr
      (c := h.index.size.toNat + 1) hm.slots (Nat.lt_succ_self _)
    exact ((hks a (.inr ha)).trans (g3 a (.inl (by simp only [t]; omega)))).trans (h3 a (.inl (by omega)))

end Carving

/-- **Carving a block out of a free interval**, with nothing left over or a hole behind it. -/
theorem carve_spec {h : Heap} {m : Mem} {base : Nat} {l : List Seg} (hm : Marks h m base l) {S z : U32} (b : Seg)
    (hf : Vacant h base l b.addr S) (hs : b.size = z + sizeofHeader + sizeofFooter) (hl : b.hole = false)
    (ht : b.tied = true) (hfit : b.size = S ∨ b.size.toNat + 20 ≤ S.toNat)
    (hroom : b.size ≠ S → h.index.size.toNat < heapIndexSize.toNat) :
    ∃ rest, Carved h m base l b.addr S b (h.carve m b.addr S z b.size) (b :: rest) ∧
      LeftOver h m S b (h.carve m b.addr S z b.size) rest ∧
      SpareKept h (h.index.size.toNat + 1) base m (h.carve m b.addr S z b.size).2.2 := by
  by_cases he : b.size = S
  · exact ⟨[], carve_whole hm hf hs hl ht he⟩
  · exact carve_rest hm hf hs hl ht (hfit.resolve_left he) (hroom he)

/-! ## `allocAt` -/

/-- **What a successful pass of `Alloc` leaves** of the hole `x`: perhaps a hole in front, the block, perhaps a hole
behind, and everything else as it was. -/
structure Allocated (h : Heap) (m : Mem) (base : Nat) (segs : List Seg) (x : Seg) (size : U32) (r : U32 × Heap × Mem)
    (b : Seg) (segs' : List Seg) : Prop where
  ptr : r.1 = b.addr + sizeofHeader
  live : b.hole = false
  enough : size.toNat + 20 ≤ b.size.toNat
  heap : ∃ i, r.2.1 = { h with index := i }
  split : ∃ pre post front rest, segs = pre ++ x :: post ∧ segs' = pre ++ (front ++ b :: rest) ++ post ∧
    Cuts x.addr.toNat (x.addr.toNat + x.size.toNat) (front ++ b :: rest) ∧
    ∀ t ∈ front ++ rest, t.hole = true ∧ t.tied = true
  inv : Inv r.2.1 r.2.2 base segs'
  frame : Untouched h x.addr.toNat (x.addr.toNat + x.size.toNat) m r.2.2

section AllocAt

variable {h : Heap} {m : Mem} {base : Nat} {segs pre post : List Seg} {x : Seg} {i : Nat} {size : U32}

theorem mem_around {y : Seg} (x : Seg) (hy : y ∈ pre ++ post) : y ∈ pre ++ x :: post := by
  rcases List.mem_append.1 hy with hy | hy
  · exact List.mem_append_left _ hy
  · exact List.mem_append_right _ (List.mem_cons_of_mem _ hy)

theorem vacant_of_cut (hi : Inv h m base (pre ++ x :: post)) : Vacant h base (pre ++ post) x.addr x.size := by
  have hx := hi.cut.bounds x (by simp)
  refine ⟨hx.1, hx.2.2, fun u hu => ?_⟩
  have hne : u ≠ x := fun he => by
    have hnd := hi.cut.nodup
    subst he
    simp only [List.map_append, List.map_cons, List.nodup_append, List.nodup_cons, List.mem_map] at hnd
    rcases List.mem_append.1 hu with hu | hu
    · exact hnd.2.2 (start u) ⟨u, hu, rfl⟩ (start u) (by simp) rfl
    · exact hnd.2.1.1 ⟨u, hu, rfl⟩
  have := hi.cut.apart (mem_around x hu) (y := x) (by simp) hne
  simpa using this

theorem perm_split (pre post : List Seg) (x : Seg) : (pre ++ x :: post).Perm (x :: (pre ++ post)) :=
  List.perm_middle

theorem inv_of_splice {h' : Heap} {m' : Mem} {mid : List Seg} (hi : Inv h m base (pre ++ x :: post))
    (he : h'.endAddress = h.endAddress) (hm : Marks h' m' base (mid ++ (pre ++ post)))
    (hc : Cuts x.addr.toNat (x.addr.toNat + x.size.toNat) mid) : Inv h' m' base (pre ++ mid ++ post) := by
  have hp : (mid ++ (pre ++ post)).Perm (pre ++ mid ++ post) := by
    rw [← List.append_assoc]
    exact List.Perm.append_right post List.perm_append_comm
  exact ⟨hm.perm hp, by rw [he]; exact hi.cut.splice hc⟩

/-- **A pass of plain `Alloc`** over a hole of at least the requested size: the block takes the start of the hole, and
all of it when the rest has no room for a header and a footer. -/
theorem allocAt_front (hi : Inv h m base (pre ++ x :: post)) (hx : x.hole = true) (hidx : i < h.index.size.toNat)
    (hget : h.index.getItemAtIndex m i = x.addr) (hfit : size.toNat + 20 ≤ x.size.toNat) :
    ∃ b rest, Allocated h m base (pre ++ x :: post) x size (h.allocAt m i size false) b (pre ++ (b :: rest) ++ post) ∧
      b.addr = x.addr ∧
      b.size.toNat = (if x.size.toNat - (size.toNat + 20) < 20 then x.size.toNat else size.toNat + 20) ∧
      Cuts x.addr.toNat (x.addr.toNat + x.size.toNat) (b :: rest) ∧
      LeftOver { h with index := (h.index.remove m i).1 } (h.index.remove m i).2 x.size b (h.allocAt m i size false)
        rest ∧
      SpareKept h h.index.size.toNat base m (h.allocAt m i size false).2.2 := by
  have hsize : headerSize m x.addr = x.size := (hi.header x (by simp)).2.2
  have hv := vacant_of_cut hi
  have hm0 := (hi.toMarks.perm (perm_split pre post x)).removeHole hx hidx hget
  have hk := OrderedList.keeps_remove (l := h.index) m (i := i) (c := heapIndexSize.toNat)
    (by have := hi.below; have := hi.low; omega) hi.size (by omega)
  have hn : (size + sizeofHeader + sizeofFooter).toNat = size.toNat + 20 := by
    unfold sizeofHeader sizeofFooter; have := x.size.isLt; bv_omega
  have hsub : (x.size - (size + sizeofHeader + sizeofFooter)).toNat = x.size.toNat - (size.toNat + 20) := by
    rw [BitVec.toNat_sub, hn]; omega
  -- the block takes the whole hole or exactly the requested size
  obtain ⟨b, size', hb, ha, hbs, hs, hall⟩ : ∃ (b : Seg) (size' : U32), b.addr = x.addr ∧
      (b.size = x.size ∨ b.size.toNat + 20 ≤ x.size.toNat) ∧
      b.size.toNat = (if x.size.toNat - (size.toNat + 20) < 20 then x.size.toNat else size.toNat + 20) ∧
      (b.size = size' + sizeofHeader + sizeofFooter ∧
        b.hole = false ∧ b.tied = true ∧ size.toNat + 20 ≤ b.size.toNat) ∧
      h.allocAt m i size false =
        Heap.carve { h with index := (h.index.remove m i).1 } (h.index.remove m i).2 x.addr x.size size' b.size := by
    have h20 : (sizeofHeader + sizeofFooter).toNat = 20 := rfl
    by_cases hab : x.size - (size + sizeofHeader + sizeofFooter) < sizeofHeader + sizeofFooter
    · have hlt : x.size.toNat - (size.toNat + 20) < 20 := by rw [BitVec.lt_def, hsub, h20] at hab; exact hab
      refine ⟨⟨x.addr, x.size, false, true, x.room⟩, size + (x.size - (size + sizeofHeader + sizeofFooter)), rfl,
        .inl rfl, (if_pos hlt).symm, ⟨?_, rfl, rfl, hfit⟩, ?_⟩
      · unfold sizeofHeader sizeofFooter; bv_omega
      · simp only [Heap.allocAt, hget, hsize, hab, decide_true, if_true, Bool.false_and, Bool.false_eq_true, if_false]
    · have hge : ¬ x.size.toNat - (size.toNat + 20) < 20 := by rw [BitVec.lt_def, hsub, h20] at hab; exact hab
      refine ⟨⟨x.addr, size + sizeofHeader + sizeofFooter, false, true, by omega⟩, size, rfl, .inr ?_,
        hn.trans (if_neg hge).symm, ⟨rfl, rfl, rfl, by simp only [hn]; omega⟩, ?_⟩
      · simp only [hn]; omega
      · simp only [Heap.allocAt, hget, hsize, hab, decide_false, Bool.false_and, Bool.false_eq_true, if_false]
  have hsz : (h.index.size - 1).toNat = h.index.size.toNat - 1 := by rw [BitVec.toNat_sub]; simp; omega
  obtain ⟨rest, hc, hrest, hspare⟩ := carve_spec hm0 b (S := x.size) (z := size')
    ⟨by rw [hb]; exact hv.lo, by rw [hb]; exact hv.hi, by rw [hb]; exact hv.apart⟩ hs.1 hs.2.1 hs.2.2.1 ha (fun _ => by
      show (h.index.size - 1).toNat < _
      have := hi.size; omega)
  rw [hb] at hc hrest hspare
  have hks := OrderedList.keeps_remove (l := h.index) m (i := i) (c := h.index.size.toNat)
    (by have := hi.slots; omega) (Nat.le_refl _) (by omega)
  obtain ⟨j, hj⟩ := hc.heap
  obtain ⟨rest', he, hholes⟩ := hc.block
  obtain rfl := (List.cons.inj he).2
  refine ⟨b, rest, ?_, hb, hbs, hc.cut, by rw [hall]; exact hrest, fun a ha ha' => ?_⟩
  case refine_2 =>
    rw [hall]
    refine (hspare a ?_ ha').trans (hks a (.inr ha))
    show h.index.elements.toNat + 4 * ((h.index.size - 1).toNat + 1) ≤ a.toNat
    omega
  rw [hall]
  refine ⟨hc.ptr, hs.2.1, hs.2.2.2, ⟨j, hj⟩, ⟨pre, post, [], rest, rfl, rfl, hc.cut, hholes⟩,
    inv_of_splice hi (by rw [hj]) hc.marks hc.cut, ?_⟩
  exact (untouched_index hk).trans hc.frame rfl

theorem allocAt_plain (hi : Inv h m base (pre ++ x :: post)) (hx : x.hole = true) (hidx : i < h.index.size.toNat)
    (hget : h.index.getItemAtIndex m i = x.addr) (hfit : size.toNat + 20 ≤ x.size.toNat) :
    ∃ b segs', Allocated h m base (pre ++ x :: post) x size (h.allocAt m i size false) b segs' := by
  obtain ⟨b, rest, ha, -⟩ := allocAt_front hi hx hidx hget hfit
  exact ⟨b, _, ha⟩

/-- The size `Alloc` gives the hole in front of a page-aligned block carved at `pos`. -/
def frontGap (pos : U32) : U32 := 0x1000 - (pos &&& 0xFFF) - sizeofHeader

/-- Where `Alloc` puts the header of a page-aligned block carved at `pos`. -/
def alignedHeader (pos : U32) : U32 := pos + 0x1000 - (pos &&& 0xFFF) - sizeofHeader

theorem alignedHeader_eq (pos : U32) : alignedHeader pos = pos + frontGap pos := by
  unfold alignedHeader frontGap sizeofHeader; bv_omega

theorem toNat_frontGap (pos : U32) : (frontGap pos).toNat = (2 ^ 32 + 0xFF4 - pos.toNat % 0x1000) % 2 ^ 32 := by
  have h := toNat_and_offset pos
  unfold frontGap sizeofHeader
  bv_omega

theorem toNat_alignedPtr {pos : U32} (h : pos.toNat / 0x1000 < 0xFFFFF) :
    (alignedHeader pos + sizeofHeader).toNat = (pos.toNat / 0x1000 + 1) * 0x1000 := by
  have h := toNat_and_offset pos
  unfold alignedHeader sizeofHeader
  bv_omega

/-- **The hole holds `n` bytes behind the gap**: the gap is a segment, and what is left behind the block is nothing or
a segment. -/
def HoldsAligned (x : Seg) (n : Nat) : Prop :=
  20 ≤ (frontGap x.addr).toNat ∧ ((frontGap x.addr).toNat + n = x.size.toNat ∨
    (frontGap x.addr).toNat + n + 20 ≤ x.size.toNat)

instance (x : Seg) (n : Nat) : Decidable (HoldsAligned x n) := by unfold HoldsAligned; infer_instance

theorem low_base {h : Heap} {m : Mem} {base : Nat} {l : List Seg} (hm : Marks h m base l) : 0x80000 ≤ base := by
  have := hm.below
  have h3 : heapIndexSize.toNat = 0x20000 := rfl
  omega

/-- The memory once the hole in front is written. -/
def writeFront (m : Mem) (pos : U32) : Mem :=
  writeFooter (writeHeader m pos true (frontGap pos)) (alignedHeader pos - sizeofFooter) pos

theorem allocAt_true {z : U32} (hne : h.index.getItemAtIndex m i &&& 0xFFFFF000 ≠ 0) :
    h.allocAt m i z true =
      let pos := h.index.getItemAtIndex m i
      let S := headerSize m pos
      let n := z + sizeofHeader + sizeofFooter
      h.carve (writeFront m pos) (alignedHeader pos) (S - headerSize (writeFront m pos) pos)
        (if S - n < sizeofHeader + sizeofFooter then z + (S - n) else z)
        (if S - n < sizeofHeader + sizeofFooter then S else n) := by
  simp only [Heap.allocAt, Bool.true_and, bne_iff_ne, ne_eq, hne, not_false_iff, if_true, decide_eq_true_eq]
  rfl

/-- **The hole in front** of a page-aligned block: its header reads the gap, and the index lists it as before. -/
theorem writeFront_marks (hi : Inv h m base (pre ++ x :: post)) (hx : x.hole = true) {f : Seg} (hfa : f.addr = x.addr)
    (hfs : f.size = frontGap x.addr) (hfh : f.hole = true)
    (hfit : (frontGap x.addr).toNat + 20 ≤ x.size.toNat) :
    Marks h (writeFront m x.addr) base (f :: (pre ++ post)) ∧
      headerSize (writeFront m x.addr) x.addr = frontGap x.addr ∧
      Keeps x.addr.toNat (x.addr.toNat + (frontGap x.addr).toNat) m (writeFront m x.addr) ∧
      h.index.items (writeFront m x.addr) = h.index.items m := by
  have hv := vacant_of_cut hi
  have hlo := hv.lo
  have hhi := hv.hi
  have hfr := f.room
  have hfw : f.addr.toNat + f.size.toNat < 2 ^ 32 := by rw [hfa, hfs]; omega
  have hff : f.footer = alignedHeader x.addr - sizeofFooter := by
    unfold Seg.footer
    rw [hfa, hfs, alignedHeader_eq]
  have hfn := Seg.toNat_footer hfw
  have hfm : writeFooter (writeHeader m f.addr f.hole f.size) f.footer f.addr = writeFront m x.addr := by
    rw [hff, hfa, hfs, hfh]
    rfl
  have k1 := keeps_writeHeader m f.addr f.hole f.size (by omega)
  have k2 := keeps_writeFooter (writeHeader m f.addr f.hole f.size) f.footer f.addr (by omega)
  have hhead := (headerAt_writeHeader m f hfw).keep k2 hfw (.inl (by omega))
  have hfoot := footerAt_writeFooter (writeHeader m f.addr f.hole f.size) f hfw
  have hk := (k1.mono (b := f.addr.toNat + f.size.toNat) (Nat.le_refl _) (by omega)).trans
    (k2.mono (by omega) (by omega))
  rw [hfm] at hhead hfoot hk
  rw [hfa, hfs] at hk
  refine ⟨(hi.toMarks.perm (perm_split pre post x)).replaceHole hk hlo (fun u hu => by have := hv.apart u hu; omega)
    ⟨by rw [hfa]; exact hlo, hfw⟩ hhead (fun _ => hfoot) hx hfh hfa, ?_, hk,
    OrderedList.items_congr (l := h.index) (by have := hi.slots; omega) hk
      (.inl (by have := hi.below; have := hi.size; omega))⟩
  have hread := hhead.2.2
  rwa [hfa, hfs] at hread

/-- **A pass of page-aligned `Alloc`** over a hole that holds the block behind its gap. -/
theorem allocAt_aligned (hi : Inv h m base (pre ++ x :: post)) (hx : x.hole = true)
    (hget : h.index.getItemAtIndex m i = x.addr) (hfit : HoldsAligned x (size.toNat + 20))
    (hroom : (frontGap x.addr).toNat + (size.toNat + 20) ≠ x.size.toNat → h.index.size.toNat < heapIndexSize.toNat) :
    ∃ b segs', Allocated h m base (pre ++ x :: post) x size (h.allocAt m i size true) b segs' ∧
      (h.allocAt m i size true).1.toNat % 0x1000 = 0 ∧ b.size = size + sizeofHeader + sizeofFooter ∧
      ∃ f rest, segs' = pre ++ (f :: b :: rest) ++ post ∧ f.addr = x.addr ∧ f.size = frontGap x.addr ∧ f.hole = true ∧
        Marks h (writeFront m x.addr) base (f :: (pre ++ post)) ∧
        h.index.items (writeFront m x.addr) = h.index.items m ∧
        LeftOver h (writeFront m x.addr) (x.size - frontGap x.addr) b (h.allocAt m i size true) rest := by
  have hsize : headerSize m x.addr = x.size := (hi.header x (by simp)).2.2
  have hv := vacant_of_cut hi
  obtain ⟨hg20, hfit⟩ := hfit
  have hlo := hv.lo
  have hhi := hv.hi
  have hmod : x.addr.toNat % 0x1000 + 32 ≤ 0x1000 := by have := toNat_frontGap x.addr; omega
  have hg : (frontGap x.addr).toNat = 0xFF4 - x.addr.toNat % 0x1000 := by have := toNat_frontGap x.addr; omega
  have hn : (size + sizeofHeader + sizeofFooter).toNat = size.toNat + 20 := by
    unfold sizeofHeader sizeofFooter; have := x.size.isLt; bv_omega
  have hab : ¬ x.size - (size + sizeofHeader + sizeofFooter) < sizeofHeader + sizeofFooter := by
    rw [BitVec.lt_def, BitVec.toNat_sub, hn]
    have : (sizeofHeader + sizeofFooter).toNat = 20 := rfl
    omega
  have hnl : (alignedHeader x.addr).toNat = x.addr.toNat + (frontGap x.addr).toNat := by
    rw [alignedHeader_eq, BitVec.toNat_add]; omega
  have hS : (x.size - frontGap x.addr).toNat = x.size.toNat - (frontGap x.addr).toNat := by
    rw [BitVec.toNat_sub]; omega
  -- the hole in front keeps the header the index lists
  let f : Seg := ⟨x.addr, frontGap x.addr, true, true, hg20⟩
  obtain ⟨hm1, hrd, hk, hitems⟩ := writeFront_marks hi hx (f := f) rfl rfl rfl (by omega)
  let b : Seg := ⟨alignedHeader x.addr, size + sizeofHeader + sizeofFooter, false, true, by omega⟩
  have hall : h.allocAt m i size true =
      h.carve (writeFront m x.addr) b.addr (x.size - frontGap x.addr) size b.size := by
    rw [allocAt_true (by rw [hget]; exact and_page_ne_zero (by have := low_base hi.toMarks; omega))]
    simp only [hget, hsize, hrd, if_neg hab, b]
  have hvb : Vacant h base (f :: (pre ++ post)) b.addr (x.size - frontGap x.addr) := by
    refine ⟨by simp only [b]; omega, by simp only [b]; omega, fun u hu => ?_⟩
    simp only [b]
    rcases List.mem_cons.1 hu with rfl | hu
    · left; simp only [f]; omega
    · have := hv.apart u hu; omega
  have hwhole : b.size = x.size - frontGap x.addr ∨ b.size.toNat + 20 ≤ (x.size - frontGap x.addr).toNat := by
    simp only [b, hn, hS]
    rcases hfit with he | he
    · left; apply BitVec.eq_of_toNat_eq; rw [hn, hS]; omega
    · right; omega
  obtain ⟨rest, hc, hrest, -⟩ := carve_spec hm1 b (S := x.size - frontGap x.addr) (z := size) hvb rfl rfl rfl hwhole
    (fun hne => hroom fun he => hne (BitVec.eq_of_toNat_eq (by simp only [b, hn, hS]; omega)))
  obtain ⟨j, hj⟩ := hc.heap
  obtain ⟨rest', he, hholes⟩ := hc.block
  obtain rfl := (List.cons.inj he).2
  have hcut : Cuts x.addr.toNat (x.addr.toNat + x.size.toNat) ([f] ++ b :: rest) := by
    refine ⟨rfl, by simp only [Seg.len_eq, f]; omega, ?_⟩
    have h1 : (alignedHeader x.addr).toNat + (x.size - frontGap x.addr).toNat = x.addr.toNat + x.size.toNat := by omega
    have h2 := hc.cut
    rw [show b.addr = alignedHeader x.addr from rfl, h1, hnl] at h2
    exact h2
  refine ⟨b, pre ++ ([f] ++ b :: rest) ++ post, ?_⟩
  rw [hall]
  refine ⟨⟨hc.ptr, rfl, by simp only [b, hn]; omega, ⟨j, hj⟩, ⟨pre, post, [f], rest, rfl, rfl, hcut, fun t ht => ?_⟩,
    inv_of_splice hi (by rw [hj]) (hc.marks.perm List.perm_middle) hcut, ?_⟩, ?_, rfl, f, rest, rfl, rfl, rfl, rfl, hm1,
    hitems, hrest⟩
  · rcases List.mem_append.1 ht with ht | ht
    · rw [List.mem_singleton.1 ht]; exact ⟨rfl, rfl⟩
    · exact hholes t ht
  · have h1 := hc.frame.mono (a := x.addr.toNat) (b := x.addr.toNat + x.size.toNat) (by simp only [b]; omega)
      (by simp only [b]; omega)
    exact (untouched_of_keeps (hk.mono (Nat.le_refl _) (by omega))).trans h1 rfl
  · rw [hc.ptr]
    simp only [b]
    rw [toNat_alignedPtr (by omega)]
    omega

end AllocAt

end Loris
