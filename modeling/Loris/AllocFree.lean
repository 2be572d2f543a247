import Loris.BestFit
import Loris.FreeInside
/-!
# AllocFree — `Free` undoes plain `Alloc`

`Alloc` takes a hole off the index and may put what is left of it back; `Free` takes that off again, joins it to the
block and inserts the hole.  Every hole before the taken one is smaller and none behind it is, so `Insert` finds the
place it was taken from (`free_undoes_alloc`).
-/
namespace Loris

open ByteMem Cut

/-- What a segment's header says of it. -/
def Seg.shape (s : Seg) : U32 × U32 × Bool := (s.addr, s.size, s.hole)

/-- **The heap is as it was**: the index lists the same headers in the same order, and the segments have the addresses,
sizes and flags they had. -/
structure Restored (k : Kernel) (segs : List Seg) (k' : Kernel) : Prop where
  index : k'.heap.index.items k'.mem = k.heap.index.items k.mem
  segments : ∃ segs', Inv k'.heap k'.mem k.heap.startAddress.toNat segs' ∧ segs'.map Seg.shape = segs.map Seg.shape
  bounds : k'.heap.startAddress = k.heap.startAddress ∧ k'.heap.endAddress = k.heap.endAddress

section Places

variable {h : Heap} {m : Mem} {n : U32} {i : Nat}

/-- **Around the hole found**: the holes listed before it are smaller, those behind it are not. -/
theorem SizeSorted.around (hs : SizeSorted h m) (hf : h.findSmallestHole m n false = some i) :
    (∀ a ∈ (h.index.items m).take i, ¬ NotLarger m (h.index.getItemAtIndex m i) a) ∧
      ∀ a ∈ (h.index.items m).drop (i + 1), NotLarger m (h.index.getItemAtIndex m i) a := by
  obtain ⟨hi, hfit, hfirst⟩ := Heap.findSmallestHole_some hf
  rw [fits_plain] at hfit
  have hlen := OrderedList.length_items h.index m
  constructor
  · intro a ha hle
    obtain ⟨j, hj, rfl⟩ := List.mem_take_iff_getElem.1 ha
    rw [OrderedList.getElem_items, notLarger_iff] at hle
    have hj' := hfirst j (by omega)
    rw [(fits_plain m n _).2 (BitVec.le_def.2 (Nat.le_trans hfit hle))] at hj'
    cases hj'
  · intro a ha
    obtain ⟨j, hj, rfl⟩ := List.mem_drop_iff_getElem.1 ha
    rw [OrderedList.getElem_items]
    exact notLarger_iff.2 (hs.sizeAt_le (by omega) (by omega))

theorem orderedInsert_eraseIdx {l : List U32} (hi : i < l.length) (hbefore : ∀ a ∈ l.take i, ¬ NotLarger m l[i] a)
    (hbehind : ∀ a ∈ l.drop (i + 1), NotLarger m l[i] a) : (l.eraseIdx i).orderedInsert (NotLarger m) l[i] = l := by
  rw [List.eraseIdx_eq_take_drop_succ, OrderedList.orderedInsert_append hbefore hbehind, List.getElem_cons_drop,
    List.take_append_drop]

end Places

section RoundTrip

variable {h : Heap} {m m' : Mem} {segs pre rest post : List Seg} {x b : Seg} {size : U32} {i : Nat}

theorem leftClear_start (hwf : WellFormed h m segs) (ha : b.addr.toNat = h.startAddress.toNat)
    (hbelow : h.index.elements.toNat + 4 * heapIndexSize.toNat = h.startAddress.toNat)
    (hroom : h.index.size.toNat + 2 ≤ heapIndexSize.toNat)
    (hzero : ∀ j, h.index.size.toNat ≤ j → j < heapIndexSize.toNat → h.index.getItemAtIndex m j = 0)
    (hspare : SpareKept h h.index.size.toNat h.startAddress.toNat m m') : LeftClear m' b.addr := by
  rintro ⟨hmagic, -⟩
  have hcap : heapIndexSize.toNat = 0x20000 := rfl
  have hslot : b.addr - sizeofFooter = h.index.slot (heapIndexSize.toNat - 2) := by
    refine BitVec.eq_of_toNat_eq ?_
    rw [OrderedList.toNat_slot (c := heapIndexSize.toNat) (by have := hwf.low; omega) (by omega)]
    unfold sizeofFooter; bv_omega
  have hz := hzero (heapIndexSize.toNat - 2) (by omega) (by omega)
  unfold footerMagic at hmagic
  rw [hslot] at hmagic
  have hload : load m' (h.index.slot (heapIndexSize.toNat - 2)) = load m (h.index.slot (heapIndexSize.toNat - 2)) := by
    have hs := OrderedList.toNat_slot (l := h.index) (c := heapIndexSize.toNat) (by have := hwf.low; omega)
      (show heapIndexSize.toNat - 2 < heapIndexSize.toNat by omega)
    exact load_congr fun a ha =>
      hspare a (by rw [BitVec.toNat_sub] at ha; omega) (by rw [BitVec.toNat_sub] at ha; omega)
  rw [hload] at hmagic
  exact absurd (hz.symm.trans hmagic) (by decide)

/-- **What `Free` finds around the block just allocated**: nothing on its left, and on its right the hole that was left
over, if there is one. -/
theorem around_allocated (hwf : WellFormed h m (pre ++ x :: post)) (hsep : Separated (pre ++ x :: post))
    (hx : x.hole = true)
    (hpost : post ≠ []) {h' : Heap} (hi : Inv h' m' h.startAddress.toNat (pre ++ (b :: rest) ++ post))
    (hb : b.addr = x.addr) (hcut : Cuts x.addr.toNat (x.addr.toNat + x.size.toNat) (b :: rest))
    (hrest : rest = [] ∨ ∃ R, rest = [R] ∧ R.hole = true)
    (hfirst : b.addr.toNat = h.startAddress.toNat → LeftClear m' b.addr) :
    Around m' (pre ++ (b :: rest) ++ post) b pre [] rest post := by
  have hxr := x.room
  refine ⟨rfl, .inl ⟨rfl, ?_⟩, ?_⟩
  · -- the segment to the left of a hole is not a hole
    have hsplit : pre ++ (b :: rest) ++ post = pre ++ b :: (rest ++ post) := by simp
    rw [hsplit] at hi
    have hno : ∀ L ∈ pre, L.hole = true → L.addr.toNat + L.size.toNat ≠ b.addr.toNat := fun L hL hLh => by
      rw [hb]; exact hsep L (by simp [hL]) x (by simp) hLh hx
    obtain ⟨p, left, rfl, hl, -⟩ := left_neighbour hi (fun L hL hLh hLe => absurd hLe (hno L hL hLh)) hfirst
    rcases hl with ⟨-, hl⟩ | ⟨L, rfl, hLh, -⟩
    · exact hl
    · obtain ⟨c, -, hLs, -, hLe⟩ := cuts_append.1 hi.cut.split.1
      simp only [Seg.start_eq, Seg.len_eq, cuts_nil] at hLs hLe
      exact absurd (by omega) (hno L (by simp) hLh)
  · rcases hrest with rfl | hR
    · -- the block took the whole hole, and the segment to the right of a hole is not a hole
      obtain ⟨z, q, rfl⟩ := List.exists_cons_of_ne_nil hpost
      have hbe : b.addr.toNat + b.size.toNat = x.addr.toNat + x.size.toNat := by
        obtain ⟨h1, -, h2⟩ := hcut
        simp only [Seg.start_eq, Seg.len_eq, cuts_nil] at h1 h2; omega
      have hze := hwf.cut.split.2.2.1
      simp only [Seg.start_eq, Seg.len_eq] at hze
      have hzh : z.hole ≠ true := fun hzh => hsep x (by simp) z (by simp) hx hzh (by omega)
      have hbz : b.addr + b.size = z.addr := BitVec.eq_of_toNat_eq (by
        rw [toNat_behind (hi.within b (by simp)).2]; omega)
      refine .inl ⟨rfl, fun hc => hzh ?_⟩
      rw [hbz, (hi.header z (by simp)).2.1] at hc
      exact hc.2
    · exact .inr hR

end RoundTrip

/-- The hole that is left over is taken off the index again. -/
theorem LeftOver.taken_off {S : U32} {r : U32 × Heap × Mem} {base : Nat} (hi : Inv h m base (pre ++ x :: post))
    (hx : x.hole = true) (hidx : i < h.index.size.toNat) (hget : h.index.getItemAtIndex m i = x.addr)
    (hcut : Cuts x.addr.toNat (x.addr.toNat + x.size.toNat) (b :: rest))
    (hr : LeftOver { h with index := (h.index.remove m i).1 } (h.index.remove m i).2 S b r rest) :
    (r.2.1.index.items r.2.2).diff (rest.map (·.addr)) = (h.index.items m).eraseIdx i := by
  have hremoved : (h.index.remove m i).1.items (h.index.remove m i).2 = (h.index.items m).eraseIdx i :=
    OrderedList.items_remove m hidx hi.slots
  have hm₀ := (hi.toMarks.perm (perm_split pre post x)).removeHole hx hidx hget
  rw [← hremoved]
  cases hr with
  | nothing _ hitems => exact hitems
  | hole t _ _ _ hta hitems =>
    rw [List.map_singleton, List.diff_cons, List.diff_nil]
    refine (congrArg (List.erase · t.addr) hitems).trans (List.erase_orderedInsert_of_notMem fun ht => ?_)
    -- the hole left over lies in the one that was taken
    obtain ⟨u, hu, -, hut⟩ := mem_holes.1 (hm₀.index.mem_iff.1 ht)
    have hap := (vacant_of_cut hi).apart u hu
    have hur := u.room
    obtain ⟨h1, -, h2, h3, h4⟩ := hcut
    simp only [Seg.start_eq, Seg.len_eq, cuts_nil] at h1 h2 h3 h4
    rw [hut] at hap
    omega

/-- `Insert` puts the hole back where it was taken from, while memory says the same of the holes. -/
theorem insert_back {M : Seg} (hwf : WellFormed h m (pre ++ x :: post)) (hs : SizeSorted h m)
    (hf : h.findSmallestHole m (size + sizeofHeader + sizeofFooter) false = some i)
    (hget : h.index.getItemAtIndex m i = x.addr) (hidx : i < h.index.size.toNat)
    (hbody : Body m' h.startAddress.toNat (pre ++ [M] ++ post)) (hMa : M.addr = x.addr) (hMs : M.size = x.size) :
    ((h.index.items m).eraseIdx i).orderedInsert (NotLarger m') x.addr = h.index.items m := by
  have hsame : ∀ s ∈ pre ++ x :: post, s.hole = true → ∃ t ∈ pre ++ [M] ++ post, t.addr = s.addr ∧ t.size = s.size := by
    intro s hs _
    rw [List.append_assoc]
    rcases List.mem_append.1 hs with hs | hs
    · exact ⟨s, List.mem_append_left _ hs, rfl, rfl⟩
    · rcases List.mem_cons.1 hs with rfl | hs
      · exact ⟨M, by simp, hMa, hMs⟩
      · exact ⟨s, by simp [hs], rfl, rfl⟩
  have hi : i < (h.index.items m).length := by rwa [OrderedList.length_items]
  have hxi : (h.index.items m)[i] = x.addr := (OrderedList.getElem_items _ _ hi).trans hget
  obtain ⟨hbefore, hbehind⟩ := hs.around hf
  rw [hget, ← hxi] at hbefore hbehind
  rw [← hxi]
  refine orderedInsert_eraseIdx hi (fun a ha' => ?_) fun a ha' => ?_
  · rw [← hwf.toMarks.notLarger_congr hbody hsame (List.getElem_mem hi) (List.mem_of_mem_take ha')]
    exact hbefore a ha'
  · rw [← hwf.toMarks.notLarger_congr hbody hsame (List.getElem_mem hi) (List.mem_of_mem_drop ha')]
    exact hbehind a ha'

/-- **`Free` undoes plain `Alloc`**, when no two holes are adjacent, the storage of the index with two unused slots lies
right below the heap, and the hole that is taken does not end the heap. -/
theorem free_undoes_alloc {k : Kernel} {segs : List Seg} {size : U32} (hwf : WellFormed k.heap k.mem segs)
    (hs : SizeSorted k.heap k.mem) (hsep : Separated segs)
    (hbelow : k.heap.index.elements.toNat + 4 * heapIndexSize.toNat = k.heap.startAddress.toNat)
    (hroom : k.heap.index.size.toNat + 2 ≤ heapIndexSize.toNat)
    (hzero : ∀ j, k.heap.index.size.toNat ≤ j → j < heapIndexSize.toNat → k.heap.index.getItemAtIndex k.mem j = 0)
    (hsize : size.toNat + 20 < 2 ^ 32) (hfit : ∃ y ∈ segs, y.hole = true ∧ size.toNat + 20 ≤ y.size.toNat)
    (hend : ∀ i, k.heap.findSmallestHole k.mem (size + sizeofHeader + sizeofFooter) false = some i →
      (k.heap.index.getItemAtIndex k.mem i).toNat + (k.heap.sizeAt k.mem i).toNat ≠ k.heap.endAddress.toNat) :
    ∃ p k₁ k₂, (∀ fuel, Kernel.alloc (fuel + 1) k size false = some (p, k₁)) ∧ k₁.free p = some k₂ ∧
      Restored k segs k₂ := by
  obtain ⟨i, pre, x, post, rfl, hf, hidx, hxa, hxh, hle, -⟩ := hs.exists_chosen hwf.toMarks hsize hfit
  obtain ⟨b, rest, ha, hb, hbs, hcut, hr, hspare⟩ := allocAt_front hwf.toInv hxh hidx hxa hle
  have hpost : post ≠ [] := by
    rintro rfl
    have hxe := hwf.cut.split.2.2
    refine hend i hf ?_
    rw [Heap.sizeAt, hxa, (hwf.header x (by simp)).2.2]
    exact hxe
  have hrest : rest = [] ∨ ∃ R, rest = [R] ∧ R.hole = true := by
    cases hr with
    | nothing => exact .inl rfl
    | hole t _ hth => exact .inr ⟨t, rfl, hth⟩
  have hround := around_allocated hwf hsep hxh hpost ha.inv hb hcut hrest fun h' =>
    leftClear_start hwf h' hbelow hroom hzero hspare
  have halloc := fun fuel => Kernel.alloc_of_found fuel hf
  generalize k.heap.allocAt k.mem i size false = r at *
  obtain ⟨j, hj⟩ := ha.heap
  obtain ⟨f, i₂, m₂, M, hJ, hitems, hfree⟩ :=
    Kernel.free_joined (k := { k with heap := r.2.1, mem := r.2.2 }) ha.inv hround ha.live hpost
  have hd : f.doAdd = true := hJ.doAdd
  rw [if_pos hd] at hfree
  have hM := hJ.merged
  simp only at hM
  -- the hole is where it was
  obtain ⟨hMa, hMs⟩ : M.addr = x.addr ∧ M.size = x.size := by
    have h1 : M.addr.toNat = x.addr.toNat := hJ.cut.1.symm.trans hcut.1
    have h2 := hJ.cut
    rw [h1] at h2
    exact ⟨BitVec.eq_of_toNat_eq h1, BitVec.eq_of_toNat_eq (by have := h2.end_unique hcut; omega)⟩
  -- without it, the index lists what it listed before
  have hL : i₂.items m₂ = (k.heap.index.items k.mem).eraseIdx i := by
    rw [hitems]
    exact hr.taken_off hwf.toInv hxh hidx hxa hcut
  have hlen : (k.heap.index.items k.mem).length = k.heap.index.size.toNat := OrderedList.length_items _ _
  have hroom₂ : i₂.size.toNat < heapIndexSize.toNat := by
    rw [← OrderedList.length_items i₂ m₂, hL, List.length_eraseIdx_of_lt (by omega)]; omega
  have hbody := (hM.loose hd).toBody.cons hM.within hM.headerAt hM.footerAt fun h' => by rw [hM.hole] at h'; cases h'
  have hinsert := (hM.loose hd).items_addHole hbody hM.hole hroom₂
  have hcut₂ : Cuts k.heap.startAddress.toNat r.2.1.endAddress.toNat (pre ++ [M] ++ post) := by
    rw [hj]
    refine hwf.cut.splice ⟨by rw [Seg.start_eq, hMa]; rfl, by have := M.room; simp only [Seg.len_eq]; omega, ?_⟩
    simp only [Seg.start_eq, Seg.len_eq, hMs, cuts_nil]
  have hinv := hM.inv_loose hcut₂ hd hroom₂
  simp only at hinsert hinv
  refine ⟨_, _, _, halloc, by rw [ha.ptr]; exact hfree, ?_⟩
  refine ⟨?_, ⟨pre ++ [M] ++ post, hinv, ?_⟩, ?_⟩
  · refine hinsert.trans ?_
    have hbody₂ := hinv.toBody
    generalize (i₂.insert (headerLessThan m₂) m₂ M.addr).2 = m₃ at hbody₂ ⊢
    rw [hL, hMa]
    exact insert_back hwf hs hf hxa hidx hbody₂ hMa hMs
  · simp [Seg.shape, hMa, hMs, hM.hole, hxh]
  · rw [hj]; exact ⟨rfl, rfl⟩

theorem free_undoes_alloc_twoHoles : ∃ p k₁ k₂, (∀ fuel, Kernel.alloc (fuel + 1) twoHoles 0x80 false = some (p, k₁)) ∧
    k₁.free p = some k₂ ∧ Restored twoHoles [smallHole, midBlock, largeHole] k₂ := by
  refine free_undoes_alloc (by decide +kernel) (by decide +kernel) (by decide +kernel) (by decide) (by decide)
    (fun j hj hlt => ?_) (by decide) ⟨smallHole, by simp, rfl, by decide⟩ fun i hi => ?_
  · have hcap : heapIndexSize.toNat = 0x20000 := rfl
    have hslot := OrderedList.toNat_slot (l := twoHoles.heap.index) (c := heapIndexSize.toNat) (by decide) hlt
    have hsize : twoHoles.heap.index.size.toNat = 2 := rfl
    have helem : twoHoles.heap.index.elements.toNat = 0xC0000000 := rfl
    exact load_layout (b := 0xC0080000) (e := 0xC0081000) (by decide) (by decide)
      (by rw [hslot, helem]; show 0xC0000000 + 4 * 2 ≤ _; omega) (by omega)
  · have h0 : twoHoles.heap.findSmallestHole twoHoles.mem (0x80 + sizeofHeader + sizeofFooter) false = some 0 := by
      decide +kernel
    obtain rfl : 0 = i := Option.some.inj (h0.symm.trans hi)
    decide +kernel

end Loris
