import Loris.AllocFit
import Loris.Kernel
/-!
# Merging — `Free` up to the end of the heap

`Free` marks the block as a hole, joins it to a hole on its left (through the footer below it) and to a hole on its
right, and inserts it into the index when nothing on the left took it.  A merge to the left ties the block's footer to
the new header; a merge to the right leaves the swallowed hole's footer as it was, so the result is not tied.
-/
namespace Loris

open ByteMem Cut

/-! ## The search for a header -/

namespace Heap

variable {h : Heap} {m : Mem} {a : U32}

theorem searchFrom_spec : ∀ (k i : Nat), i ≤ h.searchFrom m a k i ∧ h.searchFrom m a k i ≤ i + k ∧
    (h.searchFrom m a k i < i + k → h.index.getItemAtIndex m (h.searchFrom m a k i) = a) ∧
    ∀ j, i ≤ j → j < h.searchFrom m a k i → h.index.getItemAtIndex m j ≠ a
  | 0, i => by simp only [searchFrom]; exact ⟨Nat.le_refl _, Nat.le_refl _, by omega, by omega⟩
  | k + 1, i => by
    unfold searchFrom
    by_cases hne : h.index.getItemAtIndex m i ≠ a
    · rw [if_pos hne]
      obtain ⟨h1, h2, h3, h4⟩ := searchFrom_spec k (i + 1)
      refine ⟨by omega, by omega, fun hlt => h3 (by omega), fun j hj hlt => ?_⟩
      by_cases hji : j = i
      · subst hji; exact hne
      · exact h4 j (by omega) hlt
    · rw [if_neg hne]
      exact ⟨Nat.le_refl _, by omega, fun _ => not_not.1 hne, by omega⟩

/-- **The search finds a listed header.** -/
theorem search_listed {i : Nat} (hi : i < h.index.size.toNat) (hh : h.index.getItemAtIndex m i = a) :
    h.search m a < h.index.size.toNat ∧ h.index.getItemAtIndex m (h.search m a) = a := by
  obtain ⟨-, h2, h3, h4⟩ := searchFrom_spec (h := h) (m := m) (a := a) h.index.size.toNat 0
  have hlt : h.search m a < h.index.size.toNat := by
    unfold search
    by_contra hge
    exact h4 i (Nat.zero_le _) (by omega) hh
  exact ⟨hlt, h3 (by unfold search at hlt; omega)⟩

theorem search_first {j : Nat} (hj : j < h.search m a) : h.index.getItemAtIndex m j ≠ a :=
  (searchFrom_spec (h := h) (m := m) (a := a) h.index.size.toNat 0).2.2.2 j (Nat.zero_le j) hj

end Heap

/-! ## The hole under work -/

/-- **The hole `Free` works on**, `M`, among the other segments: marked in memory, and listed unless it is still to be
added. -/
structure Merged (h : Heap) (m : Mem) (base : Nat) (rest : List Seg) (f : Heap.Freeing) (M : Seg) : Prop where
  header : f.header = M.addr
  footer : f.footer = M.footer
  hole : M.hole = true
  within : base ≤ M.addr.toNat ∧ M.addr.toNat + M.size.toNat < 2 ^ 32
  headerAt : HeaderAt m M
  footerAt : M.tied = true → FooterAt m M
  loose : f.doAdd = true → Marks h m base rest
  listed : f.doAdd = false → Marks h m base (M :: rest)

section Left

variable {h : Heap} {m m' : Mem} {base : Nat} {rest : List Seg} {b L R : Seg}

theorem behind_eq (b : Seg) : b.footer + sizeofFooter = b.addr + b.size := by
  unfold Seg.footer sizeofFooter; bv_omega

theorem toNat_behind (hw : b.addr.toNat + b.size.toNat < 2 ^ 32) :
    (b.addr + b.size).toNat = b.addr.toNat + b.size.toNat := by rw [BitVec.toNat_add]; omega

/-- What `Free` looks for below a block's header is not there: no magic number, or one whose header is no hole. -/
def LeftClear (m : Mem) (header : U32) : Prop :=
  ¬ (footerMagic m (header - sizeofFooter) = heapMagic ∧
    isHole (setIsHole m header true) (footerHeader m (header - sizeofFooter)) = true)

/-- What `Free` looks for behind a block is not there. -/
def RightClear (m : Mem) (behind : U32) : Prop := ¬ (headerMagic m behind = heapMagic ∧ isHole m behind = true)

instance (m : Mem) (header : U32) : Decidable (LeftClear m header) := by unfold LeftClear; infer_instance

instance (m : Mem) (behind : U32) : Decidable (RightClear m behind) := by unfold RightClear; infer_instance

theorem footer_below (m : Mem) (a : U32) : footerMagic (setIsHole m a true) (a - sizeofFooter) =
      footerMagic m (a - sizeofFooter) ∧
    footerHeader (setIsHole m a true) (a - sizeofFooter) = footerHeader m (a - sizeofFooter) := by
  constructor <;> refine load_congr fun x hx => storeByte_apply_of_ne m _ fun he => ?_
  · subst he; unfold sizeofFooter at hx; bv_omega
  · subst he; unfold sizeofFooter at hx; bv_omega

/-- **"Unify left" with a hole that ends at the block.** -/
theorem unifyLeft_hole (hm : Marks h m base (L :: b :: rest)) (hL : L.hole = true) (hLt : L.tied = true)
    (hb : b.hole = false) (hadj : L.addr.toNat + L.size.toNat = b.addr.toNat)
    (hap : ∀ u ∈ rest, u.addr.toNat + u.size.toNat ≤ L.addr.toNat ∨ b.addr.toNat + b.size.toNat ≤ u.addr.toNat) :
    ∃ M, M.addr = L.addr ∧ M.size.toNat = L.size.toNat + b.size.toNat ∧ M.tied = true ∧
      (Heap.unifyLeft (setIsHole m b.addr true) b.addr b.footer).1 = ⟨L.addr, b.footer, false, b.addr + b.size⟩ ∧
      Merged h (Heap.unifyLeft (setIsHole m b.addr true) b.addr b.footer).2 base rest
        (Heap.unifyLeft (setIsHole m b.addr true) b.addr b.footer).1 M ∧
      Keeps L.addr.toNat (b.addr.toNat + b.size.toNat) m
        (Heap.unifyLeft (setIsHole m b.addr true) b.addr b.footer).2 := by
  obtain ⟨hLw, hLw'⟩ := hm.within L (by simp)
  obtain ⟨hbw, hbw'⟩ := hm.within b (by simp)
  have hLr := L.room
  have hbr := b.room
  have hLh := hm.header L (by simp)
  have hbh := hm.header b (by simp)
  have hLf := hm.footer L (by simp) hLt
  have hbf := hm.footer b (by simp) (hm.live b (by simp) hb)
  have hbn := Seg.toNat_footer hbw'
  have hLb : L.footer = b.addr - sizeofFooter := by unfold Seg.footer; bv_omega
  obtain ⟨e1, e2⟩ := footer_below m b.addr
  have k1 := keeps_setIsHole m b.addr true (by omega)
  have hcond : footerMagic (setIsHole m b.addr true) (b.addr - sizeofFooter) = heapMagic ∧
      isHole (setIsHole m b.addr true) (footerHeader (setIsHole m b.addr true) (b.addr - sizeofFooter)) = true := by
    rw [e1, e2, ← hLb, hLf.1, hLf.2, isHole_keep k1 (by omega) (.inl (by omega)), hLh.2.1]
    exact ⟨rfl, hL⟩
  have k2 := keeps_setFooterHeader (setIsHole m b.addr true) b.footer L.addr (by omega)
  have hms : (L.size + b.size).toNat = L.size.toNat + b.size.toNat := by rw [BitVec.toNat_add]; omega
  let M : Seg := ⟨L.addr, L.size + b.size, true, true, by omega⟩
  have hMf : M.footer = b.footer := by unfold Seg.footer; simp only [M]; bv_omega
  have k3 := keeps_setHeaderSize (setFooterHeader (setIsHole m b.addr true) b.footer L.addr) L.addr (L.size + b.size)
    (by omega)
  have hres : Heap.unifyLeft (setIsHole m b.addr true) b.addr b.footer = (⟨L.addr, b.footer, false, b.addr + b.size⟩,
      setHeaderSize (setFooterHeader (setIsHole m b.addr true) b.footer L.addr) L.addr (L.size + b.size)) := by
    unfold Heap.unifyLeft
    simp only [if_pos hcond]
    rw [e2, ← hLb, hLf.2, behind_eq, headerSize_keep k2 (by omega) (.inl (by omega)),
      headerSize_keep k1 (by omega) (.inl (by omega)), hLh.2.2, headerSize_setIsHole m true (by omega), hbh.2.2]
  have k := ((k1.mono (a := L.addr.toNat) (b := b.addr.toNat + b.size.toNat) (by omega) (by omega)).trans
    (k2.mono (by omega) (by omega))).trans (k3.mono (by omega) (by omega))
  have hMh : HeaderAt (setHeaderSize (setFooterHeader (setIsHole m b.addr true) b.footer L.addr) L.addr
      (L.size + b.size)) M := by
    have hk := hLh.keep ((k1.mono (a := b.addr.toNat) (b := b.addr.toNat + b.size.toNat) (by omega)
      (by omega)).trans (k2.mono (by omega) (by omega))) hLw' (.inl (by omega))
    exact ⟨(headerMagic_setHeaderSize _ _ (by omega)).trans hk.1,
      ((isHole_setHeaderSize _ _ (by omega)).trans hk.2.1).trans hL, headerSize_setHeaderSize _ _ _⟩
  have hMft : FooterAt (setHeaderSize (setFooterHeader (setIsHole m b.addr true) b.footer L.addr) L.addr
      (L.size + b.size)) M := by
    unfold FooterAt
    rw [hMf, footerMagic_keep k3 (by omega) (.inr (by omega)), footerHeader_keep k3 (by omega) (.inr (by omega)),
      footerMagic_setFooterHeader _ _ (by omega), footerHeader_setFooterHeader,
      footerMagic_keep k1 (by omega) (.inr (by omega))]
    exact ⟨hbf.1, rfl⟩
  have hMw : base ≤ M.addr.toNat ∧ M.addr.toNat + M.size.toNat < 2 ^ 32 := ⟨hLw, by simp only [M]; omega⟩
  have hml : Marks h _ base (M :: rest) :=
    ((hm.perm (.swap b L rest)).dropLive hb).replaceHole k hLw hap hMw hMh (fun _ => hMft) hL rfl rfl
  refine ⟨M, rfl, hms, rfl, ?_⟩
  rw [hres]
  exact ⟨rfl, ⟨rfl, hMf.symm, rfl, hMw, hMh, fun _ => hMft, (fun h' => by cases h'), fun _ => hml⟩, k⟩

/-- **"Unify left" with nothing to join.** -/
theorem unifyLeft_clear (hm : Marks h m base (b :: rest)) (hb : b.hole = false) (hc : LeftClear m b.addr)
    (hap : ∀ u ∈ rest, u.addr.toNat + u.size.toNat ≤ b.addr.toNat ∨ b.addr.toNat + b.size.toNat ≤ u.addr.toNat) :
    ∃ M, M.addr = b.addr ∧ M.size.toNat = b.size.toNat ∧ M.tied = true ∧
      (Heap.unifyLeft (setIsHole m b.addr true) b.addr b.footer).1 = ⟨b.addr, b.footer, true, b.addr + b.size⟩ ∧
      Merged h (Heap.unifyLeft (setIsHole m b.addr true) b.addr b.footer).2 base rest
        (Heap.unifyLeft (setIsHole m b.addr true) b.addr b.footer).1 M ∧
      Keeps b.addr.toNat (b.addr.toNat + b.size.toNat) m
        (Heap.unifyLeft (setIsHole m b.addr true) b.addr b.footer).2 := by
  obtain ⟨hbw, hbw'⟩ := hm.within b (by simp)
  have hbr := b.room
  have hbh := hm.header b (by simp)
  have hbf := hm.footer b (by simp) (hm.live b (by simp) hb)
  have hbn := Seg.toNat_footer hbw'
  obtain ⟨e1, e2⟩ := footer_below m b.addr
  have k1 := keeps_setIsHole m b.addr true (by omega)
  have k := k1.mono (a := b.addr.toNat) (b := b.addr.toNat + b.size.toNat) (Nat.le_refl _) (by omega)
  have hres : Heap.unifyLeft (setIsHole m b.addr true) b.addr b.footer = (⟨b.addr, b.footer, true, b.addr + b.size⟩,
      setIsHole m b.addr true) := by
    unfold Heap.unifyLeft
    simp only [e1, e2]
    rw [if_neg hc, behind_eq]
  let M : Seg := ⟨b.addr, b.size, true, true, hbr⟩
  have hMh : HeaderAt (setIsHole m b.addr true) M :=
    ⟨(headerMagic_setIsHole m true (by omega)).trans hbh.1, isHole_setIsHole m _ _,
      (headerSize_setIsHole m true (by omega)).trans hbh.2.2⟩
  have hMf : FooterAt (setIsHole m b.addr true) M := by
    show footerMagic _ b.footer = _ ∧ footerHeader _ b.footer = _
    exact ⟨(footerMagic_keep k1 (by omega) (.inr (by omega))).trans hbf.1,
      (footerHeader_keep k1 (by omega) (.inr (by omega))).trans hbf.2⟩
  refine ⟨M, rfl, rfl, rfl, ?_⟩
  rw [hres]
  exact ⟨rfl, ⟨rfl, rfl, rfl, ⟨hbw, hbw'⟩, hMh, fun _ => hMf, fun _ => (hm.dropLive hb).keep k hbw hap,
    fun h' => by cases h'⟩, k⟩

end Left

section Right

variable {h : Heap} {m : Mem} {base : Nat} {rest : List Seg} {M R : Seg} {f : Heap.Freeing}

/-- **"Unify right" with nothing to join** changes nothing. -/
theorem unifyRight_clear (hc : RightClear m f.testHeader) : h.unifyRight m f = (f, h, m) := by
  unfold Heap.unifyRight; rw [if_neg hc]

/-- **"Unify right" with the hole behind**: the merged hole's footer still points to the swallowed header. -/
theorem unifyRight_hole (hM : Merged h m base (R :: rest) f M) (hR : R.hole = true)
    (hadj : M.addr.toNat + M.size.toNat = R.addr.toNat) (htest : f.testHeader = R.addr)
    (hap : ∀ u ∈ rest, u.addr.toNat + u.size.toNat ≤ M.addr.toNat ∨ R.addr.toNat + R.size.toNat ≤ u.addr.toNat) :
    ∃ N, N.addr = M.addr ∧ N.size.toNat = M.size.toNat + R.size.toNat ∧ N.tied = false ∧
      (h.unifyRight m f).1 = { f with footer := R.footer } ∧
      Merged (h.unifyRight m f).2.1 (h.unifyRight m f).2.2 base rest (h.unifyRight m f).1 N ∧
      (∃ i, (h.unifyRight m f).2.1 = { h with index := i } ∧ i.size = h.index.size - 1 ∧
        i.elements = h.index.elements) ∧
      (h.unifyRight m f).2.1.index.items (h.unifyRight m f).2.2 = (h.index.items m).erase R.addr ∧
      Untouched h M.addr.toNat (M.addr.toNat + 12) m (h.unifyRight m f).2.2 := by
  obtain ⟨hMw, hMw'⟩ := hM.within
  have hMr := M.room
  have hbody : Body m base (R :: rest) := by
    cases hd : f.doAdd with
    | true => exact (hM.loose hd).toBody
    | false => exact (hM.listed hd).toBody.sub fun _ hu => List.mem_cons_of_mem _ hu
  obtain ⟨hRw, hRw'⟩ := hbody.within R (by simp)
  have hRh := hbody.header R (by simp)
  have hRr := R.room
  have hns : (M.size + R.size).toNat = M.size.toNat + R.size.toNat := by rw [BitVec.toNat_add]; omega
  let N : Seg := ⟨M.addr, M.size + R.size, true, false, by omega⟩
  have hNf : N.footer = R.footer := by unfold Seg.footer; simp only [N]; bv_omega
  have k := keeps_setHeaderSize m M.addr (M.size + R.size) (by omega)
  have hap' : ∀ u ∈ R :: rest, u.addr.toNat + u.size.toNat ≤ M.addr.toNat ∨ M.addr.toNat + 12 ≤ u.addr.toNat :=
    List.forall_mem_cons.2 ⟨.inr (by omega), fun u hu => by have := hap u hu; omega⟩
  have hNh : HeaderAt (setHeaderSize m M.addr (M.size + R.size)) N :=
    ⟨(headerMagic_setHeaderSize m _ (by omega)).trans hM.headerAt.1,
      ((isHole_setHeaderSize m _ (by omega)).trans hM.headerAt.2.1).trans hM.hole, headerSize_setHeaderSize _ _ _⟩
  have hNw : base ≤ N.addr.toNat ∧ N.addr.toNat + N.size.toNat < 2 ^ 32 := ⟨hMw, by simp only [N]; omega⟩
  -- in both cases the index goes on listing `R`
  have hlist : f.doAdd = false → Marks h (setHeaderSize m M.addr (M.size + R.size)) base (R :: N :: rest) := fun hd =>
    ((hM.listed hd).replaceHole k hMw hap' hNw hNh (fun h' => by cases h') hM.hole rfl rfl).perm (.swap R N rest)
  have hloose : f.doAdd = true → Marks h (setHeaderSize m M.addr (M.size + R.size)) base (R :: rest) := fun hd =>
    (hM.loose hd).keep k hMw hap'
  obtain ⟨l, hl, hlM⟩ : ∃ l, R ∈ l ∧ Marks h (setHeaderSize m M.addr (M.size + R.size)) base l := by
    cases hd : f.doAdd with
    | true => exact ⟨_, List.mem_cons_self .., hloose hd⟩
    | false => exact ⟨_, List.mem_cons_self .., hlist hd⟩
  obtain ⟨j, hj, hjR⟩ := hlM.index_of hl hR
  obtain ⟨hs, hsR⟩ := Heap.search_listed hj hjR
  have hres : h.unifyRight m f = ({ f with footer := R.footer },
      { h with index := (h.index.remove (setHeaderSize m M.addr (M.size + R.size))
        (h.search (setHeaderSize m M.addr (M.size + R.size)) R.addr)).1 },
      (h.index.remove (setHeaderSize m M.addr (M.size + R.size))
        (h.search (setHeaderSize m M.addr (M.size + R.size)) R.addr)).2) := by
    unfold Heap.unifyRight
    rw [htest, hM.header, if_pos ⟨hRh.1, hRh.2.1.trans hR⟩, hM.headerAt.2.2, hRh.2.2]
    simp only [headerSize_keep k (a := R.addr) (by omega) (.inr (by omega)), hRh.2.2]
    rfl
  have kr := OrderedList.keeps_remove (l := h.index) (setHeaderSize m M.addr (M.size + R.size))
    (i := h.search (setHeaderSize m M.addr (M.size + R.size)) R.addr) (c := heapIndexSize.toNat)
    (by have := hlM.below; have := hlM.low; omega) hlM.size (by omega)
  have hbelow := hlM.below
  refine ⟨N, rfl, hns, rfl, ?_⟩
  rw [hres]
  refine ⟨rfl, ⟨hM.header, hNf.symm, rfl, hNw, hNh.keep kr hNw.2 (.inr (by omega)), (fun h' => by cases h'),
    fun hd => (hloose hd).removeHole hR hs hsR, fun hd => (hlist hd).removeHole hR hs hsR⟩, ⟨_, rfl, rfl, rfl⟩, ?_, ?_⟩
  · have hitems := OrderedList.items_remove_first (l := h.index) _ hs
      (fun j hj => by rw [hsR]; exact Heap.search_first hj) hlM.slots
    rw [hsR, OrderedList.items_congr (by have := hlM.slots; omega) k
      (.inl (by have := hlM.size; omega))] at hitems
    exact hitems
  exact (untouched_of_keeps (h := h) k).trans (untouched_index kr) rfl

end Right

/-! ## Both merges -/

/-- `Free` from the marking of the block to the end of "Unify right". -/
def Heap.join (h : Heap) (m : Mem) (header footer : U32) : Heap.Freeing × Heap × Mem :=
  h.unifyRight (unifyLeft (setIsHole m header true) header footer).2
    (unifyLeft (setIsHole m header true) header footer).1

/-- **A block with what `Free` joins it to**: on each side nothing, or one hole; the hole on the left is tied. -/
structure Around (m : Mem) (segs : List Seg) (b : Seg) (pre left right post : List Seg) : Prop where
  split : segs = pre ++ (left ++ b :: right) ++ post
  left : left = [] ∧ LeftClear m b.addr ∨ ∃ L, left = [L] ∧ L.hole = true ∧ L.tied = true
  right : right = [] ∧ RightClear m (b.addr + b.size) ∨ ∃ R, right = [R] ∧ R.hole = true

/-- **What the merges leave**: one hole in place of the block and its neighbours. -/
structure Joined (h : Heap) (m : Mem) (base : Nat) (b : Seg) (pre left right post : List Seg)
    (r : Heap.Freeing × Heap × Mem) (M : Seg) : Prop where
  merged : Merged r.2.1 r.2.2 base (pre ++ post) r.1 M
  cut : Cuts M.addr.toNat (M.addr.toNat + M.size.toNat) (left ++ b :: right)
  tied : M.tied = right.isEmpty
  doAdd : r.1.doAdd = left.isEmpty
  test : r.1.testHeader = b.addr + b.size
  heap : ∃ i, r.2.1 = { h with index := i } ∧ i.elements = h.index.elements ∧
    i.size = if right = [] then h.index.size else h.index.size - 1
  frame : Untouched h M.addr.toNat (b.addr.toNat + b.size.toNat) m r.2.2

section Join

variable {h : Heap} {m : Mem} {base : Nat} {segs pre left right post : List Seg} {b : Seg}

theorem cut_around {lo hi e : Nat} {mid : List Seg} (hc : Cuts base e (pre ++ mid ++ post)) (hm : Cuts lo hi mid)
    (hne : mid ≠ []) : ∀ u ∈ pre ++ post, u.addr.toNat + u.size.toNat ≤ lo ∨ hi ≤ u.addr.toNat := by
  obtain ⟨hpre, hpost⟩ := hc.around hm hne
  intro u hu
  rcases List.mem_append.1 hu with hu | hu
  · have := hpre.bounds u hu
    simp only [Seg.start_eq, Seg.len_eq] at this; omega
  · have := hpost.bounds u hu
    simp only [Seg.start_eq, Seg.len_eq] at this; omega

/-- What stands to the left of a block. -/
theorem left_neighbour {p q : List Seg} (hi : Inv h m base (p ++ b :: q))
    (htied : ∀ L ∈ p, L.hole = true → L.addr.toNat + L.size.toNat = b.addr.toNat → L.tied = true)
    (hfirst : b.addr.toNat = base → LeftClear m b.addr) :
    ∃ pre left, p = pre ++ left ∧
      (left = [] ∧ LeftClear m b.addr ∨ ∃ L, left = [L] ∧ L.hole = true ∧ L.tied = true) ∧
      (left = [] → ∀ L ∈ p ++ b :: q, L.hole = true → L.addr.toNat + L.size.toNat ≠ b.addr.toNat) := by
  have hsplit := hi.cut.split
  rcases List.eq_nil_or_concat p with rfl | ⟨p', y, rfl⟩
  · have hb0 : b.addr.toNat = base := hsplit.1.symm
    refine ⟨[], [], rfl, .inl ⟨rfl, hfirst hb0⟩, fun _ L hL _ => ?_⟩
    have := hi.cut.bounds L hL
    simp only [Seg.start_eq, Seg.len_eq] at this; omega
  · rw [List.concat_eq_append] at *
    obtain ⟨c, -, hys, -, hye⟩ := cuts_append.1 hsplit.1
    simp only [Seg.start_eq, Seg.len_eq, cuts_nil] at hys hye
    rw [← hys] at hye
    have hym : y ∈ p' ++ [y] ++ b :: q := by simp
    cases hyh : y.hole with
    | true => exact ⟨p', [y], rfl, .inr ⟨y, rfl, hyh, htied y (by simp) hyh hye⟩, fun h' => by cases h'⟩
    | false =>
      have hyf := hi.footer y hym (hi.live y hym hyh)
      have hbw := hi.within b (by simp)
      have hyw := hi.within y hym
      have hyr := y.room
      have hbr := b.room
      refine ⟨p' ++ [y], [], by simp, .inl ⟨rfl, fun hc => ?_⟩, fun _ L hL hLh hLe => ?_⟩
      · -- the footer below is a live block's
        have hyb : y.footer = b.addr - sizeofFooter := by unfold Seg.footer; bv_omega
        have k1 := keeps_setIsHole m b.addr true (by omega)
        rw [← hyb, hyf.2, isHole_keep k1 (by omega) (.inl (by omega)), (hi.header y hym).2.1, hyh] at hc
        cases hc.2
      · rw [hi.cut.eq_of_end hL hym (by simp only [Seg.start_eq, Seg.len_eq]; omega), hyh] at hLh
        cases hLh

theorem right_neighbour {p q : List Seg} (hi : Inv h m base (p ++ b :: q))
    (hlast : b.addr.toNat + b.size.toNat = h.endAddress.toNat → RightClear m (b.addr + b.size)) :
    ∃ right post, q = right ++ post ∧
      (right = [] ∧ RightClear m (b.addr + b.size) ∨ ∃ R, right = [R] ∧ R.hole = true) ∧
      (right = [] → ∀ R ∈ p ++ b :: q, R.hole = true → R.addr.toNat ≠ b.addr.toNat + b.size.toNat) := by
  obtain ⟨hpre, -, hq⟩ := hi.cut.split
  cases q with
  | nil =>
    refine ⟨[], [], rfl, .inl ⟨rfl, hlast hq⟩, fun _ R hR _ => ?_⟩
    have hRb := hi.cut.bounds R hR
    have hRr := R.room
    simp only [Seg.start_eq, Seg.len_eq, cuts_nil] at hRb hq; omega
  | cons z q =>
    have hzs := hq.1
    simp only [Seg.start_eq, Seg.len_eq] at hzs
    have hzm : z ∈ p ++ b :: z :: q := by simp
    cases hzh : z.hole with
    | true => exact ⟨[z], q, rfl, .inr ⟨z, rfl, hzh⟩, fun h' => by cases h'⟩
    | false =>
      have hbw := hi.within b (by simp)
      refine ⟨[], z :: q, rfl, .inl ⟨rfl, fun hc => ?_⟩, fun _ R hR hRh hRs => ?_⟩
      · have hza : b.addr + b.size = z.addr := BitVec.eq_of_toNat_eq (by rw [toNat_behind hbw.2, hzs])
        rw [hza, (hi.header z hzm).2.1, hzh] at hc
        cases hc.2
      · rw [hi.cut.eq_of_start hR hzm (by simp only [Seg.start_eq]; omega), hzh] at hRh
        cases hRh

/-- **Every block of the heap has its neighbours.**  A hole that ends at the block is to be tied; what is read below
the first segment, and behind the last, is not to look like a neighbour. -/
theorem exists_around (hi : Inv h m base segs) (hb : b ∈ segs)
    (htied : ∀ L ∈ segs, L.hole = true → L.addr.toNat + L.size.toNat = b.addr.toNat → L.tied = true)
    (hfirst : b.addr.toNat = base → LeftClear m b.addr)
    (hlast : b.addr.toNat + b.size.toNat = h.endAddress.toNat → RightClear m (b.addr + b.size)) :
    ∃ pre left right post, Around m segs b pre left right post ∧
      (left = [] → ∀ L ∈ segs, L.hole = true → L.addr.toNat + L.size.toNat ≠ b.addr.toNat) ∧
      (right = [] → ∀ R ∈ segs, R.hole = true → R.addr.toNat ≠ b.addr.toNat + b.size.toNat) := by
  obtain ⟨p, q, rfl⟩ := List.append_of_mem hb
  obtain ⟨pre, left, rfl, hl, hl'⟩ := left_neighbour hi (fun L hL => htied L (List.mem_append_left _ hL)) hfirst
  obtain ⟨right, post, rfl, hr, hr'⟩ := right_neighbour hi hlast
  exact ⟨pre, left, right, post, ⟨by simp, hl, hr⟩, hl', hr'⟩

theorem Around.post_ne_nil (hi : Inv h m base segs) (ha : Around m segs b pre left right post)
    (hend : b.addr.toNat + b.size.toNat ≠ h.endAddress.toNat)
    (hendR : ∀ R ∈ segs, R.hole = true → R.addr.toNat = b.addr.toNat + b.size.toNat →
      R.addr.toNat + R.size.toNat ≠ h.endAddress.toNat) : post ≠ [] := by
  rintro rfl
  have hcut := hi.cut
  rw [ha.split, List.append_nil] at hcut
  obtain ⟨c, -, hmid⟩ := cuts_append.1 hcut
  obtain ⟨d, -, hbs, -, hrest⟩ := cuts_append.1 hmid
  simp only [Seg.start_eq, Seg.len_eq] at hbs hrest
  rw [← hbs] at hrest
  rcases ha.right with ⟨rfl, -⟩ | ⟨R, rfl, hR⟩
  · exact hend hrest
  · obtain ⟨hRs, -, hRe⟩ := hrest
    simp only [Seg.start_eq, Seg.len_eq, cuts_nil] at hRs hRe
    exact hendR R (by rw [ha.split]; simp) hR hRs (by omega)

theorem perm_mid (pre mid post : List Seg) : (pre ++ mid ++ post).Perm (mid ++ (pre ++ post)) := by
  rw [← List.append_assoc]
  exact List.Perm.append_right post List.perm_append_comm

/-- A change below an address does not show in the header there, even where that header wraps around. -/
theorem RightClear.keep {m' : Mem} {lo hi : Nat} {a : U32} (hc : RightClear m a) (hk : Keeps lo hi m m') (hlo : 12 ≤ lo)
    (hhi : hi ≤ a.toNat) : RightClear m' a := by
  have h1 : headerMagic m' a = headerMagic m a := load_congr fun x hx => hk x (by rw [BitVec.toNat_sub] at hx; omega)
  have h2 : isHole m' a = isHole m a := by
    unfold isHole
    rw [hk (a + 4) (by rw [BitVec.toNat_add]; simp; omega)]
  unfold RightClear
  rw [h1, h2]
  exact hc

theorem joinLeft_spec (hi : Inv h m base (pre ++ (left ++ b :: right) ++ post)) (hb : b.hole = false)
    (hl : left = [] ∧ LeftClear m b.addr ∨ ∃ L, left = [L] ∧ L.hole = true ∧ L.tied = true) :
    ∃ M, Cuts M.addr.toNat (M.addr.toNat + M.size.toNat) (left ++ [b]) ∧ M.tied = true ∧
      (Heap.unifyLeft (setIsHole m b.addr true) b.addr b.footer).1 =
        ⟨M.addr, b.footer, left.isEmpty, b.addr + b.size⟩ ∧
      Merged h (Heap.unifyLeft (setIsHole m b.addr true) b.addr b.footer).2 base (right ++ (pre ++ post))
        (Heap.unifyLeft (setIsHole m b.addr true) b.addr b.footer).1 M ∧
      Keeps M.addr.toNat (M.addr.toNat + M.size.toNat) m
        (Heap.unifyLeft (setIsHole m b.addr true) b.addr b.footer).2 := by
  obtain ⟨d, hd, -⟩ := cuts_append.1 hi.cut
  obtain ⟨c, -, hmid⟩ := cuts_append.1 hd
  have hout := cut_around hi.cut hmid (by simp)
  have hm : Marks h m base (left ++ b :: (right ++ (pre ++ post))) := by
    have := hi.toMarks.perm (perm_mid pre (left ++ b :: right) post)
    rwa [List.append_assoc, List.cons_append] at this
  rcases hl with ⟨rfl, hlc⟩ | ⟨L, rfl, hL, hLt⟩
  · obtain ⟨hbs, hbl, hr⟩ := hmid
    have hap : ∀ u ∈ right ++ (pre ++ post),
        u.addr.toNat + u.size.toNat ≤ b.addr.toNat ∨ b.addr.toNat + b.size.toNat ≤ u.addr.toNat := fun u hu => by
      have hrd := hr.le
      simp only [Seg.start_eq, Seg.len_eq] at hbs hr hrd
      rcases List.mem_append.1 hu with hu | hu
      · have := (hr.bounds u hu).1
        simp only [Seg.start_eq] at this; omega
      · have := hout u hu; omega
    obtain ⟨M, ha, hs, ht, hres, hM, k⟩ := unifyLeft_clear hm hb hlc hap
    refine ⟨M, ?_, ht, by rw [hres, ha]; rfl, hM, by rw [ha, hs]; exact k⟩
    rw [ha, hs]
    exact ⟨rfl, hbl, rfl⟩
  · obtain ⟨hLs, hLl, hbs, hbl, hr⟩ := hmid
    have hadj : L.addr.toNat + L.size.toNat = b.addr.toNat := by
      simp only [Seg.start_eq, Seg.len_eq] at hLs hbs; omega
    have hap : ∀ u ∈ right ++ (pre ++ post),
        u.addr.toNat + u.size.toNat ≤ L.addr.toNat ∨ b.addr.toNat + b.size.toNat ≤ u.addr.toNat := fun u hu => by
      have hrd := hr.le
      simp only [Seg.start_eq, Seg.len_eq] at hLs hbs hr hrd
      rcases List.mem_append.1 hu with hu | hu
      · have := (hr.bounds u hu).1
        simp only [Seg.start_eq] at this; omega
      · have := hout u hu; omega
    obtain ⟨M, ha, hs, ht, hres, hM, k⟩ := unifyLeft_hole hm hL hLt hb hadj hap
    refine ⟨M, ?_, ht, by rw [hres, ha]; rfl, hM, by rw [ha, hs, ← Nat.add_assoc, hadj]; exact k⟩
    rw [ha, hs]
    exact ⟨rfl, hLl, by simp only [Seg.start_eq, Seg.len_eq]; omega, hbl, by
      simp only [Seg.len_eq, cuts_nil]; omega⟩

/-- **The two merges of `Free`**.  Of the index they take the header of a hole on the right. -/
theorem join_spec (hi : Inv h m base segs) (ha : Around m segs b pre left right post) (hb : b.hole = false) :
    ∃ M, Joined h m base b pre left right post (h.join m b.addr b.footer) M ∧
      (h.join m b.addr b.footer).2.1.index.items (h.join m b.addr b.footer).2.2 =
        (h.index.items m).diff (right.map (·.addr)) := by
  obtain ⟨rfl, hl, hr⟩ := ha
  obtain ⟨M, hc, ht, hres, hM, k⟩ := joinLeft_spec hi hb hl
  have hbase := low_base hi.toMarks
  have hMlo := hM.within.1
  have hMhi := hM.within.2
  -- the block ends the merged stretch
  have hend : M.addr.toNat + M.size.toNat = b.addr.toNat + b.size.toNat := by
    obtain ⟨c, -, h1, -, h2⟩ := cuts_append.1 hc
    simp only [Seg.start_eq, Seg.len_eq, cuts_nil] at h1 h2; omega
  have hbe := toNat_behind (b := b) (by omega)
  obtain ⟨d, hd, hpost⟩ := cuts_append.1 hi.cut
  obtain ⟨c, hpre, hmid⟩ := cuts_append.1 hd
  have hitems : h.index.items (Heap.unifyLeft (setIsHole m b.addr true) b.addr b.footer).2 = h.index.items m :=
    OrderedList.items_congr (by have := hi.slots; omega) k (.inl (by have := hi.below; have := hi.size; omega))
  unfold Heap.join
  rcases hr with ⟨rfl, hrc⟩ | ⟨R, rfl, hR⟩
  · rw [unifyRight_clear (by rw [hres]; exact hrc.keep k (by omega) (by omega))]
    exact ⟨M, ⟨hM, hc, ht, by rw [hres], by rw [hres], ⟨h.index, rfl, rfl, by simp⟩, by
      rw [← hend]; exact untouched_of_keeps k⟩, hitems⟩
  · have hRa : R.addr.toNat = b.addr.toNat + b.size.toNat := by
      obtain ⟨c', -, h1, -, h2, -⟩ := cuts_append.1 hmid
      simp only [Seg.start_eq, Seg.len_eq] at h1 h2; omega
    have hcR : Cuts M.addr.toNat (M.addr.toNat + (M.size.toNat + R.size.toNat)) (left ++ b :: [R]) := by
      have : Cuts M.addr.toNat (M.addr.toNat + (M.size.toNat + R.size.toNat)) ((left ++ [b]) ++ [R]) :=
        cuts_append.2 ⟨_, hc, by simp only [Seg.start_eq]; omega, by have := R.room; simp only [Seg.len_eq]; omega, by
          simp only [Seg.len_eq, cuts_nil]; omega⟩
      simpa using this
    have hout := cut_around hi.cut hcR (by simp)
    obtain ⟨N, hNa, hNs, hNt, hNr, hN, ⟨i, hi1, hi2, hi3⟩, hNi, hNu⟩ := unifyRight_hole
      (show Merged _ _ base (R :: (pre ++ post)) _ M from hM) hR (by omega)
      (by rw [hres]; exact BitVec.eq_of_toNat_eq (by rw [hbe, hRa])) (fun u hu => by have := hout u hu; omega)
    have hMr := M.room
    refine ⟨N, ⟨hN, by rw [hNa, hNs]; exact hcR, by rw [hNt]; rfl, by rw [hNr, hres], by rw [hNr, hres],
      ⟨i, hi1, hi3, by simp [hi2]⟩, ?_⟩, by rw [hNi, hitems, List.map_singleton, List.diff_cons, List.diff_nil]⟩
    rw [hNa]
    exact (untouched_of_keeps (h := h) (k.mono (Nat.le_refl _) (by omega))).trans
      (hNu.mono (Nat.le_refl _) (by omega)) rfl

theorem Merged.inv_listed {M : Seg} {f : Heap.Freeing} (hM : Merged h m base (pre ++ post) f M)
    (hc : Cuts base h.endAddress.toNat (pre ++ [M] ++ post)) (hd : f.doAdd = false) :
    Inv h m base (pre ++ [M] ++ post) :=
  ⟨(hM.listed hd).perm (perm_mid pre [M] post).symm, hc⟩

theorem Merged.inv_loose {M : Seg} {f : Heap.Freeing} (hM : Merged h m base (pre ++ post) f M)
    (hc : Cuts base h.endAddress.toNat (pre ++ [M] ++ post)) (hd : f.doAdd = true)
    (hroom : h.index.size.toNat < heapIndexSize.toNat) :
    Inv { h with index := (h.index.insert (headerLessThan m) m M.addr).1 }
    (h.index.insert (headerLessThan m) m M.addr).2
      base (pre ++ [M] ++ post) :=
  ⟨((hM.loose hd).addHole (headerLessThan m) hM.within hM.headerAt hM.footerAt hM.hole hroom).perm
    (perm_mid pre [M] post).symm, hc⟩

theorem join_room {i : OrderedList} (hi : Inv h m base segs)
    (ha : Around m segs b pre left right post)
    (his : i.size = if right = [] then h.index.size else h.index.size - 1)
    (hroom : right = [] → h.index.size.toNat < heapIndexSize.toNat) : i.size.toNat < heapIndexSize.toNat := by
  rw [his]
  have hs := hi.size
  split
  · rename_i hr; exact hroom hr
  · obtain ⟨R, hR, hRh⟩ := ha.right.resolve_left fun h' => ‹¬ right = []› h'.1
    obtain ⟨j, hj, -⟩ := hi.index_of (s := R) (by rw [ha.split, hR]; simp) hRh
    have : (h.index.size - 1).toNat = h.index.size.toNat - 1 := by rw [BitVec.toNat_sub]; simp; omega
    omega

end Join

/-! ## `Free` away from the end -/

/-- **What `Free` leaves when it does not reach the end**: one hole in place of the block and what was joined to it. -/
structure Released (k : Kernel) (base : Nat) (pre left : List Seg) (b : Seg) (right post : List Seg) (k' : Kernel)
    (M : Seg) : Prop where
  same : k' = { k with heap := k'.heap, mem := k'.mem }
  bounds : k'.heap.startAddress = k.heap.startAddress ∧ k'.heap.endAddress = k.heap.endAddress
  hole : M.hole = true
  tied : M.tied = right.isEmpty
  cut : Cuts M.addr.toNat (M.addr.toNat + M.size.toNat) (left ++ b :: right)
  inv : Inv k'.heap k'.mem base (pre ++ [M] ++ post)
  frame : Untouched k.heap M.addr.toNat (b.addr.toNat + b.size.toNat) k.mem k'.mem

namespace Kernel

variable {k : Kernel} {base : Nat} {segs pre left right post : List Seg} {b M : Seg}

theorem free_eq (hi : Inv k.heap k.mem base segs) (hb : b ∈ segs) :
    k.free (b.addr + sizeofHeader) =
      (contractEnd { k with
          heap := (k.heap.join k.mem b.addr b.footer).2.1
          mem := (k.heap.join k.mem b.addr b.footer).2.2 } (k.heap.join k.mem b.addr b.footer).1).map fun k' =>
        if (k.heap.join k.mem b.addr b.footer).1.doAdd then
          { k' with
            heap := { k'.heap with index := (k'.heap.index.insert (headerLessThan k'.mem) k'.mem
              (k.heap.join k.mem b.addr b.footer).1.header).1 }
            mem := (k'.heap.index.insert (headerLessThan k'.mem) k'.mem
              (k.heap.join k.mem b.addr b.footer).1.header).2 }
        else k' := by
  have hw := hi.within b hb
  have hr := b.room
  have hne : b.addr + sizeofHeader ≠ 0 := by unfold sizeofHeader; bv_omega
  have hsub : b.addr + sizeofHeader - sizeofHeader = b.addr := by unfold sizeofHeader; bv_omega
  unfold free
  rw [if_neg hne]
  simp only [hsub, (hi.header b hb).2.2, Heap.join, Seg.footer]
  rfl

theorem join_end (hi : Inv k.heap k.mem base (pre ++ (left ++ b :: right) ++ post))
    (hc : Cuts M.addr.toNat (M.addr.toNat + M.size.toNat) (left ++ b :: right)) :
    M.footer + sizeofFooter = k.heap.endAddress ↔ post = [] := by
  obtain ⟨-, hpost⟩ := hi.cut.around hc (by simp)
  have hle := hpost.le
  have hlt := k.heap.endAddress.isLt
  rw [behind_eq]
  constructor
  · intro he
    have := congrArg BitVec.toNat he
    rw [toNat_behind (by omega)] at this
    rw [this] at hpost
    exact hpost.eq_nil
  · rintro rfl
    simp only [cuts_nil] at hpost
    exact BitVec.eq_of_toNat_eq (by rw [toNat_behind (by omega)]; omega)

theorem free_joined (hi : Inv k.heap k.mem base segs) (ha : Around k.mem segs b pre left right post)
    (hb : b.hole = false)
    (hpost : post ≠ []) : ∃ f i m' M,
      Joined k.heap k.mem base b pre left right post (f, { k.heap with index := i }, m') M ∧
      i.items m' = (k.heap.index.items k.mem).diff (right.map (·.addr)) ∧
      k.free (b.addr + sizeofHeader) = some (if f.doAdd then
          { k with
            heap := { k.heap with index := (i.insert (headerLessThan m') m' M.addr).1 }
            mem := (i.insert (headerLessThan m') m' M.addr).2 }
        else { k with heap := { k.heap with index := i }, mem := m' }) := by
  obtain ⟨M, hj, hitems⟩ := join_spec hi ha hb
  have hinv : Inv k.heap k.mem base (pre ++ (left ++ b :: right) ++ post) := by rw [← ha.split]; exact hi
  have hfree := free_eq hi (b := b) (by rw [ha.split]; simp)
  generalize k.heap.join k.mem b.addr b.footer = r at hj hitems hfree
  obtain ⟨f, h', m'⟩ := r
  obtain ⟨i, hh, -⟩ := hj.heap
  simp only at hh hfree
  subst hh
  have hend : ¬ f.footer + sizeofFooter = k.heap.endAddress := by
    rw [show f.footer = M.footer from hj.merged.footer]
    exact fun he => hpost ((join_end hinv hj.cut).1 he)
  unfold contractEnd at hfree
  simp only [if_neg hend, Option.map_some, show f.header = M.addr from hj.merged.header] at hfree
  exact ⟨f, i, m', M, hj, hitems, hfree⟩

/-- **`Free` of a block that does not reach the end**, nor with a hole on its right. -/
theorem free_inside (hi : Inv k.heap k.mem base segs) (ha : Around k.mem segs b pre left right post)
    (hb : b.hole = false)
    (hpost : post ≠ [])
    (hroom : left = [] → right = [] → k.heap.index.size.toNat < heapIndexSize.toNat) :
    ∃ k' M, k.free (b.addr + sizeofHeader) = some k' ∧ Released k base pre left b right post k' M := by
  obtain ⟨f, i, m', M, hj, -, hfree⟩ := free_joined hi ha hb hpost
  have hinv : Inv k.heap k.mem base (pre ++ (left ++ b :: right) ++ post) := by rw [← ha.split]; exact hi
  have hM := hj.merged
  obtain ⟨j, hh, hie, his⟩ := hj.heap
  obtain rfl : i = j := congrArg Heap.index hh
  have hMr := M.room
  have hcut : Cuts base k.heap.endAddress.toNat (pre ++ [M] ++ post) :=
    hinv.cut.replace hj.cut (by simp) ⟨rfl, by simp only [Seg.len_eq]; omega, rfl⟩
  refine ⟨_, M, hfree, ?_⟩
  cases hd : f.doAdd with
  | false => exact ⟨rfl, ⟨rfl, rfl⟩, hM.hole, hj.tied, hj.cut, hM.inv_listed hcut hd, hj.frame⟩
  | true =>
    have hl : left = [] := by have := hj.doAdd; simp only [hd] at this; simpa using this.symm
    have hroom' := join_room hi ha his (hroom hl)
    simp only [if_true]
    refine ⟨rfl, ⟨rfl, rfl⟩, hM.hole, hj.tied, hj.cut, hM.inv_loose hcut hd hroom', ?_⟩
    exact hj.frame.trans (g := { k.heap with index := i }) (untouched_index (OrderedList.keeps_insert _ _ _
      (by have := (hM.loose hd).below; have := (hM.loose hd).low; simp only at *; omega) hroom')) hie

/-- With nothing to join, the index takes one more header. -/
theorem free_index_size (hi : Inv k.heap k.mem base segs) (ha : Around k.mem segs b pre [] [] post)
    (hb : b.hole = false)
    (hpost : post ≠ []) :
    ∃ k', k.free (b.addr + sizeofHeader) = some k' ∧ k'.heap.index.size = k.heap.index.size + 1 := by
  obtain ⟨f, i, m', M, hj, -, hfree⟩ := free_joined hi ha hb hpost
  obtain ⟨j, hh, -, his⟩ := hj.heap
  obtain rfl : i = j := congrArg Heap.index hh
  rw [if_pos (show f.doAdd = true from hj.doAdd)] at hfree
  exact ⟨_, hfree, by simp only [OrderedList.insert_fst]; rw [his, if_pos rfl]⟩

end Kernel

end Loris
