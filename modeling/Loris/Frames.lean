import Loris.ByteMem
/-!
# Frames — the frame bitmap and page entries (`paging.h`, `paging.cpp` lines 18 to 99)

`frames` is an array of 32-bit words, one bit a frame; a page entry records the frame it holds in its 20-bit `Frame`
field, zero standing for none.  `set_frame`, `clear_frame` and `test_frame` take the frame's address; `free_frame`
hands `clear_frame` the frame's number.
-/
namespace Loris

open ByteMem

/-- `struct Page`, field by field. -/
structure Page where
  present : Bool
  readWrite : Bool
  user : Bool
  accessed : Bool
  dirty : Bool
  unused : BitVec 7
  frame : BitVec 20
  deriving DecidableEq

/-- The entry `memset` leaves. -/
def Page.zero : Page := ⟨false, false, false, false, false, 0, 0⟩

/-- The globals `nframes` and `frames`. -/
structure Frames where
  nframes : U32
  words : Nat → U32

/-- `INDEX_FROM_BIT`. -/
def indexFromBit (a : U32) : U32 := a / (8 * 4)

/-- `OFFSET_FROM_BIT`. -/
def offsetFromBit (a : U32) : U32 := a % (8 * 4)

namespace Frames

def setWord (b : Frames) (i : Nat) (v : U32) : Frames := { b with words := fun k => if k = i then v else b.words k }

def setFrame (b : Frames) (frame_addr : U32) : Frames :=
  let frame := frame_addr / 0x1000
  let idx := (indexFromBit frame).toNat
  let off := (offsetFromBit frame).toNat
  b.setWord idx (b.words idx ||| (0x1#32 <<< off))

def clearFrame (b : Frames) (frame_addr : U32) : Frames :=
  let frame := frame_addr / 0x1000
  let idx := (indexFromBit frame).toNat
  let off := (offsetFromBit frame).toNat
  b.setWord idx (b.words idx &&& ~~~(0x1#32 <<< off))

def testFrame (b : Frames) (frame_addr : U32) : U32 :=
  let frame := frame_addr / 0x1000
  let idx := (indexFromBit frame).toNat
  let off := (offsetFromBit frame).toNat
  b.words idx &&& (0x1#32 <<< off)

/-- The inner loop of `first_frame`: the first clear bit of a word from bit `j` on, `k` bits left. -/
def firstBit (w : U32) : Nat → Nat → Option Nat
  | 0, _ => none
  | k + 1, j => if w &&& (0x1#32 <<< j) = 0 then some j else firstBit w k (j + 1)

/-- The outer loop of `first_frame` from word `i` on, `k` words left. -/
def firstFrom (b : Frames) : Nat → Nat → Option U32
  | 0, _ => none
  | k + 1, i =>
    if b.words i ≠ 0xFFFFFFFF then
      match firstBit (b.words i) 32 0 with
      | some j => some (BitVec.ofNat 32 i * 4 * 8 + BitVec.ofNat 32 j)
      | none => firstFrom b k (i + 1)
    else firstFrom b k (i + 1)

/-- `first_frame`.  `none`: every scanned bit is set and control runs off the end of the function, which has no
`return` there. -/
def firstFrame (b : Frames) : Option U32 := b.firstFrom (indexFromBit b.nframes).toNat 0

/-- `alloc_frame` on one page entry.  `none`: `first_frame` returned nothing, or `(uint32_t)-1`, on which the function
prints and spins for ever. -/
def allocFrame (b : Frames) (page : Page) (isKernel isWritable : Bool) : Option (Frames × Page) :=
  if page.frame ≠ 0 then some (b, page)
  else
    match b.firstFrame with
    | none => none
    | some idx =>
      if idx = 0xFFFFFFFF then none
      else some (b.setFrame (idx * 0x1000),
        { page with
          present := true
          readWrite := isWritable
          user := !isKernel
          frame := idx.setWidth 20 })

/-- `free_frame` on one page entry.  `clear_frame` is given the frame number, and `Present` is left as it was. -/
def freeFrame (b : Frames) (page : Page) : Frames × Page :=
  if page.frame = 0 then (b, page)
  else (b.clearFrame (page.frame.setWidth 32), { page with frame := 0 })

/-! ## The bitmap as bits -/

/-- Bit `f` of the bitmap. -/
def bit (b : Frames) (f : Nat) : Bool := (b.words (f / 32)).getLsbD (f % 32)

/-- The number of frames `first_frame` looks at: `nframes` rounded down to whole words. -/
def scanned (b : Frames) : Nat := 32 * (indexFromBit b.nframes).toNat

theorem getLsbD_one_shiftLeft (off j : Nat) (hj : j < 32) :
    ((0x1#32) <<< off).getLsbD j = decide (j = off) := by
  simp only [BitVec.getLsbD_shiftLeft, hj, decide_true, Bool.true_and, BitVec.getLsbD_one]
  by_cases h : j = off
  · subst h; simp
  · by_cases h2 : j < off
    · simp [h, h2]
    · have : ¬ j - off = 0 := by omega
      simp [h, this]

theorem toNat_index (f : U32) : (indexFromBit f).toNat = f.toNat / 32 := by
  simp [indexFromBit, BitVec.toNat_udiv]

theorem toNat_offset (f : U32) : (offsetFromBit f).toNat = f.toNat % 32 := by
  simp [offsetFromBit, BitVec.toNat_umod]

theorem toNat_page (a : U32) : (a / 0x1000).toNat = a.toNat / 0x1000 := by simp [BitVec.toNat_udiv]

/-- **`set_frame` sets the bit of its address's frame and no other.** -/
theorem bit_setFrame (b : Frames) (a : U32) (f : Nat) :
    (b.setFrame a).bit f = (b.bit f || decide (f = a.toNat / 0x1000)) := by
  unfold setFrame setWord bit
  simp only [toNat_index, toNat_offset, toNat_page]
  by_cases hw : f / 32 = a.toNat / 0x1000 / 32
  · rw [if_pos hw, ← hw, BitVec.getLsbD_or, getLsbD_one_shiftLeft _ _ (by omega)]
    congr 1
    exact decide_eq_decide.2 (by omega)
  · rw [if_neg hw]
    have : ¬ f = a.toNat / 0x1000 := fun h => hw (by rw [h])
    simp [this]

theorem and_one_shiftLeft_eq_zero (w : U32) {j : Nat} (hj : j < 32) :
    w &&& (0x1#32 <<< j) = 0 ↔ w.getLsbD j = false := by
  constructor
  · intro h
    have := congrArg (fun v => v.getLsbD j) h
    simpa [BitVec.getLsbD_and, getLsbD_one_shiftLeft j j hj] using this
  · intro h
    apply BitVec.eq_of_getLsbD_eq
    intro i hi
    rw [BitVec.getLsbD_and, getLsbD_one_shiftLeft j i hi]
    by_cases hij : i = j
    · subst hij; simp [h]
    · simp [hij]

theorem firstBit_spec (w : U32) : ∀ (k j r : Nat), j + k ≤ 32 → firstBit w k j = some r →
    r < j + k ∧ w.getLsbD r = false ∧ ∀ i, j ≤ i → i < r → w.getLsbD i = true
  | 0, _, _, _, h => by cases h
  | k + 1, j, r, hk, h => by
    unfold firstBit at h
    by_cases hb : w &&& (0x1#32 <<< j) = 0
    · rw [if_pos hb] at h
      obtain rfl := Option.some.inj h
      exact ⟨by omega, (and_one_shiftLeft_eq_zero w (by omega)).1 hb, by omega⟩
    · rw [if_neg hb] at h
      obtain ⟨h1, h2, h3⟩ := firstBit_spec w k (j + 1) r (by omega) h
      refine ⟨by omega, h2, fun i hi hir => ?_⟩
      by_cases hij : i = j
      · subst hij
        rw [and_one_shiftLeft_eq_zero w (by omega)] at hb
        simpa using hb
      · exact h3 i (by omega) hir

theorem firstBit_none (w : U32) : ∀ (k j : Nat), j + k ≤ 32 → firstBit w k j = none →
    ∀ i, j ≤ i → i < j + k → w.getLsbD i = true
  | 0, _, _, _, _, _, _ => by omega
  | k + 1, j, hk, h, i, hi, hik => by
    unfold firstBit at h
    by_cases hb : w &&& (0x1#32 <<< j) = 0
    · rw [if_pos hb] at h; cases h
    · rw [if_neg hb] at h
      by_cases hij : i = j
      · subst hij
        rw [and_one_shiftLeft_eq_zero w (by omega)] at hb
        simpa using hb
      · exact firstBit_none w k (j + 1) (by omega) h i (by omega) (by omega)

theorem firstBit_some_of_ne (w : U32) (h : w ≠ 0xFFFFFFFF) : ∃ j, firstBit w 32 0 = some j := by
  cases hf : firstBit w 32 0 with
  | some j => exact ⟨j, rfl⟩
  | none =>
    refine absurd ?_ h
    apply BitVec.eq_of_getLsbD_eq
    intro i hi
    rw [firstBit_none w 32 0 (by omega) hf i (by omega) (by omega)]
    rw [show (0xFFFFFFFF : U32) = BitVec.allOnes 32 from rfl, BitVec.getLsbD_allOnes]
    simp [hi]

theorem firstFrom_spec (b : Frames) : ∀ (k i : Nat) (idx : U32), i + k ≤ 2 ^ 27 → b.firstFrom k i = some idx →
    32 * i ≤ idx.toNat ∧ idx.toNat < 32 * (i + k) ∧ b.bit idx.toNat = false ∧
      ∀ f, 32 * i ≤ f → f < idx.toNat → b.bit f = true
  | 0, _, _, _, h => by cases h
  | k + 1, i, idx, hk, h => by
    unfold firstFrom at h
    by_cases hw : b.words i ≠ 0xFFFFFFFF
    · rw [if_pos hw] at h
      obtain ⟨j, hj⟩ := firstBit_some_of_ne _ hw
      rw [hj] at h
      simp only [Option.some.injEq] at h
      obtain ⟨h1, h2, h3⟩ := firstBit_spec _ 32 0 j (by omega) hj
      have hidx : idx.toNat = 32 * i + j := by
        rw [← h]
        simp [BitVec.toNat_add, BitVec.toNat_mul]
        omega
      have hbit : ∀ r, r < 32 → b.bit (32 * i + r) = (b.words i).getLsbD r := by
        intro r hr
        unfold bit
        rw [show (32 * i + r) / 32 = i by omega, show (32 * i + r) % 32 = r by omega]
      refine ⟨by omega, by omega, by rw [hidx, hbit j (by omega), h2], fun f hf hlt => ?_⟩
      obtain ⟨r, rfl⟩ := Nat.exists_eq_add_of_le hf
      rw [hbit r (by omega)]
      exact h3 r (by omega) (by omega)
    · rw [if_neg hw] at h
      obtain ⟨h1, h2, h3, h4⟩ := firstFrom_spec b k (i + 1) idx (by omega) h
      refine ⟨by omega, by omega, h3, fun f hf hlt => ?_⟩
      by_cases hfi : f < 32 * (i + 1)
      · unfold bit
        have hall : b.words i = BitVec.allOnes 32 := by simpa using hw
        rw [show f / 32 = i by omega, hall, BitVec.getLsbD_allOnes]
        simp; omega
      · exact h4 f (by omega) hlt

/-- **A frame `first_frame` returns is the least clear one**, and one it looks at. -/
theorem firstFrame_spec {b : Frames} {idx : U32} (h : b.firstFrame = some idx) :
    idx.toNat < b.scanned ∧ b.bit idx.toNat = false ∧ ∀ f, f < idx.toNat → b.bit f = true := by
  have hn := toNat_index b.nframes
  have := b.nframes.isLt
  obtain ⟨-, h2, h3, h4⟩ := firstFrom_spec b _ 0 idx (by omega) h
  unfold scanned
  exact ⟨by omega, h3, fun f hf => h4 f (by omega) hf⟩

/-! ## Free frames -/

/-- The number of clear bits `first_frame` looks at. -/
def free (b : Frames) : Nat := (List.range b.scanned).countP fun f => !b.bit f

theorem firstFrom_none (b : Frames) : ∀ (k i : Nat), b.firstFrom k i = none → ∀ f, 32 * i ≤ f → f < 32 * (i + k) →
    b.bit f = true
  | 0, _, _, _, _, _ => by omega
  | k + 1, i, h, f, hf, hlt => by
    unfold firstFrom at h
    by_cases hw : b.words i ≠ 0xFFFFFFFF
    · rw [if_pos hw] at h
      obtain ⟨j, hj⟩ := firstBit_some_of_ne _ hw
      rw [hj] at h
      cases h
    · rw [if_neg hw] at h
      by_cases hfi : f < 32 * (i + 1)
      · unfold bit
        have hall : b.words i = BitVec.allOnes 32 := by simpa using hw
        rw [show f / 32 = i by omega, hall, BitVec.getLsbD_allOnes]
        simp; omega
      · exact firstFrom_none b k (i + 1) h f (by omega) (by omega)

theorem firstFrame_of_free {b : Frames} (h : 0 < b.free) : ∃ idx, b.firstFrame = some idx := by
  cases hf : b.firstFrame with
  | some idx => exact ⟨idx, rfl⟩
  | none =>
    obtain ⟨f, hf1, hf2⟩ := List.countP_pos_iff.1 h
    have := firstFrom_none b _ 0 hf f (by omega) (by simpa [scanned] using hf1)
    simp [this] at hf2

theorem countP_setFrame (b : Frames) (a : U32) : ∀ {l : List Nat}, l.Nodup →
    (l.countP fun f => !b.bit f) ≤ (l.countP fun f => !(b.setFrame a).bit f) + 1
  | [], _ => by simp
  | f :: l, hnd => by
    rw [List.nodup_cons] at hnd
    have ih := countP_setFrame b a hnd.2
    simp only [List.countP_cons, bit_setFrame]
    by_cases hfa : f = a.toNat / 0x1000
    · -- every other frame of the list is untouched
      have hrest : l.countP (fun f => !(b.setFrame a).bit f) = l.countP (fun f => !b.bit f) :=
        List.countP_congr fun g hg => by
          have hne : g ≠ a.toNat / 0x1000 := fun h => hnd.1 (by rw [hfa, ← h]; exact hg)
          rw [bit_setFrame]; simp [hne]
      rw [← hrest]
      simp only [bit_setFrame]
      split <;> omega
    · simp only [bit_setFrame] at ih
      simp only [hfa, decide_false, Bool.or_false]
      omega

theorem free_setFrame (b : Frames) (a : U32) : b.free ≤ (b.setFrame a).free + 1 :=
  countP_setFrame b a List.nodup_range

/-- **While a frame is free `alloc_frame` returns**, and takes at most one. -/
theorem allocFrame_of_free {b : Frames} (page : Page) (isKernel isWritable : Bool) (h : 0 < b.free) :
    ∃ r, b.allocFrame page isKernel isWritable = some r ∧ b.free ≤ r.1.free + 1 := by
  unfold allocFrame
  by_cases hp : page.frame ≠ 0
  · rw [if_pos hp]; exact ⟨_, rfl, Nat.le_succ _⟩
  · rw [if_neg hp]
    obtain ⟨idx, hidx⟩ := firstFrame_of_free h
    have hlt := (firstFrame_spec hidx).1
    have hne : idx ≠ 0xFFFFFFFF := fun he => by
      have := b.nframes.isLt
      unfold scanned at hlt
      rw [toNat_index, he] at hlt
      simp at hlt; omega
    simp only [hidx, if_neg hne]
    exact ⟨_, rfl, free_setFrame b _⟩

theorem scanned_le (b : Frames) : b.scanned ≤ b.nframes.toNat := by
  unfold scanned; rw [toNat_index]; omega

end Frames
end Loris
