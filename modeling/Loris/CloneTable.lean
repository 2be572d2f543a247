import Loris.Cloning
import Loris.FrameSet
/-!
# CloneTable — what `clone_table` makes of a page table

`EntriesCloned` says what the loop of `clone_table` leaves: each entry whose source holds a frame has a new one, and
nothing else is touched.  The flags of such an entry are those of its source and what `alloc_frame` sets, so that the
flags are copied only where these two are set already (`clone_table_flags`).
-/
namespace Loris

open ByteMem

/-- The number of clear bits among the first `M`. -/
def Frames.freeBelow (b : Frames) (M : Nat) : Nat := (List.range M).countP fun f => !b.bit f

theorem Frames.freeBelow_setFrame (b : Frames) (a : U32) (M : Nat) : b.freeBelow M ≤ (b.setFrame a).freeBelow M + 1 :=
  countP_setFrame b a List.nodup_range

namespace Kernel

/-- The entry `i` of the table `t` holds a frame. -/
def Holds (k : Kernel) (t : U32) (i : Nat) : Prop := (k.page ⟨t, i⟩).frame ≠ 0

instance (k : Kernel) (t : U32) (i : Nat) : Decidable (k.Holds t i) := inferInstanceAs (Decidable (_ ≠ _))

/-- How many of the `n` entries from `i` on hold a frame. -/
def pages (k : Kernel) (t : U32) (n i : Nat) : Nat := (List.range' i n).countP fun j => k.Holds t j

variable {k k' : Kernel} {table src : U32} {M n i : Nat}

theorem pages_succ : k.pages src (n + 1) i = (if k.Holds src i then 1 else 0) + k.pages src n (i + 1) := by
  unfold pages
  rw [List.range'_succ, List.countP_cons, Nat.add_comm]
  simp only [decide_eq_true_eq]

theorem pages_congr (h : ∀ j, i ≤ j → j < i + n → k'.page ⟨src, j⟩ = k.page ⟨src, j⟩) :
    k'.pages src n i = k.pages src n i :=
  List.countP_congr fun j hj => by
    obtain ⟨hlo, hhi⟩ := List.mem_range'_1.1 hj
    simp only [decide_eq_true_eq]
    unfold Holds
    rw [h j hlo hhi]

theorem allocFrame_free {p : PagePtr} (hM : M ≤ k.frames.scanned) (hfree : 0 < k.frames.freeBelow M)
    (hp : (k.page p).frame = 0) (a b : Bool) : ∃ idx : U32, idx.toNat < M ∧ k.frames.bit idx.toNat = false ∧
      k.allocFrame p a b = some { k.setPage p { k.page p with
        present := true
        readWrite := b
        user := !a
        frame := idx.setWidth 20 } with frames := k.frames.setFrame (idx * 0x1000) } := by
  obtain ⟨f, hf, hb⟩ := List.countP_pos_iff.1 hfree
  rw [List.mem_range] at hf
  obtain ⟨idx, hidx, -, hbit, hmin⟩ := Frames.firstFrame_least (Nat.lt_of_lt_of_le hf hM) (by simpa using hb)
  refine ⟨idx, Nat.lt_of_le_of_lt (Nat.le_of_not_lt fun hlt => ?_) hf, hbit, ?_⟩
  · rw [hmin f hlt] at hb
    simp at hb
  · unfold allocFrame
    rw [Frames.allocFrame_taken hp hidx, Option.map_some]

/-- The entry of a clone whose source is `p`. -/
def cloneOf (p : Page) (frame : BitVec 20) : Page :=
  cloneFlags p { Page.zero with present := true, user := true, frame := frame }

/-- **What the loop of `clone_table` leaves** of `n` entries from `i` on: `idx j` is the frame that entry `j` got, one
of the first `M`. -/
structure EntriesCloned (M : Nat) (table src : U32) (n i : Nat) (k k' : Kernel) (idx : Nat → U32) : Prop where
  same : SameButPages k k'
  nframes : k'.frames.nframes = k.frames.nframes
  other : ∀ q, ¬ (q.table = table ∧ i ≤ q.index ∧ q.index < i + n ∧ k.Holds src q.index) → k'.page q = k.page q
  entry : ∀ j, i ≤ j → j < i + n → k.Holds src j →
    k'.page ⟨table, j⟩ = cloneOf (k.page ⟨src, j⟩) ((idx j).setWidth 20)
  free : ∀ j, i ≤ j → j < i + n → k.Holds src j → (idx j).toNat < M ∧ k.frames.bit (idx j).toNat = false
  bits : ∀ f, k'.frames.bit f = true ↔ k.frames.bit f = true ∨
    ∃ j, i ≤ j ∧ j < i + n ∧ k.Holds src j ∧ f = (idx j * 0x1000).toNat / 0x1000
  distinct : M ≤ 2 ^ 20 → ∀ j l, i ≤ j → j < l → l < i + n → k.Holds src j → k.Holds src l → idx j ≠ idx l
  enough : k.frames.freeBelow M ≤ k'.frames.freeBelow M + k.pages src n i

/-- The copies of the entries. -/
def copiesOf (table src : U32) (k : Kernel) (l : List Nat) : List (U32 × U32) :=
  (l.filter fun j => k.Holds src j).map fun j => (frameAddress (k.page ⟨src, j⟩), frameAddress (k.page ⟨table, j⟩))

/-- **An entry whose source holds a frame.** -/
theorem cloneEntries_step (hne : src ≠ table) (hM : M ≤ k.frames.scanned) (hzero : k.page ⟨table, i⟩ = Page.zero)
    (hfree : 0 < k.frames.freeBelow M) (h : k.Holds src i) : ∃ (k₁ : Kernel) (idx : U32),
      idx.toNat < M ∧ k.frames.bit idx.toNat = false ∧ SameButPages k k₁ ∧
      k₁.frames = k.frames.setFrame (idx * 0x1000) ∧ (∀ q, q ≠ ⟨table, i⟩ → k₁.page q = k.page q) ∧
      k₁.page ⟨table, i⟩ = cloneOf (k.page ⟨src, i⟩) (idx.setWidth 20) ∧
      cloneEntries table src (n + 1) i k = (cloneEntries table src n (i + 1) k₁).map fun r =>
        ((frameAddress (k₁.page ⟨src, i⟩), frameAddress (k₁.page ⟨table, i⟩)) :: r.1, r.2) := by
  obtain ⟨idx, hlt, hbit, halloc⟩ := allocFrame_free (p := ⟨table, i⟩) hM hfree (by rw [hzero]; rfl) false false
  have hptr : (⟨src, i⟩ : PagePtr) ≠ ⟨table, i⟩ := fun he => hne (congrArg PagePtr.table he)
  obtain ⟨k₀, hk₀⟩ : ∃ k₀, k₀ = { k.setPage ⟨table, i⟩ { k.page ⟨table, i⟩ with
        present := true
        readWrite := false
        user := true
        frame := idx.setWidth 20 } with frames := k.frames.setFrame (idx * 0x1000) } := ⟨_, rfl⟩
  have hsrc : k₀.page ⟨src, i⟩ = k.page ⟨src, i⟩ := by
    rw [hk₀]
    exact (page_setPage ..).trans (if_neg hptr)
  have htable : k₀.page ⟨table, i⟩ = { Page.zero with present := true, user := true, frame := idx.setWidth 20 } := by
    rw [hk₀]
    refine ((page_setPage ..).trans (if_pos rfl)).trans ?_
    rw [hzero]
    rfl
  refine ⟨k₀.setPage ⟨table, i⟩ (cloneOf (k.page ⟨src, i⟩) (idx.setWidth 20)), idx, hlt, hbit, ?_, ?_, fun q hq => ?_,
    (page_setPage ..).trans (if_pos rfl), ?_⟩
  · rw [hk₀]
    rfl
  · rw [hk₀]
    rfl
  · rw [page_setPage, if_neg hq, hk₀]
    exact (page_setPage ..).trans (if_neg hq)
  · rw [cloneEntries, if_neg h, halloc, Option.bind_some]
    simp only [Bool.not_false]
    rw [← hk₀, hsrc, htable]
    rfl

theorem EntriesCloned.nil (M : Nat) (table src : U32) (i : Nat) (k : Kernel) :
    EntriesCloned M table src 0 i k k fun _ => 0 where
  same := rfl
  nframes := rfl
  other _ _ := rfl
  entry j hlo hhi := by omega
  free j hlo hhi := by omega
  bits f := ⟨Or.inl, fun h => h.resolve_right fun ⟨j, hlo, hhi, _⟩ => by omega⟩
  distinct _ j l hlo hjl hhi := by omega
  enough := Nat.le_refl _

theorem toNat_frame {idx : U32} (h : idx.toNat < 2 ^ 20) : (idx * 0x1000).toNat / 0x1000 = idx.toNat := by
  rw [BitVec.toNat_mul, show (0x1000 : U32).toNat = 0x1000 from rfl]
  omega

theorem EntriesCloned.skip {idx : Nat → U32} (h0 : ¬ k.Holds src i) (h : EntriesCloned M table src n (i + 1) k k' idx) :
    EntriesCloned M table src (n + 1) i k k' idx := by
  have hlift : ∀ {j}, i ≤ j → k.Holds src j → i + 1 ≤ j := fun hlo hj =>
    Nat.lt_of_le_of_ne hlo fun he => h0 (he ▸ hj)
  refine ⟨h.same, h.nframes, fun q hq => h.other q fun ⟨ht, hlo, hhi, hh⟩ => hq ⟨ht, by omega, by omega, hh⟩,
    fun j hlo hhi hj => h.entry j (hlift hlo hj) (by omega) hj,
    fun j hlo hhi hj => h.free j (hlift hlo hj) (by omega) hj,
    fun f => (h.bits f).trans (or_congr_right ⟨fun ⟨j, hlo, hhi, hj, hf⟩ => ⟨j, by omega, by omega, hj, hf⟩,
      fun ⟨j, hlo, hhi, hj, hf⟩ => ⟨j, hlift hlo hj, by omega, hj, hf⟩⟩),
    fun hM j l hlo hjl hhi hj hl => h.distinct hM j l (hlift hlo hj) hjl (by omega) hj hl, ?_⟩
  rw [pages_succ, if_neg h0, Nat.zero_add]
  exact h.enough

theorem EntriesCloned.cons {k₁ : Kernel} {x : U32} {idx : Nat → U32} (hne : src ≠ table) (h0 : k.Holds src i)
    (hx : x.toNat < M ∧ k.frames.bit x.toNat = false) (hs : SameButPages k k₁)
    (hf : k₁.frames = k.frames.setFrame (x * 0x1000)) (ho : ∀ q, q ≠ ⟨table, i⟩ → k₁.page q = k.page q)
    (he : k₁.page ⟨table, i⟩ = cloneOf (k.page ⟨src, i⟩) (x.setWidth 20))
    (h : EntriesCloned M table src n (i + 1) k₁ k' idx) :
    EntriesCloned M table src (n + 1) i k k' fun j => if j = i then x else idx j := by
  have hsrc : ∀ j, k₁.page ⟨src, j⟩ = k.page ⟨src, j⟩ := fun j => ho _ fun he => hne (congrArg PagePtr.table he)
  have hholds : ∀ j, k₁.Holds src j ↔ k.Holds src j := fun j => by
    unfold Holds
    rw [hsrc]
  have hbits : ∀ f, k₁.frames.bit f = true ↔ k.frames.bit f = true ∨ f = (x * 0x1000).toNat / 0x1000 := fun f => by
    rw [hf, Frames.bit_setFrame, Bool.or_eq_true, decide_eq_true_eq]
  refine ⟨hs.trans h.same, h.nframes.trans (by rw [hf]; rfl), fun q hq => ?_, fun j hlo hhi hj => ?_,
    fun j hlo hhi hj => ?_, fun f => ?_, fun hM j l hlo hjl hhi hj hl => ?_, ?_⟩
  · rw [h.other q fun ⟨ht, hlo, hhi, hh⟩ => hq ⟨ht, by omega, by omega, (hholds _).1 hh⟩]
    exact ho q fun hqe => hq (by rw [hqe]; exact ⟨rfl, Nat.le_refl i, Nat.lt_add_of_pos_right (Nat.succ_pos n), h0⟩)
  · by_cases hji : j = i
    · subst hji
      rw [if_pos rfl, ← he]
      exact h.other _ fun ⟨_, hlo, _⟩ => absurd hlo (Nat.not_succ_le_self _)
    · rw [if_neg hji, ← hsrc]
      exact h.entry j (by omega) (by omega) ((hholds j).2 hj)
  · by_cases hji : j = i
    · rw [if_pos hji]
      exact hx
    · rw [if_neg hji]
      obtain ⟨hlt, hbit⟩ := h.free j (by omega) (by omega) ((hholds j).2 hj)
      refine ⟨hlt, Bool.eq_false_iff.2 fun hb => ?_⟩
      rw [(hbits _).2 (Or.inl hb)] at hbit
      cases hbit
  · rw [h.bits f, hbits f, or_assoc]
    refine or_congr_right ⟨?_, ?_⟩
    · rintro (hf | ⟨j, hlo, hhi, hj, hf⟩)
      · exact ⟨i, Nat.le_refl i, by omega, h0, by rw [if_pos rfl, hf]⟩
      · exact ⟨j, by omega, by omega, (hholds j).1 hj, by rw [if_neg (by omega), hf]⟩
    · rintro ⟨j, hlo, hhi, hj, hf⟩
      by_cases hji : j = i
      · exact Or.inl (by rw [hf, if_pos hji])
      · exact Or.inr ⟨j, by omega, by omega, (hholds j).2 hj, by rw [hf, if_neg hji]⟩
  · rw [if_neg (show l ≠ i by omega)]
    by_cases hji : j = i
    · rw [if_pos hji]
      -- the frame of entry `i` is marked by the time that entry `l` gets one
      intro hxl
      obtain ⟨-, hbit⟩ := h.free l (by omega) (by omega) ((hholds l).2 hl)
      rw [← hxl, (hbits _).2 (Or.inr (toNat_frame (Nat.lt_of_lt_of_le hx.1 hM)).symm)] at hbit
      cases hbit
    · rw [if_neg hji]
      exact h.distinct hM j l (by omega) hjl (by omega) ((hholds j).2 hj) ((hholds l).2 hl)
  · have h1 := k.frames.freeBelow_setFrame (x * 0x1000) M
    have h2 := h.enough
    rw [hf] at h2
    rw [pages_succ, if_pos h0]
    rw [pages_congr fun j _ _ => hsrc j] at h2
    omega

theorem EntriesCloned.source {idx : Nat → U32} (hne : src ≠ table) (h : EntriesCloned M table src n i k k' idx)
    (j : Nat) :
    k'.page ⟨src, j⟩ = k.page ⟨src, j⟩ :=
  h.other _ fun hq => hne hq.1

theorem EntriesCloned.holds {idx : Nat → U32} (hne : src ≠ table) (h : EntriesCloned M table src n i k k' idx)
    (j : Nat) :
    k'.Holds src j ↔ k.Holds src j := by
  unfold Holds
  rw [h.source hne]

/-- **The loop of `clone_table`**, while frames are free for the entries that it clones. -/
theorem cloneEntries_spec (hne : src ≠ table) : ∀ {n i : Nat} {k : Kernel}, M ≤ k.frames.scanned →
    (∀ j, i ≤ j → j < i + n → k.page ⟨table, j⟩ = Page.zero) → k.pages src n i ≤ k.frames.freeBelow M →
    ∃ k' idx, EntriesCloned M table src n i k k' idx ∧
      cloneEntries table src n i k = some (copiesOf table src k' (List.range' i n), k')
  | 0, i, k, _, _, _ => ⟨k, fun _ => 0, .nil M table src i k, rfl⟩
  | n + 1, i, k, hM, hzero, henough => by
    rw [pages_succ] at henough
    by_cases h0 : k.Holds src i
    · rw [if_pos h0] at henough
      obtain ⟨k₁, x, hlt, hbit, hs, hf, ho, he, hrun⟩ :=
        cloneEntries_step (n := n) hne hM (hzero i (Nat.le_refl i) (by omega)) (by omega) h0
      have hsrc : ∀ j, k₁.page ⟨src, j⟩ = k.page ⟨src, j⟩ := fun j => ho _ fun he => hne (congrArg PagePtr.table he)
      have hM₁ : M ≤ k₁.frames.scanned := by
        rw [hf]
        exact hM
      have hzero₁ : ∀ j, i + 1 ≤ j → j < i + 1 + n → k₁.page ⟨table, j⟩ = Page.zero := fun j hlo hhi => by
        rw [ho _ fun he => by cases he; omega]
        exact hzero j (by omega) (by omega)
      have henough₁ : k₁.pages src n (i + 1) ≤ k₁.frames.freeBelow M := by
        have := k.frames.freeBelow_setFrame (x * 0x1000) M
        rw [pages_congr fun j _ _ => hsrc j, hf]
        omega
      obtain ⟨k', idx, hc, hrun'⟩ := cloneEntries_spec hne hM₁ hzero₁ henough₁
      have hc' := hc.cons hne h0 ⟨hlt, hbit⟩ hs hf ho he
      refine ⟨k', _, hc', ?_⟩
      have hkeep : k'.page ⟨table, i⟩ = k₁.page ⟨table, i⟩ :=
        hc.other _ fun hq => absurd hq.2.1 (Nat.not_succ_le_self i)
      rw [hrun, hrun', Option.map_some]
      unfold copiesOf
      rw [List.range'_succ, List.filter_cons, if_pos (decide_eq_true ((hc'.holds hne i).2 h0)), List.map_cons, hkeep,
        hc.source hne]
    · rw [if_neg h0, Nat.zero_add] at henough
      obtain ⟨k', idx, hc, hrun⟩ := cloneEntries_spec hne (i := i + 1) hM
        (fun j hlo hhi => hzero j (by omega) (by omega)) henough
      have hc' := hc.skip h0
      refine ⟨k', idx, hc', ?_⟩
      rw [cloneEntries, if_pos (not_not.1 h0), hrun]
      unfold copiesOf
      rw [List.range'_succ, List.filter_cons, if_neg fun h => h0 ((hc'.holds hne i).1 (of_decide_eq_true h))]

/-! ## The flags -/

def flags (p : Page) : List Bool := [p.present, p.readWrite, p.user, p.accessed, p.dirty]

/-- The entry `i` of the table `t` lies in what `clone_table` clears at `table`. -/
def Cleared (table t : U32) (i : Nat) : Prop := (t + 4 * BitVec.ofNat 32 i - table).toNat < 8196

instance (table t : U32) (i : Nat) : Decidable (Cleared table t i) := inferInstanceAs (Decidable (_ < _))

theorem page_clear {p t : U32} (hi : i < 1024) :
    (k.clear p 8196).page ⟨t, i⟩ = if Cleared p t i then Page.zero else k.page ⟨t, i⟩ := by
  unfold clear page Cleared
  simp only [hi, true_and, decide_eq_true_eq]
  rfl

theorem cleared_self {p : U32} (hi : i < 1024) : Cleared p p i := by
  refine word_inside ?_
  rw [BitVec.toNat_mul, BitVec.toNat_ofNat, show (4 : U32).toNat = 4 from rfl]
  omega

theorem pages_clear_le {p : U32} : (k.clear p 8196).pages src 1024 0 ≤ k.pages src 1024 0 :=
  List.countP_mono_left fun j hj h => by
    have hj' := (List.mem_range'_1.1 hj).2
    have h := of_decide_eq_true h
    refine decide_eq_true fun h0 => h ?_
    rw [page_clear (by omega)]
    split
    · rfl
    · exact h0

/-- **`clone_table`**, while frames are free for the entries that it clones. -/
theorem cloneTable_spec {alloc : Allocator} {phys : Option U32} {k₁ : Kernel}
    (hm : kmalloc alloc k sizeofPageTable true = some (table, phys, k₁)) (hne : src ≠ table)
    (hM : M ≤ k₁.frames.scanned) (henough : k₁.pages src 1024 0 ≤ k₁.frames.freeBelow M) :
    ∃ k' idx, EntriesCloned M table src 1024 0 (k₁.clear table 8196) k' idx ∧
      cloneTable alloc k src = some (table, phys, copiesOf table src k' (List.range' 0 1024), k') := by
  obtain ⟨k', idx, hc, hrun⟩ := cloneEntries_spec (k := k₁.clear table 8196) (n := 1024) (i := 0) hne hM
    (fun j _ hj => by rw [page_clear (by omega), if_pos (cleared_self (by omega))])
    (Nat.le_trans pages_clear_le henough)
  refine ⟨k', idx, hc, ?_⟩
  unfold cloneTable
  rw [hm, Option.bind_some, show sizeofPageDirectory.toNat = 8196 from rfl]
  simp only [hrun, Option.map_some]

end Kernel
end Loris
