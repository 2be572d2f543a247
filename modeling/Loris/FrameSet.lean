import Loris.Frames
import Mathlib.Data.Set.Insert
/-!
# FrameSet — the bitmap as a set of frames

`set_frame` and `clear_frame` insert a frame into a set and erase one, `test_frame` asks for membership and
`first_frame` for the least frame outside (`bitmap_is_set`).  `first_frame` looks at whole words only and has no
`return` behind its loops, so that a caller who waits for `(uint32_t)-1` is answered exactly while a frame of the whole
words is clear (`detects_exhaustion`).  `alloc_frame` marks a page as taken by its frame's number, which frame 0 does
not (`alloc_idempotent`).
-/
namespace Loris

open ByteMem

/-! ## Insertions and erasures -/

section SetRuns

variable {α : Type}

/-- A call that puts an element into a set, or takes it out. -/
inductive SetOp (α : Type) where
  | add (a : α)
  | drop (a : α)

def SetOp.on : SetOp α → α
  | .add a => a
  | .drop a => a

def SetOp.apply (s : Set α) : SetOp α → Set α
  | .add a => insert a s
  | .drop a => s \ {a}

/-- The last call on an element: whether it was an insertion. -/
def lastCall [DecidableEq α] (a : α) : List (SetOp α) → Option Bool
  | [] => none
  | .add b :: l => (lastCall a l).or (if a = b then some true else none)
  | .drop b :: l => (lastCall a l).or (if a = b then some false else none)

/-- **An element is in the set exactly when the last call on it was its insertion**, or there was none and it was in
before. -/
theorem mem_run [DecidableEq α] (a : α) : ∀ (l : List (SetOp α)) (s : Set α),
    a ∈ l.foldl SetOp.apply s ↔ lastCall a l = some true ∨ (lastCall a l = none ∧ a ∈ s)
  | [], s => by simp [lastCall]
  | .add b :: l, s => by
    rw [List.foldl_cons, mem_run a l, lastCall]
    cases lastCall a l with
    | some v => simp
    | none => by_cases h : a = b <;> simp [SetOp.apply, h]
  | .drop b :: l, s => by
    rw [List.foldl_cons, mem_run a l, lastCall]
    cases lastCall a l with
    | some v => simp
    | none => by_cases h : a = b <;> simp [SetOp.apply, h]

end SetRuns

namespace Frames

variable {b : Frames}

/-! ## The bitmap refines the set -/

/-- The frame of an address. -/
def frameOf (a : U32) : Nat := a.toNat / 0x1000

/-- `set_frame` for an insertion, `clear_frame` for an erasure, of the frame of an address. -/
def call (b : Frames) : SetOp U32 → Frames
  | .add a => b.setFrame a
  | .drop a => b.clearFrame a

/-- The frames whose bits are set. -/
def taken (b : Frames) : Set Nat := fun f => b.bit f = true

/-- **`clear_frame` clears the bit of its address's frame and no other.** -/
theorem bit_clearFrame (b : Frames) (a : U32) (f : Nat) :
    (b.clearFrame a).bit f = (b.bit f && decide (f ≠ a.toNat / 0x1000)) := by
  unfold clearFrame setWord bit
  simp only [toNat_index, toNat_offset, toNat_page]
  by_cases hw : f / 32 = a.toNat / 0x1000 / 32
  · rw [if_pos hw, ← hw, BitVec.getLsbD_and, BitVec.getLsbD_not, getLsbD_one_shiftLeft _ _ (by omega)]
    have h32 : f % 32 < 32 := by omega
    have hiff : f % 32 = a.toNat / 0x1000 % 32 ↔ f = a.toNat / 0x1000 := by omega
    simp [h32, hiff]
  · rw [if_neg hw]
    have : ¬ f = a.toNat / 0x1000 := fun h => hw (by rw [h])
    simp [this]

theorem testFrame_ne_zero (b : Frames) (a : U32) : b.testFrame a ≠ 0 ↔ b.bit (frameOf a) = true := by
  unfold testFrame bit frameOf
  simp only [toNat_index, toNat_offset, toNat_page]
  rw [ne_eq, and_one_shiftLeft_eq_zero _ (by omega), Bool.not_eq_false]

theorem nframes_call (b : Frames) (o : SetOp U32) : (b.call o).nframes = b.nframes := by cases o <;> rfl

/-- The same call on the frame of the address. -/
def frameCall : SetOp U32 → SetOp Nat
  | .add a => .add (frameOf a)
  | .drop a => .drop (frameOf a)

theorem taken_call (b : Frames) (o : SetOp U32) : (b.call o).taken = (frameCall o).apply b.taken := by
  cases o with
  | add a =>
    ext f
    show (b.setFrame a).bit f = true ↔ _
    rw [bit_setFrame, Bool.or_eq_true, decide_eq_true_eq, or_comm]
    rfl
  | drop a =>
    ext f
    show (b.clearFrame a).bit f = true ↔ _
    rw [bit_clearFrame, Bool.and_eq_true, decide_eq_true_eq]
    rfl

/-- **A run of calls does to the set what it does to the bitmap.** -/
theorem taken_run : ∀ (l : List (SetOp U32)) (b : Frames),
    (l.foldl call b).taken = (l.map frameCall).foldl SetOp.apply b.taken ∧ (l.foldl call b).nframes = b.nframes
  | [], _ => ⟨rfl, rfl⟩
  | o :: l, b => by
    obtain ⟨h1, h2⟩ := taken_run l (b.call o)
    rw [List.foldl_cons, List.map_cons, List.foldl_cons, h1, h2, taken_call, nframes_call]
    exact ⟨rfl, rfl⟩

/-- **While a frame of the whole words is clear, `first_frame` returns the least.** -/
theorem firstFrame_least {f : Nat} (hf : f < b.scanned) (hb : b.bit f = false) :
    ∃ idx, b.firstFrame = some idx ∧ idx.toNat < b.scanned ∧ b.bit idx.toNat = false ∧
      ∀ g, g < idx.toNat → b.bit g = true := by
  cases hfirst : b.firstFrame with
  | some idx =>
    obtain ⟨h1, h2, h3⟩ := firstFrame_spec hfirst
    exact ⟨idx, rfl, h1, h2, h3⟩
  | none =>
    rw [firstFrom_none b _ 0 hfirst f (by omega) (by unfold scanned at hf; omega)] at hb
    cases hb

/-- A run of calls from the empty bitmap of `n` frames answers as the set does. -/
structure IsSet (n : U32) (l : List (SetOp U32)) : Prop where
  test : ∀ a, (l.foldl call ⟨n, fun _ => 0⟩).testFrame a ≠ 0 ↔ lastCall (frameOf a) (l.map frameCall) = some true
  other : ∀ o a, frameOf o.on ≠ frameOf a →
    ((l ++ [o]).foldl call ⟨n, fun _ => 0⟩).testFrame a = (l.foldl call ⟨n, fun _ => 0⟩).testFrame a
  least : ∀ f, f < n.toNat → lastCall f (l.map frameCall) ≠ some true →
    ∃ idx, (l.foldl call ⟨n, fun _ => 0⟩).firstFrame = some idx ∧ idx.toNat < n.toNat ∧
      lastCall idx.toNat (l.map frameCall) ≠ some true ∧
      ∀ g, g < idx.toNat → lastCall g (l.map frameCall) = some true

theorem testFrame_call_other (b : Frames) (o : SetOp U32) {a : U32} (h : frameOf o.on ≠ frameOf a) :
    (b.call o).testFrame a = b.testFrame a := by
  have hb : (b.call o).bit (frameOf a) = b.bit (frameOf a) := by
    cases o with
    | add c =>
      have hc : frameOf a ≠ c.toNat / 0x1000 := fun he => h he.symm
      show (b.setFrame c).bit _ = _
      rw [bit_setFrame, decide_eq_false hc, Bool.or_false]
    | drop c =>
      have hc : frameOf a ≠ c.toNat / 0x1000 := fun he => h he.symm
      show (b.clearFrame c).bit _ = _
      rw [bit_clearFrame, decide_eq_true hc, Bool.and_true]
  unfold bit frameOf at hb
  unfold testFrame
  simp only [toNat_index, toNat_offset, toNat_page]
  apply BitVec.eq_of_getLsbD_eq
  intro i hi
  rw [BitVec.getLsbD_and, BitVec.getLsbD_and, getLsbD_one_shiftLeft _ _ hi]
  by_cases he : i = a.toNat / 0x1000 % 32
  · subst he
    rw [hb]
  · simp [he]

/-- **The bitmap is a set of frames**, for `nframes` a multiple of 32 and whatever is called. -/
theorem bitmap_is_set (n : U32) (hn : n.toNat % 32 = 0) (l : List (SetOp U32)) : IsSet n l := by
  obtain ⟨htaken, hnf⟩ := taken_run l ⟨n, fun _ => 0⟩
  have hempty : (⟨n, fun _ => 0⟩ : Frames).taken = ∅ := by
    ext f
    show (0 : U32).getLsbD (f % 32) = true ↔ False
    simp
  have hbit : ∀ f, (l.foldl call ⟨n, fun _ => 0⟩).bit f = true ↔ lastCall f (l.map frameCall) = some true := fun f => by
    show f ∈ (l.foldl call ⟨n, fun _ => 0⟩).taken ↔ _
    rw [htaken, hempty, mem_run]
    simp
  have hscan : (l.foldl call ⟨n, fun _ => 0⟩).scanned = n.toNat := by
    unfold scanned
    rw [hnf, toNat_index]
    show 32 * (n.toNat / 32) = n.toNat
    omega
  refine ⟨fun a => by rw [testFrame_ne_zero, hbit], fun o a ho => ?_, fun f hf hl => ?_⟩
  · rw [List.foldl_append]
    exact testFrame_call_other _ o ho
  · obtain ⟨idx, h1, h2, h3, h4⟩ :=
      firstFrame_least (b := l.foldl call ⟨n, fun _ => 0⟩) (f := f) (by rw [hscan]; exact hf)
      (Bool.eq_false_iff.2 fun h => hl ((hbit f).1 h))
    refine ⟨idx, h1, by rw [← hscan]; exact h2, fun h => ?_, fun g hg => (hbit g).1 (h4 g hg)⟩
    rw [(hbit idx.toNat).2 h] at h3
    cases h3

theorem bitmap_is_set_two : IsSet 64 [.add 0x1000, .add 0x1F000, .drop 0x1000] := bitmap_is_set 64 (by decide) _

/-! ## Exhaustion -/

/-- **`first_frame` tells whether a frame is left**: it returns the least clear frame below `nframes`, and
`(uint32_t)-1` when there is none, on which `alloc_frame` does not get to its writes. -/
structure Detects (b : Frames) : Prop where
  least : ∀ f, f < b.nframes.toNat → b.bit f = false → (∀ g, g < f → b.bit g = true) →
    b.firstFrame = some (BitVec.ofNat 32 f)
  full : (∀ f, f < b.nframes.toNat → b.bit f = true) → b.firstFrame = some 0xFFFFFFFF ∧
    ∀ page isKernel isWritable, page.frame = 0 → b.allocFrame page isKernel isWritable = none

theorem firstFrame_none (hb : ∀ f, f < b.scanned → b.bit f = true) : b.firstFrame = none := by
  cases hf : b.firstFrame with
  | none => rfl
  | some idx =>
    obtain ⟨h1, h2, -⟩ := firstFrame_spec hf
    rw [hb _ h1] at h2
    cases h2

/-- **Exhaustion is detected exactly while there is none**: a frame of the whole words of the bitmap is clear. -/
theorem detects_exhaustion (b : Frames) : b.Detects ↔ ∃ f, f < 32 * (b.nframes.toNat / 32) ∧ b.bit f = false := by
  have hscan : b.scanned = 32 * (b.nframes.toNat / 32) := by
    unfold scanned
    rw [toNat_index]
  rw [← hscan]
  constructor
  · intro hd
    by_contra hno
    have hset : ∀ f, f < b.scanned → b.bit f = true := fun f hf => by
      by_contra hb
      exact hno ⟨f, hf, by simpa using hb⟩
    have hnone := firstFrame_none hset
    by_cases hfull : ∃ f, f < b.nframes.toNat ∧ b.bit f = false
    · -- the least clear frame is in the last, partial word
      obtain ⟨hf, hb⟩ := Nat.find_spec hfull
      have := hd.least (Nat.find hfull) hf hb fun g hg => by
        by_contra hgb
        exact Nat.find_min hfull hg ⟨by omega, by simpa using hgb⟩
      rw [hnone] at this
      cases this
    · have := (hd.full fun f hf => by
        by_contra hb
        exact hfull ⟨f, hf, by simpa using hb⟩).1
      rw [hnone] at this
      cases this
  · rintro ⟨f, hf, hb⟩
    obtain ⟨idx, h1, h2, h3, h4⟩ := firstFrame_least hf hb
    refine ⟨fun g hg hgb hmin => ?_, fun hfull => ?_⟩
    · obtain rfl : idx.toNat = g := by
        rcases Nat.lt_trichotomy idx.toNat g with hlt | heq | hlt
        · rw [hmin _ hlt] at h3
          cases h3
        · exact heq
        · rw [h4 _ hlt] at hgb
          cases hgb
      rw [h1, BitVec.ofNat_toNat, BitVec.setWidth_eq]
    · rw [hfull f (by have := b.scanned_le; omega)] at hb
      cases hb

/-- With every frame taken there is no `(uint32_t)-1`, and with the one clear frame in a partial word it is not found.
-/
theorem exhaustion_undetected :
    ¬ (⟨32, fun _ => 0xFFFFFFFF⟩ : Frames).Detects ∧ ¬ (⟨8, fun _ => 0⟩ : Frames).Detects := by
  refine ⟨fun h => ?_, fun h => ?_⟩
  · have := (h.full fun f hf => by
      have h32 : f < 32 := hf
      show (0xFFFFFFFF : U32).getLsbD (f % 32) = true
      rw [show (0xFFFFFFFF : U32) = BitVec.allOnes 32 from rfl, BitVec.getLsbD_allOnes]
      simp; omega).1
    exact absurd this (by decide)
  · exact absurd (h.least 0 (by decide) (by decide) fun g hg => absurd hg (Nat.not_lt_zero g)) (by decide)

/-! ## A second allocation -/

/-- **A second `alloc_frame` on a page does nothing**, whatever the flags of the two calls. -/
def AllocIdempotent (b : Frames) (page : Page) : Prop := ∀ isKernel isWritable isKernel' isWritable', ∃ r,
  b.allocFrame page isKernel isWritable = some r ∧ r.1.allocFrame r.2 isKernel' isWritable' = some r

theorem allocFrame_held {page : Page} (h : page.frame ≠ 0) (isKernel isWritable : Bool) :
    b.allocFrame page isKernel isWritable = some (b, page) := if_pos h

theorem allocFrame_taken {page : Page} {idx : U32} (h : page.frame = 0) (hidx : b.firstFrame = some idx)
    (isKernel isWritable : Bool) : b.allocFrame page isKernel isWritable = some (b.setFrame (idx * 0x1000),
      { page with
        present := true
        readWrite := isWritable
        user := !isKernel
        frame := idx.setWidth 20 }) := by
  have hlt := (firstFrame_spec hidx).1
  have hle := b.scanned_le
  have hn := b.nframes.isLt
  have hne : idx ≠ 0xFFFFFFFF := fun he => by
    rw [he, show (0xFFFFFFFF : U32).toNat = 2 ^ 32 - 1 from rfl] at hlt
    omega
  unfold allocFrame
  rw [if_neg (not_not.2 h)]
  simp only [hidx, if_neg hne]

theorem allocFrame_full {page : Page} (h : page.frame = 0) (hidx : b.firstFrame = none) (isKernel isWritable : Bool) :
    b.allocFrame page isKernel isWritable = none := by
  unfold allocFrame
  rw [if_neg (not_not.2 h), hidx]

/-- **`alloc_frame` is idempotent exactly when the page has a frame, or gets one that its entry does not read as
none**: the least clear frame is no multiple of `2 ^ 20`, the number of frames an entry tells apart. -/
theorem alloc_idempotent (b : Frames) (page : Page) : b.AllocIdempotent page ↔ page.frame ≠ 0 ∨
    ∃ f, f < 32 * (b.nframes.toNat / 32) ∧ b.bit f = false ∧ (∀ g, g < f → b.bit g = true) ∧ f % 2 ^ 20 ≠ 0 := by
  have hscan : b.scanned = 32 * (b.nframes.toNat / 32) := by
    unfold scanned
    rw [toNat_index]
  rw [← hscan]
  have hzero : ∀ idx : U32, idx.setWidth 20 = 0 ↔ idx.toNat % 2 ^ 20 = 0 := fun idx => by
    rw [← BitVec.toNat_inj, BitVec.toNat_setWidth]
    rfl
  by_cases hp : page.frame = 0
  · rw [or_iff_right (not_not.2 hp)]
    constructor
    · intro hi
      obtain ⟨r, hr, hr'⟩ := hi true true true false
      cases hidx : b.firstFrame with
      | none =>
        rw [allocFrame_full hp hidx] at hr
        cases hr
      | some idx =>
        obtain ⟨h1, h2, h3⟩ := firstFrame_spec hidx
        refine ⟨idx.toNat, h1, h2, h3, fun h0 => ?_⟩
        rw [allocFrame_taken hp hidx] at hr
        obtain rfl := Option.some.inj hr
        -- the entry reads as without a frame, so that the second call takes another and writes its own flags
        cases hidx' : (b.setFrame (idx * 0x1000)).firstFrame with
        | none =>
          rw [allocFrame_full ((hzero idx).2 h0) hidx'] at hr'
          cases hr'
        | some idx' =>
          rw [allocFrame_taken ((hzero idx).2 h0) hidx'] at hr'
          have := congrArg (fun r => r.2.readWrite) (Option.some.inj hr')
          simp at this
    · rintro ⟨f, hf, hb, hmin, hmod⟩ isKernel isWritable isKernel' isWritable'
      obtain ⟨idx, h1, h2, h3, h4⟩ := firstFrame_least hf hb
      obtain rfl : idx.toNat = f := by
        rcases Nat.lt_trichotomy idx.toNat f with hlt | heq | hlt
        · rw [hmin _ hlt] at h3
          cases h3
        · exact heq
        · rw [h4 _ hlt] at hb
          cases hb
      exact ⟨_, allocFrame_taken hp h1 _ _, allocFrame_held (fun h => hmod ((hzero idx).1 h)) _ _⟩
  · rw [iff_true_right (.inl hp)]
    exact fun isKernel isWritable isKernel' isWritable' => ⟨_, allocFrame_held hp _ _, allocFrame_held hp _ _⟩

/-- A page that gets frame 0 gets another frame the next time. -/
theorem alloc_twice :
    2 ≤ (⟨32, fun _ => 0⟩ : Frames).free ∧ ¬ (⟨32, fun _ => 0⟩ : Frames).AllocIdempotent Page.zero := by
  refine ⟨by decide, fun h => ?_⟩
  obtain ⟨r, hr, hr'⟩ := h false true false true
  have h1 : (⟨32, fun _ => 0⟩ : Frames).allocFrame Page.zero false true =
      some ((⟨32, fun _ => 0⟩ : Frames).setFrame 0, ⟨true, true, true, false, false, 0, 0⟩) := rfl
  rw [h1] at hr
  obtain rfl := Option.some.inj hr
  have h2 : ((⟨32, fun _ => 0⟩ : Frames).setFrame 0).firstFrame = some 1 := by decide
  rw [allocFrame_taken rfl h2] at hr'
  have := congrArg (fun r => r.2.frame) (Option.some.inj hr')
  exact absurd this (by decide)

end Frames

end Loris
