import Loris.Frames
import Loris.Runs
/-!
# FrameOwnership — the bitmap and the page entries agree

Which frame a page holds is recorded twice, in its entry and in the bitmap.  `alloc_frame` keeps the two together.
`free_frame` clears the wrong bit and leaves the entry present, so the ownership law holds along a run exactly when
each of its releases is of a page without a frame (`ownership_iff`).
-/
namespace Loris

open ByteMem Runs

/-- The bitmap and the page entries. -/
structure FrameState (ι : Type) where
  frames : Frames
  pages : ι → Page

inductive FrameOp (ι : Type) where
  | alloc (page : ι) (isKernel isWritable : Bool)
  | free (page : ι)

namespace FrameState

variable {ι : Type}

section Step

variable [DecidableEq ι]

def setPage (s : FrameState ι) (i : ι) (p : Page) : ι → Page := fun j => if j = i then p else s.pages j

/-- One call of `alloc_frame` or `free_frame`; `none` is a call that does not return. -/
def step (s : FrameState ι) : FrameOp ι → Option (FrameState ι)
  | .alloc i isKernel isWritable =>
    (s.frames.allocFrame (s.pages i) isKernel isWritable).map fun r => ⟨r.1, s.setPage i r.2⟩
  | .free i => some ⟨(s.frames.freeFrame (s.pages i)).1, s.setPage i (s.frames.freeFrame (s.pages i)).2⟩

def Step (s : FrameState ι) (a : FrameOp ι) (t : FrameState ι) : Prop := s.step a = some t

end Step

/-- **Frame ownership.** -/
structure Owns (s : FrameState ι) : Prop where
  held : ∀ f, f ≠ 0 → (s.frames.bit f = true ↔ ∃! i, (s.pages i).frame.toNat = f)
  apart : ∀ i j, (s.pages i).frame ≠ 0 → (s.pages i).frame = (s.pages j).frame → i = j
  reserved : s.frames.bit 0 = true
  present : ∀ i, (s.pages i).present = true ↔ (s.pages i).frame ≠ 0

/-- The start: no page has a frame or is present, and of the frames only frame 0 is taken. -/
structure Fresh (s : FrameState ι) : Prop where
  pages : ∀ i, (s.pages i).frame = 0 ∧ (s.pages i).present = false
  bits : ∀ f, s.frames.bit f = decide (f = 0)

theorem Fresh.owns {s : FrameState ι} (h : s.Fresh) : s.Owns := by
  refine ⟨fun f hf => ?_, fun i j hi _ => absurd (h.pages i).1 hi, by simp [h.bits], fun i => by simp [h.pages i]⟩
  constructor
  · intro hb; rw [h.bits, decide_eq_true_eq] at hb; exact absurd hb hf
  · rintro ⟨i, hi, -⟩
    rw [(h.pages i).1] at hi
    exact absurd hi.symm hf

/-- A clear frame is no page's. -/
theorem Owns.not_held {s : FrameState ι} (h : s.Owns) {f : Nat} (hf : f ≠ 0) (hbit : s.frames.bit f = false) (j : ι) :
    (s.pages j).frame.toNat ≠ f := fun hj => by
  have hone : ∃! i, (s.pages i).frame.toNat = f := by
    refine ⟨j, hj, fun k (hk : (s.pages k).frame.toNat = f) => h.apart k j (fun h0 => ?_) ?_⟩
    · rw [h0] at hk
      exact hf hk.symm
    · exact BitVec.eq_of_toNat_eq (hk.trans hj.symm)
  rw [(h.held f hf).2 hone] at hbit
  cases hbit

variable [DecidableEq ι]

theorem setPage_self (s : FrameState ι) (i : ι) : (⟨s.frames, s.setPage i (s.pages i)⟩ : FrameState ι) = s := by
  have h : s.setPage i (s.pages i) = s.pages := by
    funext j
    unfold setPage
    split
    · rename_i hj; rw [hj]
    · rfl
  rw [h]

/-- **A page without a frame takes a clear one.** -/
theorem Owns.take {s : FrameState ι} (h : s.Owns) {i : ι} {idx : U32} {v : Page} (hp : (s.pages i).frame = 0)
    (hlt : idx.toNat < 2 ^ 20) (hbit : s.frames.bit idx.toNat = false) (hv : v.frame = idx.setWidth 20)
    (hvp : v.present = true) : (⟨s.frames.setFrame (idx * 0x1000), s.setPage i v⟩ : FrameState ι).Owns := by
  have hi0 : idx.toNat ≠ 0 := fun h0 => by rw [h0, h.reserved] at hbit; cases hbit
  have haddr : (idx * 0x1000).toNat / 0x1000 = idx.toNat := by
    rw [BitVec.toNat_mul]; simp; omega
  have hfr : v.frame.toNat = idx.toNat := by rw [hv, BitVec.toNat_setWidth]; omega
  have hnone := h.not_held hi0 hbit
  refine ⟨fun f hf0 => ?_, fun j k hj hjk => ?_, ?_, fun j => ?_⟩
  · rw [Frames.bit_setFrame, haddr]
    by_cases hfi : f = idx.toNat
    · subst hfi
      simp only [decide_true, Bool.or_true, true_iff]
      refine ⟨i, by simp [setPage, hfr], fun j hj => ?_⟩
      by_contra hji
      simp only [setPage, if_neg hji] at hj
      exact hnone j hj
    · simp only [hfi, decide_false, Bool.or_false, h.held f hf0]
      refine existsUnique_congr fun j => ?_
      unfold setPage
      split
      · next hji =>
        rw [hji, hp, hfr]
        exact ⟨fun h' => absurd h'.symm hf0, fun h' => absurd h'.symm hfi⟩
      · exact Iff.rfl
  · simp only [setPage] at hj hjk
    by_cases hji : j = i
    · by_cases hki : k = i
      · rw [hji, hki]
      · rw [if_pos hji, if_neg hki] at hjk
        exact absurd (by rw [← hjk, hfr]) (hnone k)
    · rw [if_neg hji] at hj hjk
      by_cases hki : k = i
      · rw [if_pos hki] at hjk
        exact absurd (by rw [hjk, hfr]) (hnone j)
      · rw [if_neg hki] at hjk
        exact h.apart j k hj hjk
  · rw [Frames.bit_setFrame, h.reserved]; rfl
  · simp only [setPage]
    split
    · refine iff_of_true hvp fun h0 => hi0 ?_
      rw [← hfr, h0]
      rfl
    · exact h.present j

/-- **`alloc_frame` keeps the ownership law.** -/
theorem Owns.alloc {s t : FrameState ι} (h : s.Owns) (hn : s.frames.nframes.toNat ≤ 2 ^ 20) {i : ι} {a b : Bool}
    (ht : s.Step (.alloc i a b) t) : t.Owns := by
  unfold Step step at ht
  obtain ⟨r, hr, rfl⟩ := Option.map_eq_some_iff.1 ht
  unfold Frames.allocFrame at hr
  by_cases hp : (s.pages i).frame ≠ 0
  · rw [if_pos hp] at hr
    obtain rfl := Option.some.inj hr
    rw [setPage_self]; exact h
  · rw [if_neg hp] at hr
    cases hf : s.frames.firstFrame with
    | none => simp [hf] at hr
    | some idx =>
      simp only [hf] at hr
      split at hr
      · cases hr
      · obtain rfl := Option.some.inj hr
        obtain ⟨hlt, hbit, -⟩ := Frames.firstFrame_spec hf
        have hle := s.frames.scanned_le
        exact h.take (not_not.1 hp) (by omega) hbit rfl rfl

/-- **Releasing a frame breaks the law**: the entry stays present. -/
theorem not_owns_free {s : FrameState ι} {i : ι} (h : s.Owns) (hi : (s.pages i).frame ≠ 0) :
    ¬ (⟨(s.frames.freeFrame (s.pages i)).1, s.setPage i (s.frames.freeFrame (s.pages i)).2⟩ : FrameState ι).Owns := by
  intro h'
  have hp := (h.present i).2 hi
  have := (h'.present i).1
  simp only [setPage, if_true, Frames.freeFrame, if_neg hi] at this
  exact this hp rfl

theorem nframes_step {s t : FrameState ι} {a : FrameOp ι} (h : s.Step a t) : t.frames.nframes = s.frames.nframes := by
  unfold Step at h
  cases a with
  | alloc i a b =>
    obtain ⟨r, hr, rfl⟩ := Option.map_eq_some_iff.1 h
    unfold Frames.allocFrame at hr
    split at hr
    · obtain rfl := Option.some.inj hr; rfl
    · split at hr
      · cases hr
      · split at hr
        · cases hr
        · obtain rfl := Option.some.inj hr; rfl
  | free i =>
    obtain rfl := Option.some.inj h
    show (s.frames.freeFrame (s.pages i)).1.nframes = _
    unfold Frames.freeFrame
    split <;> rfl

/-- A release of a page without a frame. -/
def Harmless (s : FrameState ι) (a : FrameOp ι) : Prop := ∀ i, a = .free i → (s.pages i).frame = 0

theorem Owns.step {s t : FrameState ι} {a : FrameOp ι} (h : s.Owns) (hn : s.frames.nframes.toNat ≤ 2 ^ 20)
    (hg : s.Harmless a) (ht : s.Step a t) : t.Owns := by
  cases a with
  | alloc i a b => exact h.alloc hn ht
  | free i =>
    obtain rfl := Option.some.inj ht
    simp only [Frames.freeFrame, if_pos (hg i rfl), setPage_self]
    exact h

end FrameState

/-- **Frame ownership along a run** of `alloc_frame` and `free_frame` calls holds in every state reached exactly when
every page released holds no frame. -/
theorem ownership_iff {ι : Type} [DecidableEq ι] {s : FrameState ι} (hs : s.Fresh)
    (hn : s.frames.nframes.toNat ≤ 2 ^ 20) (ops : List (FrameOp ι)) :
    (∀ l₁ l₂ t, ops = l₁ ++ l₂ → Reaches FrameState.Step s l₁ t → t.Owns) ↔
      ∀ l₁ i l₂ t, ops = l₁ ++ .free i :: l₂ → Reaches FrameState.Step s l₁ t → (t.pages i).frame = 0 := by
  rw [← along_iff]
  constructor
  · intro h
    have hg := h.guarded (g := FrameState.Harmless) fun s a hs hstep i ha => by
      subst ha
      by_contra hi
      exact FrameState.not_owns_free hs hi (hstep _ rfl)
    exact fun l₁ i l₂ t hl hr => guarded_iff.1 hg l₁ _ l₂ t hl hr i rfl
  · intro h
    have hg : Guarded FrameState.Step FrameState.Harmless s ops := guarded_iff.2 fun l₁ a l₂ t hl hr i ha => by
      subst ha; exact h l₁ i l₂ t hl hr
    have hinv := hg.along (p := fun s => s.Owns ∧ s.frames.nframes.toNat ≤ 2 ^ 20)
      (fun s a t hs hg ht => ⟨hs.1.step hs.2 hg ht, by rw [FrameState.nframes_step ht]; exact hs.2⟩) ⟨hs.owns, hn⟩
    exact hinv.imp fun _ => And.left

/-- One page, and a bitmap of 32 frames with frame 0 reserved. -/
def onePageFresh : FrameState Unit := ⟨⟨0x20, fun i => if i = 0 then 1 else 0⟩, fun _ => Page.zero⟩

theorem onePageFresh_fresh : onePageFresh.Fresh := by
  refine ⟨fun _ => ⟨rfl, rfl⟩, fun f => ?_⟩
  show (if f / 32 = 0 then (1 : U32) else 0).getLsbD (f % 32) = decide (f = 0)
  by_cases h : f / 32 = 0
  · rw [if_pos h, show f % 32 = f by omega]
    simp
  · rw [if_neg h]
    have : f ≠ 0 := by omega
    simp [this]

/-- Two pages, and the same bitmap. -/
def twoPagesFresh : FrameState Bool := ⟨onePageFresh.frames, fun _ => Page.zero⟩

/-- Between the two pages' calls of `alloc_frame`, `free_frame` is called for the one that has no frame yet. -/
theorem ownership_twoPages : ∃ t, Reaches FrameState.Step twoPagesFresh
      [.alloc false false false, .free true, .alloc true true true] t ∧
    t.Owns ∧ (t.pages false).frame = 1 ∧ (t.pages true).frame = 2 := by
  have hrun : ((twoPagesFresh.step (.alloc false false false)).bind fun s => (s.step (.free true)).bind fun t =>
      (t.step (.alloc true true true)).map fun u => ((s.pages true).frame, (u.pages false).frame,
        (u.pages true).frame)) = some (0, 1, 2) := by decide +kernel
  obtain ⟨s, hs, hrun⟩ := Option.bind_eq_some_iff.1 hrun
  obtain ⟨t, ht, hrun⟩ := Option.bind_eq_some_iff.1 hrun
  obtain ⟨u, hu, hframes⟩ := Option.map_eq_some_iff.1 hrun
  simp only [Prod.mk.injEq] at hframes
  obtain ⟨hfree, h₁, h₂⟩ := hframes
  have hharmless : s.Harmless (.free true) := fun i hi => by
    cases hi
    exact hfree
  have hg : Guarded FrameState.Step FrameState.Harmless twoPagesFresh
      [.alloc false false false, .free true, .alloc true true true] :=
    .cons nofun (fun _ hv => Option.some.inj (hv.symm.trans hs)) ⟨hharmless, fun _ _ => ⟨nofun, fun _ _ => trivial⟩⟩
  have hr : Reaches FrameState.Step _ _ _ := .cons hs (.cons ht (reaches_one hu))
  exact ⟨u, hr, (ownership_iff (s := twoPagesFresh) ⟨fun _ => ⟨rfl, rfl⟩, onePageFresh_fresh.bits⟩ (by decide) _).2
    (fun l₁ i l₂ v hl hv => guarded_iff.1 hg l₁ _ l₂ v hl hv i rfl) _ [] u rfl hr, h₁, h₂⟩

theorem ownership_alloc_free : onePageFresh.Fresh ∧
    ∃ t, Reaches FrameState.Step onePageFresh [.alloc () false false, .free ()] t ∧ ¬ t.Owns := by
  refine ⟨onePageFresh_fresh, ?_⟩
  have h : (onePageFresh.step (.alloc () false false)).map (fun t => (t.pages ()).frame) = some 1 := by decide +kernel
  obtain ⟨t, ht, hfr⟩ := Option.map_eq_some_iff.1 h
  have hown := onePageFresh_fresh.owns.alloc (by decide) ht
  exact ⟨_, ⟨t, ht, _, rfl, rfl⟩, FrameState.not_owns_free hown (by rw [hfr]; decide)⟩

end Loris
