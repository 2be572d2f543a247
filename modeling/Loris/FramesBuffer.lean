import Loris.Boot
/-!
# FramesBuffer — the memory behind the frame bitmap (`paging.cpp` lines 18 to 40 and 137 to 151)

`frames` points to words of memory, of which `set_frame`, `clear_frame` and `test_frame` access the one of their
frame.  Over enough memory they are the operations on the array of `Frames` (`framesAt_setFrame`).  The buffer that
`initialise_paging` allocates has a byte for each word of the bitmap: `frames_buffer` says which frames it is enough
for.  The other words lie behind the buffer; `BitmapAlone` says when they are no one else's, so that the bitmap is the
array that `makeDirectory` has (`BitmapAlone.framesAt`) and spares the directories (`TablesBehind.spared`).
-/
namespace Loris

open ByteMem

/-- `&frames[idx]`, for the frame of an address. -/
def frameWord (frames frame_addr : U32) : U32 := frames + 4 * indexFromBit (frame_addr / 0x1000)

/-- `0x1 << off`. -/
def frameMask (frame_addr : U32) : U32 := 0x1#32 <<< (offsetFromBit (frame_addr / 0x1000)).toNat

def setFrameAt (m : Mem) (frames frame_addr : U32) : Mem :=
  store m (frameWord frames frame_addr) (load m (frameWord frames frame_addr) ||| frameMask frame_addr)

def clearFrameAt (m : Mem) (frames frame_addr : U32) : Mem :=
  store m (frameWord frames frame_addr) (load m (frameWord frames frame_addr) &&& ~~~ frameMask frame_addr)

def testFrameAt (m : Mem) (frames frame_addr : U32) : U32 :=
  load m (frameWord frames frame_addr) &&& frameMask frame_addr

/-- The array at `frames`. -/
def framesAt (m : Mem) (frames nframes : U32) : Frames := ⟨nframes, fun i => load m (frames + 4 * BitVec.ofNat 32 i)⟩

section Array

variable {m : Mem} {frames nframes a : U32}

theorem toNat_frameIndex (a : U32) : (indexFromBit (a / 0x1000)).toNat = a.toNat / 0x20000 := by
  rw [Frames.toNat_index, Frames.toNat_page]
  omega

theorem load_frameWord (m : Mem) (frames a v : U32) {i : Nat} (hi : i < 0x8000) :
    load (store m (frameWord frames a) v) (frames + 4 * BitVec.ofNat 32 i) =
      if i = (indexFromBit (a / 0x1000)).toNat then v else load m (frames + 4 * BitVec.ofNat 32 i) := by
  have hidx := toNat_frameIndex a
  have ha := a.isLt
  have h4 : (4 : U32).toNat = 4 := rfl
  by_cases he : i = (indexFromBit (a / 0x1000)).toNat
  · subst he
    rw [if_pos rfl, BitVec.ofNat_toNat, BitVec.setWidth_eq]
    exact load_store_same m _ v
  · rw [if_neg he]
    refine load_congr fun x hx => store_apply_of_ge m v ?_
    have h1 : (4 * BitVec.ofNat 32 i).toNat = 4 * i := by
      rw [BitVec.toNat_mul, BitVec.toNat_ofNat, h4]
      omega
    have h2 : (4 * indexFromBit (a / 0x1000)).toNat = 4 * (indexFromBit (a / 0x1000)).toNat := by
      rw [BitVec.toNat_mul, h4]
      omega
    unfold frameWord
    generalize 4 * BitVec.ofNat 32 i = u at *
    generalize 4 * indexFromBit (a / 0x1000) = w at *
    bv_omega

/-- **On the array the memory operations are those of `Frames`.** -/
theorem framesAt_setFrame (m : Mem) (frames nframes a : U32) {i : Nat} (hi : i < 0x8000) :
    (framesAt (setFrameAt m frames a) frames nframes).words i = ((framesAt m frames nframes).setFrame a).words i := by
  unfold framesAt setFrameAt Frames.setFrame Frames.setWord
  simp only
  rw [load_frameWord m frames a _ hi, BitVec.ofNat_toNat, BitVec.setWidth_eq]
  rfl

theorem framesAt_clearFrame (m : Mem) (frames nframes a : U32) {i : Nat} (hi : i < 0x8000) :
    (framesAt (clearFrameAt m frames a) frames nframes).words i =
      ((framesAt m frames nframes).clearFrame a).words i := by
  unfold framesAt clearFrameAt Frames.clearFrame Frames.setWord
  simp only
  rw [load_frameWord m frames a _ hi, BitVec.ofNat_toNat, BitVec.setWidth_eq]
  rfl

theorem framesAt_testFrame (m : Mem) (frames nframes a : U32) :
    testFrameAt m frames a = (framesAt m frames nframes).testFrame a := by
  unfold framesAt testFrameAt Frames.testFrame
  simp only [BitVec.ofNat_toNat, BitVec.setWidth_eq]
  rfl

end Array

/-! ## The buffer -/

/-- **The operations on the frame of `a` stay in the buffer** of `n` bytes at `frames`: the word they access lies in
it, so that `memset` cleared it and nothing but the buffer changes. -/
structure InBuffer (frames n a : U32) : Prop where
  word : ∀ x : U32, (x - frameWord frames a).toNat < 4 → (x - frames).toNat < n.toNat
  cleared : ∀ m, load (fill m frames 0 n.toNat) (frameWord frames a) = 0
  set : ∀ (m : Mem) (x : U32), n.toNat ≤ (x - frames).toNat → setFrameAt m frames a x = m x
  clear : ∀ (m : Mem) (x : U32), n.toNat ≤ (x - frames).toNat → clearFrameAt m frames a x = m x

theorem frameWord_sub (frames a : U32) : (frameWord frames a - frames).toNat = 4 * (a.toNat / 0x20000) := by
  have hidx := toNat_frameIndex a
  have ha := a.isLt
  have h4 : (4 : U32).toNat = 4 := rfl
  unfold frameWord
  rw [add_sub_self, BitVec.toNat_mul, hidx, h4]
  omega

theorem inBuffer_iff (frames n a : U32) : InBuffer frames n a ↔ 4 * (a.toNat / 0x20000) + 4 ≤ n.toNat := by
  have hsub := frameWord_sub frames a
  have ha := a.isLt
  have hn := n.isLt
  constructor
  · intro h
    have hlast := h.word (frameWord frames a + 3) (by rw [add_sub_self]; decide)
    have : (frameWord frames a + 3 - frames).toNat = 4 * (a.toNat / 0x20000) + 3 := by
      generalize frameWord frames a = w at *
      bv_omega
    omega
  · intro hle
    have hword : ∀ x : U32, (x - frameWord frames a).toNat < 4 → (x - frames).toNat < n.toNat := fun x hx => by
      generalize frameWord frames a = w at *
      bv_omega
    have hkeep : ∀ (m : Mem) (v x : U32), n.toNat ≤ (x - frames).toNat → store m (frameWord frames a) v x = m x :=
      fun m v x hx => store_apply_of_ge m v (by have := hword x; omega)
    exact ⟨hword, fun m => load_fill_zero m _ _ _ hword, fun m x hx => hkeep m _ x hx, fun m x hx => hkeep m _ x hx⟩

namespace Kernel

/-- **The buffer of `initialise_paging` is enough for the frames below 1024**, a quarter of them, wherever it starts. -/
theorem frames_buffer {k : Kernel} (hk : k.kheap = 0) (alloc : Allocator) :
    ∃ frames phys k₁, kmalloc alloc k (indexFromBit (memEndPage / 0x1000)) false = some (frames, phys, k₁) ∧
      ∀ frame, frame < (memEndPage / 0x1000).toNat →
        (InBuffer frames (indexFromBit (memEndPage / 0x1000)) (BitVec.ofNat 32 frame * 0x1000) ↔ frame < 1024) := by
  refine ⟨_, _, _, kmalloc_plain hk _, fun frame hf => ?_⟩
  have hn : (memEndPage / 0x1000).toNat = 0x1000 := by decide
  have h128 : (indexFromBit (memEndPage / 0x1000)).toNat = 128 := by decide
  have haddr : (BitVec.ofNat 32 frame * 0x1000).toNat = frame * 0x1000 := by
    rw [BitVec.toNat_mul, BitVec.toNat_ofNat, show (0x1000 : U32).toNat = 0x1000 from rfl]
    omega
  rw [inBuffer_iff, haddr, h128]
  omega

theorem frames_buffer_1M : ∃ frames phys k₁,
    kmalloc (alloc 0) imageAt1M (indexFromBit (memEndPage / 0x1000)) false = some (frames, phys, k₁) ∧
      ∀ frame, frame < (memEndPage / 0x1000).toNat →
        (InBuffer frames (indexFromBit (memEndPage / 0x1000)) (BitVec.ofNat 32 frame * 0x1000) ↔ frame < 1024) :=
  frames_buffer rfl _

/-- With the image's end at `0x101F00`, `set_frame` of frame 2048 writes the first slot of the kernel's directory. -/
theorem frame_in_directory : ∃ k', makeDirectory (alloc 0) { imageAt1M with placement_address := 0x101F00 } = some k' ∧
    k'.kernel_directory = 0x102000 ∧ 2048 < k'.frames.nframes.toNat ∧
    ¬ InBuffer 0x101F00 (indexFromBit k'.frames.nframes) (2048 * 0x1000) ∧
    load k'.mem 0x102000 = 0 ∧ load (setFrameAt k'.mem 0x101F00 (2048 * 0x1000)) 0x102000 = 1 := by
  refine ⟨_, rfl, by decide, by decide, ?_, by decide, by decide⟩
  rw [inBuffer_iff]
  decide

/-! ## The words behind the buffer -/

/-- Where the 128 words of a bitmap end that starts at `p`. -/
def bitmapEnd (p : U32) : Nat := p.toNat + 512

/-- **The bitmap has its words for itself**: they end before the kernel's directory, and those that `initialise_paging`
does not clear are clear. -/
structure BitmapAlone (k : Kernel) : Prop where
  apart : bitmapEnd k.placement_address ≤ (bootDirectory k.placement_address).toNat
  clear : ∀ x : U32, k.placement_address.toNat + 128 ≤ x.toNat → x.toNat < bitmapEnd k.placement_address → k.mem x = 0

/-- The placement addresses from which they do: on the page, 512 bytes before its end, or so near to the end that the
directory is a page further on. -/
theorem apart_iff {p : U32} (hfit : BootFits p) :
    bitmapEnd p ≤ (bootDirectory p).toNat ↔ p.toNat % 0x1000 ≤ 0xE00 ∨ 0xF80 ≤ p.toNat % 0x1000 := by
  unfold bitmapEnd
  rw [toNat_bootDirectory hfit]
  omega

theorem bitmapAlone_imageAt1M : imageAt1M.BitmapAlone :=
  ⟨(apart_iff (bootFits_iff.2 (by decide))).2 (by decide), fun _ _ _ => rfl⟩

/-- **The bitmap in memory is the array** that `makeDirectory` leaves. -/
theorem BitmapAlone.framesAt {k k₁ : Kernel} {alloc : Allocator} (h : k.BitmapAlone) (hk : k.kheap = 0)
    (hp : 0x1000 ≤ k.placement_address.toNat) (hfit : k.placement_address.toNat + 512 ≤ 2 ^ 32)
    (hmade : makeDirectory alloc k = some k₁) {i : Nat} (hi : i < 128) :
    (framesAt k₁.mem k.placement_address k₁.frames.nframes).words i = k₁.frames.words i := by
  have h128 : (k.placement_address + 128).toNat = k.placement_address.toNat + 128 :=
    toNat_add_ofNat (i := 128) (by omega)
  rw [makeDirectory_eq hk (by omega)] at hmade
  obtain rfl := Option.some.inj hmade
  have hword : (k.placement_address + 4 * BitVec.ofNat 32 i).toNat = k.placement_address.toNat + 4 * i := by
    have h4 : (4 : U32).toNat = 4 := rfl
    rw [BitVec.toNat_add, BitVec.toNat_mul, BitVec.toNat_ofNat, h4]
    omega
  have hzero : ∀ x : U32, (x - (k.placement_address + 4 * BitVec.ofNat 32 i)).toNat < 4 →
      (withDirectory k (bootDirectory k.placement_address)).mem x = 0 := fun x hx => by
    generalize k.placement_address + 4 * BitVec.ofNat 32 i = w at *
    have hlo : w.toNat ≤ x.toNat ∧ x.toNat < w.toNat + 4 := by
      rw [BitVec.toNat_sub] at hx
      omega
    have hhi : x.toNat < bitmapEnd k.placement_address := by
      unfold bitmapEnd
      omega
    show fill (fill k.mem k.placement_address 0 128) _ 0 8196 x = 0
    unfold fill
    split
    · rfl
    · split
      · rfl
      · rename_i hbuf
        rw [BitVec.toNat_sub] at hbuf
        exact h.clear x (by omega) hhi
  exact (load_congr (m := fun _ => 0) hzero).trans rfl

/-- A memory with any words in a bitmap, and all else as in `m`. -/
theorem exists_framesAt (m : Mem) {frames : U32} (nframes : U32) (w : Nat → U32) (hfit : bitmapEnd frames ≤ 2 ^ 32) :
    ∃ m', (∀ i, i < 128 → (framesAt m' frames nframes).words i = w i) ∧
      Keeps frames.toNat (bitmapEnd frames) m m' := by
  unfold bitmapEnd at hfit ⊢
  have hword : ∀ i, i < 128 → (frames + 4 * BitVec.ofNat 32 i).toNat = frames.toNat + 4 * i := fun i hi => by
    have h4 : (4 : U32).toNat = 4 := rfl
    rw [BitVec.toNat_add, BitVec.toNat_mul, BitVec.toNat_ofNat, h4]
    omega
  have hall : ∀ n, n ≤ 128 → ∃ m', (∀ i, i < n → load m' (frames + 4 * BitVec.ofNat 32 i) = w i) ∧
      Keeps frames.toNat (frames.toNat + 4 * n) m m' := fun n => by
    induction n with
    | zero => exact fun _ => ⟨m, fun i hi => absurd hi (Nat.not_lt_zero i), Keeps.refl _ _ m⟩
    | succ n ih =>
      intro hn
      obtain ⟨m', hm', hk⟩ := ih (by omega)
      have ha := hword n (by omega)
      have hs := keeps_store m' (frames + 4 * BitVec.ofNat 32 n) (w n) (by omega)
      refine ⟨_, fun i hi => ?_, (hk.mono (Nat.le_refl _) (by omega)).trans (hs.mono (by omega) (by omega))⟩
      by_cases hin : i = n
      · rw [hin]
        exact load_store_same ..
      · have hb := hword i (by omega)
        rw [hs.load_eq (by omega) (.inl (by omega))]
        exact hm' i (by omega)
  exact hall 128 (Nat.le_refl _)

variable {k : Kernel} {dir : U32}

/-- The bytes of a directory and of its page tables. -/
def InTables (k : Kernel) (dir x : U32) : Prop :=
  dir.toNat ≤ x.toNat ∧ x.toNat < dir.toNat + 8196 ∨ ∃ i, i < 1024 ∧ (k.directories dir).tables i ≠ 0 ∧
    ((k.directories dir).tables i).toNat ≤ x.toNat ∧ x.toNat < ((k.directories dir).tables i).toNat + 0x1000

/-- The operations on the bitmap at `frames` leave the directory and its page tables as they are. -/
def Spared (k : Kernel) (frames dir : U32) : Prop :=
  ∀ (m : Mem) (a x : U32), a.toNat < memEndPage.toNat → k.InTables dir x →
    setFrameAt m frames a x = m x ∧ clearFrameAt m frames a x = m x

/-- The directory and its page tables lie behind `b`. -/
structure TablesBehind (k : Kernel) (b : Nat) (dir : U32) : Prop where
  self : b ≤ dir.toNat
  tables : ∀ i, i < 1024 → (k.directories dir).tables i ≠ 0 → b ≤ ((k.directories dir).tables i).toNat

theorem TablesBehind.congr {k' : Kernel} {dir' : U32} {b : Nat} (h : k.TablesBehind b dir) (hb : b ≤ dir'.toNat)
    (ht : ∀ i, i < 1024 → (k'.directories dir').tables i = (k.directories dir).tables i) : k'.TablesBehind b dir' :=
  ⟨hb, fun i hi h0 => by
    rw [ht i hi] at h0 ⊢
    exact h.tables i hi h0⟩

/-- The tables that the loops of `initialise_paging` make lie behind the directory. -/
theorem Booting.behind {junk : U32} {t n h b : Nat} (hb : Booting k dir junk t n h) (hd : DirFits dir) (ht : t ≤ 4)
    (hle : b ≤ dir.toNat) : k.TablesBehind b dir := by
  refine ⟨hle, fun i hi h0 => ?_⟩
  rw [hb.tables i hi] at h0 ⊢
  split at h0
  · rw [if_pos ‹_›, hd.toNat_heapTable]
    omega
  · split at h0
    · rw [if_neg ‹_›, if_pos ‹_›, hd.toNat_tableAt (by omega)]
      omega
    · exact absurd rfl h0

/-- **The bitmap spares what lies behind it.** -/
theorem TablesBehind.spared {p : U32} (h : k.TablesBehind (bitmapEnd p) dir) : k.Spared p dir := fun m a x ha hx => by
  have hbuf : InBuffer p 512 a := (inBuffer_iff p 512 a).2 (by
    have h1 : memEndPage.toNat = 0x1000000 := rfl
    have h2 : (512 : U32).toNat = 512 := rfl
    omega)
  have hge : bitmapEnd p ≤ x.toNat := by
    rcases hx with ⟨hlo, -⟩ | ⟨i, hi, h0, hlo, -⟩
    · exact Nat.le_trans h.self hlo
    · exact Nat.le_trans (h.tables i hi h0) hlo
  have hout : (512 : U32).toNat ≤ (x - p).toNat := by
    have h2 : (512 : U32).toNat = 512 := rfl
    unfold bitmapEnd at hge
    rw [h2, BitVec.toNat_sub]
    omega
  exact ⟨hbuf.set m x hout, hbuf.clear m x hout⟩

end Kernel

end Loris
